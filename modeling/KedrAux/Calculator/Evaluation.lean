import KedrAux.Calculator.ParseData
import Mathlib.Data.BitVec

/-!
# Evaluation of parsed expressions

`calc_essence_evaluate` of `calculator.c`.  The header with `kedr_calc_int_t` is not part of
the sources; it is a signed type with `w` bits here, and its arithmetic wraps.

The operations have no checks.  It is proved when the evaluation comes to a division, a
remainder or a shift that is not defined for its operands.
-/

namespace KedrAux
namespace Calculator

inductive EvaluationFault where
  | divideByZero
  /-- The minimum value is divided by `-1`. -/
  | divideOverflow
  /-- A shift by a negative amount or by at least the width. -/
  | shift
  /-- The `BUG` in the default branch. -/
  | bug
  /-- A field is read that the struct of the essence does not have. -/
  | wrongStruct
deriving DecidableEq

-- The numbers of `enum calc_essence_type`.
@[match_pattern] abbrev essenceTypeValue : Nat := 0
@[match_pattern] abbrev essenceTypeVariable : Nat := 1
@[match_pattern] abbrev essenceTypeWeakVariable : Nat := 2
@[match_pattern] abbrev essenceTypeBinaryNot : Nat := 3
@[match_pattern] abbrev essenceTypeLogicalNot : Nat := 4
@[match_pattern] abbrev essenceTypeUnaryPlus : Nat := 5
@[match_pattern] abbrev essenceTypeUnaryMinus : Nat := 6
@[match_pattern] abbrev essenceTypeMultiply : Nat := 7
@[match_pattern] abbrev essenceTypeDivide : Nat := 8
@[match_pattern] abbrev essenceTypeRest : Nat := 9
@[match_pattern] abbrev essenceTypePlus : Nat := 10
@[match_pattern] abbrev essenceTypeMinus : Nat := 11
@[match_pattern] abbrev essenceTypeLeftShift : Nat := 12
@[match_pattern] abbrev essenceTypeRightShift : Nat := 13
@[match_pattern] abbrev essenceTypeLess : Nat := 14
@[match_pattern] abbrev essenceTypeGreater : Nat := 15
@[match_pattern] abbrev essenceTypeLessEqual : Nat := 16
@[match_pattern] abbrev essenceTypeGreaterEqual : Nat := 17
@[match_pattern] abbrev essenceTypeEqual : Nat := 18
@[match_pattern] abbrev essenceTypeInequal : Nat := 19
@[match_pattern] abbrev essenceTypeBinaryAnd : Nat := 20
@[match_pattern] abbrev essenceTypeBinaryXor : Nat := 21
@[match_pattern] abbrev essenceTypeBinaryOr : Nat := 22
@[match_pattern] abbrev essenceTypeLogicalAnd : Nat := 23
@[match_pattern] abbrev essenceTypeLogicalOr : Nat := 24
@[match_pattern] abbrev essenceTypeCond : Nat := 25

def UnaryType.essenceType : UnaryType → Nat
  | .binaryNot => essenceTypeBinaryNot
  | .logicalNot => essenceTypeLogicalNot
  | .unaryPlus => essenceTypeUnaryPlus
  | .unaryMinus => essenceTypeUnaryMinus

def BinaryType.essenceType : BinaryType → Nat
  | .multiply => essenceTypeMultiply
  | .divide => essenceTypeDivide
  | .rest => essenceTypeRest
  | .plus => essenceTypePlus
  | .minus => essenceTypeMinus
  | .leftShift => essenceTypeLeftShift
  | .rightShift => essenceTypeRightShift
  | .less => essenceTypeLess
  | .greater => essenceTypeGreater
  | .lessEqual => essenceTypeLessEqual
  | .greaterEqual => essenceTypeGreaterEqual
  | .equal => essenceTypeEqual
  | .inequal => essenceTypeInequal
  | .binaryAnd => essenceTypeBinaryAnd
  | .binaryXor => essenceTypeBinaryXor
  | .binaryOr => essenceTypeBinaryOr
  | .logicalAnd => essenceTypeLogicalAnd
  | .logicalOr => essenceTypeLogicalOr

section Evaluation

variable {w : Nat}

def truth (condition : Bool) : BitVec w :=
  if condition then 1 else 0

def divisionFault (x y : BitVec w) : Option EvaluationFault :=
  if y = 0 then some .divideByZero
  else if x = BitVec.intMin w ∧ y = -1 then some .divideOverflow
  else none

def shiftFault (y : BitVec w) : Option EvaluationFault :=
  if y.toInt < 0 ∨ w ≤ y.toInt then some .shift else none

def orFault (value : BitVec w) : Option EvaluationFault → Except EvaluationFault (BitVec w)
  | none => .ok value
  | some fault => .error fault

/-- `struct evaluate_data`; for a weak variable it is the value that `compute` returns. -/
structure EvaluateData (w : Nat) where
  varValues : Nat → BitVec w
  weakVars : Nat → BitVec w

/-- What is read from the struct of an essence; operands are evaluated. -/
structure EssenceFields (w : Nat) where
  type : Nat
  value : Except EvaluationFault (BitVec w) := .error .wrongStruct
  index : Except EvaluationFault Nat := .error .wrongStruct
  op : Except EvaluationFault (BitVec w) := .error .wrongStruct
  op1 : Except EvaluationFault (BitVec w) := .error .wrongStruct
  op2 : Except EvaluationFault (BitVec w) := .error .wrongStruct
  op3 : Except EvaluationFault (BitVec w) := .error .wrongStruct

variable (data : EvaluateData w)

/-- The `switch` of `calc_essence_evaluate`. -/
def evaluateFields (essence : EssenceFields w) : Except EvaluationFault (BitVec w) :=
  match essence.type with
  | essenceTypeValue => essence.value
  | essenceTypeVariable => do return data.varValues (← essence.index)
  | essenceTypeWeakVariable => do return data.weakVars (← essence.index)
  | essenceTypeUnaryPlus => essence.op
  | essenceTypeUnaryMinus => do return -(← essence.op)
  | essenceTypeBinaryNot => do return ~~~(← essence.op)
  | essenceTypeLogicalNot => do return truth ((← essence.op) == 0)
  | essenceTypeMultiply => do return (← essence.op1) * (← essence.op2)
  | essenceTypeDivide => do
      let x ← essence.op1
      let y ← essence.op2
      orFault (x.sdiv y) (divisionFault x y)
  | essenceTypeRest => do
      let x ← essence.op1
      let y ← essence.op2
      orFault (x.srem y) (divisionFault x y)
  | essenceTypePlus => do return (← essence.op1) + (← essence.op2)
  | essenceTypeMinus => do return (← essence.op1) - (← essence.op2)
  | essenceTypeLeftShift => do
      let x ← essence.op1
      let y ← essence.op2
      orFault (x <<< y.toNat) (shiftFault y)
  | essenceTypeRightShift => do
      let x ← essence.op1
      let y ← essence.op2
      orFault (x.sshiftRight y.toNat) (shiftFault y)
  | essenceTypeLess => do return truth ((← essence.op1).slt (← essence.op2))
  | essenceTypeGreater => do
      let x ← essence.op1
      let y ← essence.op2
      return truth (y.slt x)
  | essenceTypeLessEqual => do return truth ((← essence.op1).sle (← essence.op2))
  | essenceTypeGreaterEqual => do
      let x ← essence.op1
      let y ← essence.op2
      return truth (y.sle x)
  | essenceTypeEqual => do return truth ((← essence.op1) == (← essence.op2))
  | essenceTypeInequal => do return truth ((← essence.op1) != (← essence.op2))
  | essenceTypeBinaryAnd => do return (← essence.op1) &&& (← essence.op2)
  | essenceTypeBinaryXor => do return (← essence.op1) ^^^ (← essence.op2)
  | essenceTypeBinaryOr => do return (← essence.op1) ||| (← essence.op2)
  | essenceTypeLogicalAnd => do
      let x ← essence.op1
      if x = 0 then return 0
      let y ← essence.op2
      return truth (y != 0)
  | essenceTypeLogicalOr => do
      let x ← essence.op1
      if x ≠ 0 then return 1
      let y ← essence.op2
      return truth (y != 0)
  | essenceTypeCond => do
      let x ← essence.op1
      if x ≠ 0 then essence.op2 else essence.op3
  | _ => .error .bug

def calcEssenceEvaluate : Essence (BitVec w) → Except EvaluationFault (BitVec w)
  | .value value => evaluateFields data { type := essenceTypeValue, value := .ok value }
  | .var index => evaluateFields data { type := essenceTypeVariable, index := .ok index }
  | .weakVar index => evaluateFields data { type := essenceTypeWeakVariable, index := .ok index }
  | .unary type op =>
    evaluateFields data { type := type.essenceType, op := calcEssenceEvaluate op }
  | .binary type op1 op2 =>
    evaluateFields data
      { type := type.essenceType
        op1 := calcEssenceEvaluate op1
        op2 := calcEssenceEvaluate op2 }
  | .cond op1 op2 op3 =>
    evaluateFields data
      { type := essenceTypeCond
        op1 := calcEssenceEvaluate op1
        op2 := calcEssenceEvaluate op2
        op3 := calcEssenceEvaluate op3 }

def UnaryType.apply : UnaryType → BitVec w → BitVec w
  | .unaryPlus, x => x
  | .unaryMinus, x => -x
  | .binaryNot, x => ~~~x
  | .logicalNot, x => truth (x == 0)

/-- Whether the second operand is needed after the first. -/
def BinaryType.needsSecond : BinaryType → BitVec w → Bool
  | .logicalAnd, x => x != 0
  | .logicalOr, x => x == 0
  | _, _ => true

/-- The value for two operands that are both needed. -/
def BinaryType.apply : BinaryType → BitVec w → BitVec w → BitVec w
  | .multiply, x, y => x * y
  | .divide, x, y => x.sdiv y
  | .rest, x, y => x.srem y
  | .plus, x, y => x + y
  | .minus, x, y => x - y
  | .leftShift, x, y => x <<< y.toNat
  | .rightShift, x, y => x.sshiftRight y.toNat
  | .less, x, y => truth (x.slt y)
  | .greater, x, y => truth (y.slt x)
  | .lessEqual, x, y => truth (x.sle y)
  | .greaterEqual, x, y => truth (y.sle x)
  | .equal, x, y => truth (x == y)
  | .inequal, x, y => truth (x != y)
  | .binaryAnd, x, y => x &&& y
  | .binaryXor, x, y => x ^^^ y
  | .binaryOr, x, y => x ||| y
  | .logicalAnd, _, y => truth (y != 0)
  | .logicalOr, _, y => truth (y != 0)

/-- Operands for which an operation is not defined. -/
def BinaryType.fault : BinaryType → BitVec w → BitVec w → Option EvaluationFault
  | .divide, x, y | .rest, x, y => divisionFault x y
  | .leftShift, _, y | .rightShift, _, y => shiftFault y
  | _, _, _ => none

inductive Evaluates : Essence (BitVec w) → BitVec w → Prop where
  | value (value : BitVec w) : Evaluates (.value value) value
  | var (index : Nat) : Evaluates (.var index) (data.varValues index)
  | weakVar (index : Nat) : Evaluates (.weakVar index) (data.weakVars index)
  | unary {type : UnaryType} {op : Essence (BitVec w)} {x : BitVec w} :
      Evaluates op x → Evaluates (.unary type op) (type.apply x)
  | binary {type : BinaryType} {op1 op2 : Essence (BitVec w)} {x y : BitVec w} :
      Evaluates op1 x → type.needsSecond x → Evaluates op2 y → type.fault x y = none →
        Evaluates (.binary type op1 op2) (type.apply x y)
  | short {type : BinaryType} {op1 : Essence (BitVec w)} (op2 : Essence (BitVec w))
      {x : BitVec w} :
      Evaluates op1 x → type.needsSecond x = false →
        Evaluates (.binary type op1 op2) (truth (x != 0))
  | condTrue {op1 op2 : Essence (BitVec w)} (op3 : Essence (BitVec w)) {x y : BitVec w} :
      Evaluates op1 x → x ≠ 0 → Evaluates op2 y → Evaluates (.cond op1 op2 op3) y
  | condFalse {op1 op3 : Essence (BitVec w)} (op2 : Essence (BitVec w)) {y : BitVec w} :
      Evaluates op1 0 → Evaluates op3 y → Evaluates (.cond op1 op2 op3) y

/-- The evaluation of an expression comes to an operation with two values. -/
inductive ComesTo (type : BinaryType) (x y : BitVec w) : Essence (BitVec w) → Prop where
  | here {op1 op2 : Essence (BitVec w)} :
      Evaluates data op1 x → type.needsSecond x → Evaluates data op2 y →
        ComesTo type x y (.binary type op1 op2)
  | unary (outer : UnaryType) {op : Essence (BitVec w)} :
      ComesTo type x y op → ComesTo type x y (.unary outer op)
  | first (outer : BinaryType) {op1 : Essence (BitVec w)} (op2 : Essence (BitVec w)) :
      ComesTo type x y op1 → ComesTo type x y (.binary outer op1 op2)
  | second {outer : BinaryType} {op1 op2 : Essence (BitVec w)} {v : BitVec w} :
      Evaluates data op1 v → outer.needsSecond v → ComesTo type x y op2 →
        ComesTo type x y (.binary outer op1 op2)
  | condition {op1 : Essence (BitVec w)} (op2 op3 : Essence (BitVec w)) :
      ComesTo type x y op1 → ComesTo type x y (.cond op1 op2 op3)
  | condTrue {op1 op2 : Essence (BitVec w)} (op3 : Essence (BitVec w)) {v : BitVec w} :
      Evaluates data op1 v → v ≠ 0 → ComesTo type x y op2 →
        ComesTo type x y (.cond op1 op2 op3)
  | condFalse {op1 op3 : Essence (BitVec w)} (op2 : Essence (BitVec w)) :
      Evaluates data op1 0 → ComesTo type x y op3 → ComesTo type x y (.cond op1 op2 op3)

@[simp] theorem calcEssenceEvaluate_value (value : BitVec w) :
    calcEssenceEvaluate data (.value value) = .ok value :=
  rfl

@[simp] theorem calcEssenceEvaluate_var (index : Nat) :
    calcEssenceEvaluate data (.var index) = .ok (data.varValues index) :=
  rfl

@[simp] theorem calcEssenceEvaluate_weakVar (index : Nat) :
    calcEssenceEvaluate data (.weakVar index) = .ok (data.weakVars index) :=
  rfl

theorem calcEssenceEvaluate_unary (type : UnaryType) (op : Essence (BitVec w)) :
    calcEssenceEvaluate data (.unary type op) =
      (calcEssenceEvaluate data op).map type.apply := by
  cases type <;> cases hop : calcEssenceEvaluate data op <;>
    simp [calcEssenceEvaluate, evaluateFields, UnaryType.essenceType, hop] <;> rfl

theorem calcEssenceEvaluate_binary (type : BinaryType) (op1 op2 : Essence (BitVec w)) :
    calcEssenceEvaluate data (.binary type op1 op2) =
      (calcEssenceEvaluate data op1).bind fun x =>
        if type.needsSecond x then
          (calcEssenceEvaluate data op2).bind fun y =>
            orFault (type.apply x y) (type.fault x y)
        else .ok (truth (x != 0)) := by
  cases hop1 : calcEssenceEvaluate data op1 with
  | error fault =>
    cases type <;>
      simp [calcEssenceEvaluate, evaluateFields, BinaryType.essenceType, hop1] <;> rfl
  | ok x =>
    cases type with
    | logicalAnd =>
      simp only [calcEssenceEvaluate, evaluateFields, BinaryType.essenceType, hop1, bind,
        pure, Except.bind, Except.pure, BinaryType.needsSecond]
      by_cases hx : x = 0#w
      · simp [hx, truth]
      · cases hop2 : calcEssenceEvaluate data op2 with
        | error fault => simp [hx]
        | ok y =>
          simp [hx]
          rfl
    | logicalOr =>
      simp only [calcEssenceEvaluate, evaluateFields, BinaryType.essenceType, hop1, bind,
        pure, Except.bind, Except.pure, BinaryType.needsSecond]
      by_cases hx : x = 0#w
      · cases hop2 : calcEssenceEvaluate data op2 with
        | error fault => simp [hx]
        | ok y =>
          simp [hx]
          rfl
      · simp [hx, truth]
    | _ =>
      cases hop2 : calcEssenceEvaluate data op2 <;>
        simp [calcEssenceEvaluate, evaluateFields, BinaryType.essenceType, hop1, hop2] <;> rfl

@[simp] theorem calcEssenceEvaluate_cond (op1 op2 op3 : Essence (BitVec w)) :
    calcEssenceEvaluate data (.cond op1 op2 op3) =
      (calcEssenceEvaluate data op1).bind fun x =>
        if x ≠ 0 then calcEssenceEvaluate data op2 else calcEssenceEvaluate data op3 :=
  rfl

variable {v : BitVec w} {essence : Essence (BitVec w)} {fault : EvaluationFault}

@[simp] theorem orFault_eq_ok_iff {value : BitVec w} {fault : Option EvaluationFault} :
    orFault value fault = .ok v ↔ fault = none ∧ value = v := by
  cases fault <;> simp [orFault]

@[simp] theorem orFault_eq_error_iff {value : BitVec w} {fault : Option EvaluationFault}
    {f : EvaluationFault} : orFault value fault = .error f ↔ fault = some f := by
  cases fault <;> simp [orFault]

theorem evaluates_of_calcEssenceEvaluate (h : calcEssenceEvaluate data essence = .ok v) :
    Evaluates data essence v := by
  induction essence generalizing v with
  | value value =>
    cases h
    exact .value value
  | var index =>
    cases h
    exact .var index
  | weakVar index =>
    cases h
    exact .weakVar index
  | unary type op ih =>
    rw [calcEssenceEvaluate_unary] at h
    cases hop : calcEssenceEvaluate data op with
    | error fault => simp [hop, Except.map] at h
    | ok x =>
      rw [hop] at h
      cases h
      exact .unary (ih hop)
  | binary type op1 op2 ih1 ih2 =>
    rw [calcEssenceEvaluate_binary] at h
    cases hop1 : calcEssenceEvaluate data op1 with
    | error fault => simp [hop1, Except.bind] at h
    | ok x =>
      cases hneeds : type.needsSecond x with
      | false =>
        simp only [hop1, Except.bind, hneeds] at h
        cases h
        exact .short op2 (ih1 hop1) hneeds
      | true =>
        cases hop2 : calcEssenceEvaluate data op2 with
        | error fault => simp [hop1, Except.bind, hneeds, hop2] at h
        | ok y =>
          simp only [hop1, Except.bind, hneeds, hop2, if_true, orFault_eq_ok_iff] at h
          obtain ⟨hfault, rfl⟩ := h
          exact .binary (ih1 hop1) hneeds (ih2 hop2) hfault
  | cond op1 op2 op3 ih1 ih2 ih3 =>
    rw [calcEssenceEvaluate_cond] at h
    cases hop1 : calcEssenceEvaluate data op1 with
    | error fault => simp [hop1, Except.bind] at h
    | ok x =>
      simp only [hop1, Except.bind] at h
      by_cases hx : x = 0
      · subst hx
        rw [if_neg (not_not.mpr rfl)] at h
        exact .condFalse op2 (ih1 hop1) (ih3 h)
      · rw [if_pos hx] at h
        exact .condTrue op3 (ih1 hop1) hx (ih2 h)

/-- A fault in the evaluation is the fault of an operation that it comes to. -/
theorem comesTo_of_calcEssenceEvaluate (h : calcEssenceEvaluate data essence = .error fault) :
    ∃ type x y, ComesTo data type x y essence ∧ type.fault x y = some fault := by
  induction essence generalizing fault with
  | value value => cases h
  | var index => cases h
  | weakVar index => cases h
  | unary type op ih =>
    rw [calcEssenceEvaluate_unary] at h
    cases hop : calcEssenceEvaluate data op with
    | ok x => simp [hop, Except.map] at h
    | error fault' =>
      rw [hop] at h
      cases h
      obtain ⟨inner, x, y, hcomes, hfault⟩ := ih hop
      exact ⟨inner, x, y, .unary type hcomes, hfault⟩
  | binary type op1 op2 ih1 ih2 =>
    rw [calcEssenceEvaluate_binary] at h
    cases hop1 : calcEssenceEvaluate data op1 with
    | error fault' =>
      rw [hop1] at h
      cases h
      obtain ⟨inner, x, y, hcomes, hfault⟩ := ih1 hop1
      exact ⟨inner, x, y, .first type op2 hcomes, hfault⟩
    | ok x =>
      have hx := evaluates_of_calcEssenceEvaluate data hop1
      cases hneeds : type.needsSecond x with
      | false => simp [hop1, Except.bind, hneeds] at h
      | true =>
        cases hop2 : calcEssenceEvaluate data op2 with
        | error fault' =>
          simp only [hop1, Except.bind, hneeds, hop2, if_true] at h
          cases h
          obtain ⟨inner, x', y', hcomes, hfault⟩ := ih2 hop2
          exact ⟨inner, x', y', .second hx hneeds hcomes, hfault⟩
        | ok y =>
          simp only [hop1, Except.bind, hneeds, hop2, if_true,
            orFault_eq_error_iff] at h
          exact ⟨type, x, y,
            .here hx hneeds (evaluates_of_calcEssenceEvaluate data hop2), h⟩
  | cond op1 op2 op3 ih1 ih2 ih3 =>
    rw [calcEssenceEvaluate_cond] at h
    cases hop1 : calcEssenceEvaluate data op1 with
    | error fault' =>
      rw [hop1] at h
      cases h
      obtain ⟨inner, x, y, hcomes, hfault⟩ := ih1 hop1
      exact ⟨inner, x, y, .condition op2 op3 hcomes, hfault⟩
    | ok v =>
      have hv := evaluates_of_calcEssenceEvaluate data hop1
      simp only [hop1, Except.bind] at h
      by_cases hzero : v = 0
      · subst hzero
        rw [if_neg (not_not.mpr rfl)] at h
        obtain ⟨inner, x, y, hcomes, hfault⟩ := ih3 h
        exact ⟨inner, x, y, .condFalse op2 hv hcomes, hfault⟩
      · rw [if_pos hzero] at h
        obtain ⟨inner, x, y, hcomes, hfault⟩ := ih2 h
        exact ⟨inner, x, y, .condTrue op3 hv hzero hcomes, hfault⟩

theorem Evaluates.calcEssenceEvaluate (h : Evaluates data essence v) :
    calcEssenceEvaluate data essence = .ok v := by
  induction h with
  | value value => rfl
  | var index => rfl
  | weakVar index => rfl
  | unary _ ih => rw [calcEssenceEvaluate_unary, ih, Except.map]
  | binary _ hneeds _ hfault ih1 ih2 =>
    rw [calcEssenceEvaluate_binary, ih1, Except.bind, if_pos hneeds, ih2, Except.bind, hfault,
      orFault]
  | short op2 _ hneeds ih =>
    rw [calcEssenceEvaluate_binary, ih, Except.bind, hneeds, if_neg Bool.false_ne_true]
  | condTrue op3 _ hx _ ih1 ih2 =>
    rw [calcEssenceEvaluate_cond, ih1, Except.bind, if_pos hx, ih2]
  | condFalse op2 _ _ ih1 ih3 =>
    rw [calcEssenceEvaluate_cond, ih1, Except.bind, if_neg (not_not.mpr rfl), ih3]

theorem ComesTo.calcEssenceEvaluate {type : BinaryType} {x y : BitVec w}
    (h : ComesTo data type x y essence) (hfault : type.fault x y = some fault) :
    calcEssenceEvaluate data essence = .error fault := by
  induction h with
  | here hop1 hneeds hop2 =>
    rw [calcEssenceEvaluate_binary, hop1.calcEssenceEvaluate, Except.bind, if_pos hneeds,
      hop2.calcEssenceEvaluate, Except.bind, hfault, orFault]
  | unary outer _ ih => rw [calcEssenceEvaluate_unary, ih, Except.map]
  | first outer op2 _ ih => rw [calcEssenceEvaluate_binary, ih, Except.bind]
  | second hop1 hneeds _ ih =>
    rw [calcEssenceEvaluate_binary, hop1.calcEssenceEvaluate, Except.bind, if_pos hneeds, ih,
      Except.bind]
  | condition op2 op3 _ ih => rw [calcEssenceEvaluate_cond, ih, Except.bind]
  | condTrue op3 hop1 hv _ ih =>
    rw [calcEssenceEvaluate_cond, hop1.calcEssenceEvaluate, Except.bind, if_pos hv, ih]
  | condFalse op2 hop1 _ ih =>
    rw [calcEssenceEvaluate_cond, hop1.calcEssenceEvaluate, Except.bind,
      if_neg (not_not.mpr rfl), ih]

theorem calcEssenceEvaluate_eq_error_iff :
    calcEssenceEvaluate data essence = .error fault ↔
      ∃ type x y, ComesTo data type x y essence ∧ type.fault x y = some fault :=
  ⟨comesTo_of_calcEssenceEvaluate data,
    fun ⟨_, _, _, hcomes, hfault⟩ => hcomes.calcEssenceEvaluate data hfault⟩

theorem BinaryType.fault_mem {type : BinaryType} {x y : BitVec w}
    (h : type.fault x y = some fault) :
    fault = .divideByZero ∨ fault = .divideOverflow ∨ fault = .shift := by
  cases type <;> simp only [BinaryType.fault, divisionFault, shiftFault] at h <;>
    grind

/-- What can go wrong for an expression: the evaluation comes to a division, a remainder or a shift
with operands for which it is not defined. -/
theorem calcEssenceEvaluate_faults (essence : Essence (BitVec w)) :
    calcEssenceEvaluate data essence ≠ .error .bug ∧
      ∀ fault, calcEssenceEvaluate data essence = .error fault ↔
        ∃ type x y, ComesTo data type x y essence ∧ type.fault x y = some fault := by
  refine ⟨fun hbug => ?_, fun fault => calcEssenceEvaluate_eq_error_iff data⟩
  obtain ⟨type, x, y, _, hfault⟩ := (calcEssenceEvaluate_eq_error_iff data).mp hbug
  rcases BinaryType.fault_mem hfault with h | h | h <;> cases h

/-- The case of expressions that the parser accepts. -/
theorem accepted_calcEssenceEvaluate {names : Names (BitVec w)} {alloc : Nat → Bool}
    {s : CString} {essence : Essence (BitVec w)}
    (_ : kedrCalcParse names alloc s = .ok (some essence)) :
    calcEssenceEvaluate data essence ≠ .error .bug ∧
      ∀ fault, calcEssenceEvaluate data essence = .error fault ↔
        ∃ type x y, ComesTo data type x y essence ∧ type.fault x y = some fault :=
  calcEssenceEvaluate_faults data essence

end Evaluation

def quotient : CString :=
  ⟨[byte '1', byte '/', byte '0'], by decide⟩

/-- The text `1/0` is accepted, and its evaluation comes to the division. -/
theorem accepted_calcEssenceEvaluate_quotient :
    calcEssenceEvaluate (w := 64) ⟨fun _ => 0, fun _ => 0⟩
        (.binary .divide (.value 1) (.value 0)) ≠ .error .bug ∧
      ∀ fault, calcEssenceEvaluate (w := 64) ⟨fun _ => 0, fun _ => 0⟩
          (.binary .divide (.value 1) (.value 0)) = .error fault ↔
        ∃ type, ∃ x y : BitVec 64, ComesTo ⟨fun _ => 0, fun _ => 0⟩ type x y
            (.binary .divide (.value 1) (.value 0)) ∧ type.fault x y = some fault :=
  accepted_calcEssenceEvaluate ⟨fun _ => 0, fun _ => 0⟩
    (by decide : kedrCalcParse (V := BitVec 64) ⟨[], [], []⟩ (fun _ => true) quotient =
      .ok (some (.binary .divide (.value 1) (.value 0))))

/-- It is accepted, and its evaluation divides by zero. -/
theorem accepted_divides_by_zero :
    kedrCalcParse (V := BitVec 64) ⟨[], [], []⟩ (fun _ => true) quotient =
      .ok (some (.binary .divide (.value 1) (.value 0))) ∧
    calcEssenceEvaluate (w := 64) ⟨fun _ => 0, fun _ => 0⟩
      (.binary .divide (.value 1) (.value 0)) = .error .divideByZero :=
  ⟨by decide, by decide⟩

end Calculator
end KedrAux
