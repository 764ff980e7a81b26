import KedrAux.Calculator.TokenSequence

/-!
# The grammar of expressions

The stratified grammar of C expressions over the tokens of the calculator, with a level for
each group of operations, and a scan of the tokens that only follows parentheses and
conditions.

The parser takes any delimiter after the second operand of a condition for ':'.  The scan
does the same, and it tells when this happens.
-/

namespace KedrAux
namespace Calculator

variable {V : Type}

def Token.leaf : Token V → Option (Essence V)
  | .value v => some (.value v)
  | .constant v => some (.value v)
  | .var i => some (.var i)
  | .weakVar i => some (.weakVar i)
  | _ => none

/-- The type of an operation that has no left operand. -/
def Token.unaryType : Token V → Option UnaryType
  | .operation .minus => some .unaryMinus
  | .operation .plus => some .unaryPlus
  | .logicalNot => some .logicalNot
  | .binaryNot => some .binaryNot
  | _ => none

/-- The level of an operation with two operands; conditions have the level 0. -/
def BinaryType.level : BinaryType → Nat
  | .logicalOr => 1
  | .logicalAnd => 2
  | .binaryOr => 3
  | .binaryXor => 4
  | .binaryAnd => 5
  | .equal | .inequal => 6
  | .less | .greater | .lessEqual | .greaterEqual => 7
  | .leftShift | .rightShift => 8
  | .plus | .minus => 9
  | .multiply | .divide | .rest => 10

def unaryLevel : Nat := 11

/-- The level of operands and of expressions in parentheses. -/
def primaryLevel : Nat := 12

def levelOf (priority : Nat) : Nat :=
  if priority ≤ priorityCondLeft then 0 else min (priority / 2) unaryLevel

theorem BinaryType.priorityLeft_eq (type : BinaryType) :
    type.priorityLeft = 2 * type.level + 1 := by
  cases type <;> rfl

theorem BinaryType.priorityRight_eq (type : BinaryType) :
    type.priorityRight = 2 * type.level + 2 := by
  cases type <;> rfl

theorem BinaryType.level_pos (type : BinaryType) : 1 ≤ type.level := by
  cases type <;> decide

theorem BinaryType.level_lt (type : BinaryType) : type.level < unaryLevel := by
  cases type <;> decide

theorem levelOf_priorityRight (type : BinaryType) :
    levelOf type.priorityRight = type.level + 1 := by
  cases type <;> decide

theorem levelOf_priority (type : UnaryType) : levelOf type.priority = unaryLevel := by
  cases type <;> decide

theorem levelOf_le_level {priority : Nat} {type : BinaryType} (h : ¬ priority > type.priorityLeft) :
    levelOf priority ≤ type.level := by
  rw [type.priorityLeft_eq] at h
  rw [levelOf]
  split_ifs
  · exact Nat.zero_le _
  · exact le_trans (Nat.min_le_left _ _) (by omega)

theorem levelOf_le (priority : Nat) : levelOf priority ≤ unaryLevel := by
  rw [levelOf]
  split_ifs
  · exact Nat.zero_le _
  · exact Nat.min_le_right _ _

inductive Derives : Nat → List (Token V) → Essence V → Prop
  | leaf {token : Token V} {e : Essence V} (h : token.leaf = some e) :
      Derives primaryLevel [token] e
  | parentheses {tokens : List (Token V)} {e : Essence V} (h : Derives 0 tokens e) :
      Derives primaryLevel (.openParenthesis :: (tokens ++ [.closeParenthesis])) e
  | unary {token : Token V} {type : UnaryType} {tokens : List (Token V)} {e : Essence V}
      (htype : token.unaryType = some type) (h : Derives unaryLevel tokens e) :
      Derives unaryLevel (token :: tokens) (.unary type e)
  | binary (type : BinaryType) {left right : List (Token V)} {op1 op2 : Essence V}
      (hleft : Derives type.level left op1) (hright : Derives (type.level + 1) right op2) :
      Derives type.level (left ++ .operation type :: right) (.binary type op1 op2)
  | cond {first second third : List (Token V)} {op1 op2 op3 : Essence V}
      (hfirst : Derives 1 first op1) (hsecond : Derives 0 second op2)
      (hthird : Derives 0 third op3) :
      Derives 0 (first ++ .condFirst :: (second ++ .condSecond :: third)) (.cond op1 op2 op3)
  | up {level : Nat} {tokens : List (Token V)} {e : Essence V}
      (h : Derives (level + 1) tokens e) : Derives level tokens e

theorem Derives.mono
    {level level' : Nat} {tokens : List (Token V)} {e : Essence V} (h : Derives level tokens e)
    (hle : level' ≤ level) :
    Derives level' tokens e := by
  induction hle using Nat.decreasingInduction with
  | self => exact h
  | of_succ _ _ ih => exact ih.up

/-- An open parenthesis, or a condition before its third operand. -/
inductive Delimiter where
  | parenthesis
  | cond
deriving DecidableEq

inductive Position where
  | operand
  | operation
deriving DecidableEq

inductive Outcome where
  /-- The tokens are not an expression. -/
  | rejects
  /-- All tokens are taken; `mixed` is whether ')' was taken for ':'. -/
  | accepts (mixed : Bool)
  /-- The tokens end before the ':' of a condition. -/
  | runsOff
deriving DecidableEq

/-- The tokens are followed from left to right, with what is open. -/
def scan : Position → List Delimiter → Bool → List (Token V) → Outcome
  | _, _, _, [] => .rejects
  | .operand, delimiters, mixed, token :: tokens =>
    match token with
    | .value _ | .constant _ | .var _ | .weakVar _ =>
      scan .operation delimiters mixed tokens
    | .openParenthesis => scan .operand (.parenthesis :: delimiters) mixed tokens
    | .operation .minus | .operation .plus | .logicalNot | .binaryNot =>
      scan .operand delimiters mixed tokens
    | _ => .rejects
  | .operation, delimiters, mixed, token :: tokens =>
    match token, delimiters with
    | .operation _, delimiters => scan .operand delimiters mixed tokens
    | .condFirst, delimiters => scan .operand (.cond :: delimiters) mixed tokens
    | .closeParenthesis, .parenthesis :: delimiters => scan .operation delimiters mixed tokens
    | .closeParenthesis, .cond :: delimiters => scan .operand delimiters true tokens
    | .condSecond, .cond :: delimiters => scan .operand delimiters mixed tokens
    | .eof, [] => .accepts mixed
    | .eof, .cond :: _ => .runsOff
    | _, _ => .rejects

section Scan

variable {token : Token V} (delimiters : List Delimiter) (mixed : Bool) (tokens : List (Token V))

theorem scan_leaf {e : Essence V} (h : token.leaf = some e) :
    scan .operand delimiters mixed (token :: tokens) =
      scan .operation delimiters mixed tokens := by
  cases token with
  | value => rw [scan]
  | constant => rw [scan]
  | var => rw [scan]
  | weakVar => rw [scan]
  | _ => cases h

theorem scan_unary {type : UnaryType} (h : token.unaryType = some type) :
    scan .operand delimiters mixed (token :: tokens) =
      scan .operand delimiters mixed tokens := by
  cases token with
  | operation type =>
    cases type with
    | plus => rw [scan]
    | minus => rw [scan]
    | _ => cases h
  | logicalNot => rw [scan]
  | binaryNot => rw [scan]
  | _ => cases h

theorem scan_other (hleaf : token.leaf = none) (hunary : token.unaryType = none)
    (hopen : token ≠ .openParenthesis) :
    scan .operand delimiters mixed (token :: tokens) = .rejects := by
  cases token with
  | operation type =>
    cases type with
    | plus => cases hunary
    | minus => cases hunary
    | _ => simp [scan]
  | openParenthesis => exact absurd rfl hopen
  | value => cases hleaf
  | constant => cases hleaf
  | var => cases hleaf
  | weakVar => cases hleaf
  | logicalNot => cases hunary
  | binaryNot => cases hunary
  | _ => simp [scan]

end Scan

theorem Derives.scan
    {level : Nat} {tokens : List (Token V)} {e : Essence V} (h : Derives level tokens e)
    (delimiters : List Delimiter) (mixed : Bool) (rest : List (Token V)) :
    scan .operand delimiters mixed (tokens ++ rest) =
      scan .operation delimiters mixed rest := by
  induction h generalizing delimiters rest with
  | leaf h => exact scan_leaf delimiters mixed rest h
  | parentheses h ih =>
    rw [List.cons_append, List.append_assoc, Calculator.scan, ih, List.singleton_append,
      Calculator.scan]
  | unary htype h ih =>
    rw [List.cons_append, scan_unary _ _ _ htype, ih]
  | binary type hleft hright ihl ihr =>
    rw [List.append_assoc, ihl, List.cons_append, Calculator.scan, ihr]
  | cond hfirst hsecond hthird ih1 ih2 ih3 =>
    rw [List.append_assoc, ih1, List.cons_append, Calculator.scan, List.append_assoc, ih2,
      List.cons_append, Calculator.scan, ih3]
  | up h ih => exact ih delimiters rest

end Calculator
end KedrAux
