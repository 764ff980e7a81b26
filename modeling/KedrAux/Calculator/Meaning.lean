import KedrAux.Calculator.Evaluation
import KedrAux.Calculator.Rendering

/-!
# Meaning of expressions

The value that an expression has in C, and the value that the calculator computes for its text.
-/

namespace KedrAux
namespace Calculator

variable {w : Nat} {names : Names (BitVec w)} (data : EvaluateData w)

/-- The value of an expression, or the first operation in the order of the evaluation that is not
defined for its operands. -/
def Expression.meaning : Expression names → Except EvaluationFault (BitVec w)
  | .leaf l =>
    match l.token with
    | .value value | .constant value => .ok value
    | .var index => .ok (data.varValues index)
    | .weakVar index => .ok (data.weakVars index)
    | _ => .error .wrongStruct
  | .parentheses e => e.meaning
  | .unary type op => do return type.apply (← op.meaning)
  | .binary type op1 op2 => do
      let x ← op1.meaning
      if type.needsSecond x then
        let y ← op2.meaning
        orFault (type.apply x y) (type.fault x y)
      else return truth (x != 0)
  | .cond op1 op2 op3 => do if (← op1.meaning) ≠ 0 then op2.meaning else op3.meaning

theorem Expression.calcEssenceEvaluate_tree (e : Expression names) :
    calcEssenceEvaluate data e.tree = e.meaning data := by
  induction e with
  | leaf l =>
    obtain ⟨_, token, _, _, hleaf⟩ := l
    cases token <;> cases hleaf <;> rfl
  | parentheses e ih => exact ih
  | unary type op ih =>
    rw [tree, calcEssenceEvaluate_unary, ih, meaning]
    rfl
  | binary type op1 op2 ih1 ih2 =>
    rw [tree, calcEssenceEvaluate_binary, ih1, ih2, meaning]
    rfl
  | cond op1 op2 op3 ih1 ih2 ih3 =>
    rw [tree, calcEssenceEvaluate_cond, ih1, ih2, ih3, meaning]
    rfl

/-- The text of an expression is accepted, and what was made of it evaluates to the value of the
expression, for all values of the variables; an operation that is not defined is reached exactly
when the expression has no value. -/
theorem kedrCalc_meaning (e : Expression names) :
    ∃ tree, kedrCalcParse names (fun _ => true) e.text = .ok (some tree) ∧
      ∀ data : EvaluateData w, calcEssenceEvaluate data tree = e.meaning data :=
  ⟨e.tree, e.kedrCalcParse_text, fun data => e.calcEssenceEvaluate_tree data⟩

end Calculator
end KedrAux
