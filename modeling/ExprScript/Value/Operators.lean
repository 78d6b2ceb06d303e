import ExprScript.RuntimeError

/-!
# Operators on values

Integers are added, subtracted, multiplied, divided and compared; truth values
are compared for equality; nothing else is an operand of an infix operator.
Arithmetic wraps around at 64 bits, and division cuts off towards zero.
Negation is for integers, and every value can be used as a truth value by `!`.
-/

namespace ExprScript

def PrefixOp.apply : PrefixOp → Value → Value
  | .not, v => .boolean !v.isTruthy
  | .negate, .integer n => .integer (-n)
  | .negate, v => (RuntimeError.unknownPrefixOperator .negate v.kind).toValue

def InfixOp.applyIntegers : InfixOp → Int64 → Int64 → Value
  | .add, m, n => .integer (m + n)
  | .sub, m, n => .integer (m - n)
  | .mul, m, n => .integer (m * n)
  | .div, m, n => if n = 0 then RuntimeError.divisionByZero.toValue else .integer (m / n)
  | .less, m, n => .boolean (decide (m < n))
  | .greater, m, n => .boolean (decide (n < m))
  | .equal, m, n => .boolean (m == n)
  | .notEqual, m, n => .boolean (m != n)

def InfixOp.applyBooleans : InfixOp → Bool → Bool → Value
  | .equal, a, b => .boolean (a == b)
  | .notEqual, a, b => .boolean (a != b)
  | op, _, _ => (RuntimeError.unknownInfixOperator .boolean op .boolean).toValue

/-- Applies an infix operator.  Operands of two kinds never go together. -/
def InfixOp.apply (op : InfixOp) : Value → Value → Value
  | .integer m, .integer n => op.applyIntegers m n
  | .boolean a, .boolean b => op.applyBooleans a b
  | left, right =>
    if left.kind = right.kind then
      (RuntimeError.unknownInfixOperator left.kind op right.kind).toValue
    else
      (RuntimeError.typeMismatch left.kind op right.kind).toValue

/-! ### What operators give -/

def Value.IsResult (v : Value) : Prop :=
  (∃ n, v = .integer n) ∨ (∃ b, v = .boolean b) ∨ ∃ e : RuntimeError, v = e.toValue

theorem PrefixOp.isResult_apply (op : PrefixOp) (v : Value) : (op.apply v).IsResult := by
  cases op with
  | not => exact Or.inr (Or.inl ⟨_, rfl⟩)
  | negate =>
    cases v with
    | integer n => exact Or.inl ⟨_, rfl⟩
    | _ => exact Or.inr (Or.inr ⟨_, rfl⟩)

theorem InfixOp.isResult_applyIntegers (op : InfixOp) (m n : Int64) :
    (op.applyIntegers m n).IsResult := by
  cases op with
  | add | sub | mul => exact Or.inl ⟨_, rfl⟩
  | div =>
    rw [applyIntegers]
    split
    · exact Or.inr (Or.inr ⟨_, rfl⟩)
    · exact Or.inl ⟨_, rfl⟩
  | less | greater | equal | notEqual => exact Or.inr (Or.inl ⟨_, rfl⟩)

theorem InfixOp.isResult_applyBooleans (op : InfixOp) (a b : Bool) :
    (op.applyBooleans a b).IsResult := by
  cases op with
  | equal | notEqual => exact Or.inr (Or.inl ⟨_, rfl⟩)
  | _ => exact Or.inr (Or.inr ⟨_, rfl⟩)

theorem InfixOp.isResult_apply (op : InfixOp) (v w : Value) : (op.apply v w).IsResult := by
  unfold apply
  split
  · exact op.isResult_applyIntegers _ _
  · exact op.isResult_applyBooleans _ _
  · split
    · exact Or.inr (Or.inr ⟨_, rfl⟩)
    · exact Or.inr (Or.inr ⟨_, rfl⟩)

end ExprScript
