import ExprScript.Proofs.Evaluation.Plan
import Mathlib.Algebra.Ring.Int.Defs

/-!
# Arithmetic that wraps around

An arithmetic expression is made of integer literals with `-` in front and `+`, `-`, `*`
and `/` between.  Evaluation wraps the result of every operation around at 64 bits.
Addition, subtraction, multiplication and negation do not notice: wrapping an operand
changes the result by a multiple of 2⁶⁴.  Division does.  So the exact value of an
arithmetic expression (`Expr.exactValue?`) is computed over all integers, except that a
division wraps its operands first.

* `InfixOp.apply_ofInt`, `PrefixOp.apply_ofInt`: what is wrapped after one operation, with
  the operands wrapped, is the exact result.
* `arithmetic_is_exact_reduced_last`: an arithmetic expression gives its exact value,
  wrapped once.
-/

namespace ExprScript

/-- The integer in the signed 64-bit range that differs from `k` by a multiple of 2⁶⁴. -/
def wrapped (k : Int) : Int :=
  k.bmod Int64.size

theorem wrapped_spec (k : Int) :
    -2 ^ 63 ≤ wrapped k ∧ wrapped k < 2 ^ 63 ∧ wrapped k % 2 ^ 64 = k % 2 ^ 64 :=
  ⟨Int.le_bmod (by decide), Int.bmod_lt (by decide), Int.bmod_emod⟩

theorem toInt_ofInt (k : Int) : (Int64.ofInt k).toInt = wrapped k :=
  Int64.toInt_ofInt

inductive InfixOp.Arithmetic : InfixOp → Prop where
  | add : Arithmetic .add
  | sub : Arithmetic .sub
  | mul : Arithmetic .mul
  | div : Arithmetic .div

/-- Integer literals under arithmetic operators. -/
inductive Expr.Arithmetic : Expr → Prop where
  | integer (n : Int64) (line : Nat) : Arithmetic (.integer n line)
  | negate {operand : Expr} (line : Nat) :
      Arithmetic operand → Arithmetic (.prefixed .negate operand line)
  | infixed {left right : Expr} {op : InfixOp} (line : Nat) :
      Arithmetic left → op.Arithmetic → Arithmetic right → Arithmetic (.infixed left op right line)

/-- The exact result of an arithmetic operator.  A quotient is that of the wrapped
operands, cut off towards zero. -/
def InfixOp.exactValue? : InfixOp → Int → Int → Option Int
  | .add, a, b => some (a + b)
  | .sub, a, b => some (a - b)
  | .mul, a, b => some (a * b)
  | .div, a, b => if wrapped b = 0 then none else some ((wrapped a).tdiv (wrapped b))
  | _, _, _ => none

/-- The exact value of an arithmetic expression, unless it has a quotient that is not
defined. -/
def Expr.exactValue? : Expr → Option Int
  | .integer n _ => some n.toInt
  | .prefixed .negate operand _ => do
    let a ← operand.exactValue?
    return -a
  | .infixed left op right _ => do
    let a ← left.exactValue?
    let b ← right.exactValue?
    op.exactValue? a b
  | _ => none

/-- What evaluation makes of an exact value. -/
def Value.ofExact : Option Int → Value
  | some k => .integer (.ofInt k)
  | none => RuntimeError.divisionByZero.toValue

theorem ofInt_eq_zero_iff (b : Int) : Int64.ofInt b = 0 ↔ wrapped b = 0 := by
  rw [← Int64.toInt_inj, toInt_ofInt, Int64.toInt_zero]

/-- Of the operators only division notices that its operands are wrapped. -/
theorem InfixOp.apply_ofInt {op : InfixOp} (ho : op.Arithmetic) (a b : Int) :
    op.apply (.integer (.ofInt a)) (.integer (.ofInt b)) = .ofExact (op.exactValue? a b) := by
  cases ho with
  | add => simp only [apply, applyIntegers, exactValue?, Value.ofExact, Int64.ofInt_add]
  | sub => simp only [apply, applyIntegers, exactValue?, Value.ofExact, Int64.ofInt_sub]
  | mul => simp only [apply, applyIntegers, exactValue?, Value.ofExact, Int64.ofInt_mul]
  | div =>
    simp only [apply, applyIntegers, exactValue?, ofInt_eq_zero_iff]
    split
    · rfl
    · -- the quotient of the extremes is wrapped once more, as is every other
      have hq : Int64.ofInt a / .ofInt b = .ofInt ((wrapped a).tdiv (wrapped b)) := by
        rw [← Int64.toInt_inj, Int64.toInt_div, toInt_ofInt, toInt_ofInt, toInt_ofInt]
        rfl
      rw [hq, Value.ofExact]

theorem PrefixOp.apply_ofInt (a : Int) :
    PrefixOp.negate.apply (.integer (.ofInt a)) = .ofExact (some (-a)) := by
  rw [apply, Value.ofExact, Int64.ofInt_neg]

/-- An arithmetic expression has its value in every context, and finding it changes
nothing. -/
theorem Expr.Arithmetic.run_eq {e : Expr} (ha : e.Arithmetic) (limit : Nat) (c : Context)
    (h : Heap) : ((Task.expr e).run limit c).run h = (.ofExact e.exactValue?, h) := by
  induction ha with
  | integer n line =>
    rw [exactValue?, Value.ofExact, Int64.ofInt_toInt]
    rfl
  | @negate operand line _ ih =>
    rw [Task.run_eq, Task.plan, Task.follow, ih, exactValue?]
    cases operand.exactValue? with
    | none => rfl
    | some a => exact congrArg (·, h) (PrefixOp.apply_ofInt a)
  | @infixed left right op line _ ho _ ihl ihr =>
    rw [Task.run_eq, Task.plan, Task.follow, ihl, exactValue?]
    cases left.exactValue? with
    | none => rfl
    | some a =>
      show ((Task.rightOperand (.integer (.ofInt a)) op right).run limit c).run h = _
      rw [Task.run_eq, Task.plan, Task.follow, ihr]
      cases right.exactValue? with
      | none => rfl
      | some b => exact congrArg (·, h) (InfixOp.apply_ofInt ho a b)

/-- **Arithmetic is exact arithmetic, wrapped at the end.**  In every context an arithmetic
expression gives the integer that its exact value wraps to, or the error of a division by
zero if it has a quotient that is not defined.  It changes nothing. -/
theorem arithmetic_is_exact_reduced_last (limit : Nat) (c : Context) (h : Heap) {e : Expr}
    (he : e.Arithmetic) :
    (∀ k, e.exactValue? = some k → ∃ n : Int64, n.toInt = wrapped k ∧
      (c.evalExpressionWithin limit e).run h = (.integer n, h)) ∧
    (e.exactValue? = none →
      (c.evalExpressionWithin limit e).run h = (.error "division by zero", h)) := by
  have hrun := he.run_eq limit c h
  refine ⟨fun k hk => ⟨.ofInt k, toInt_ofInt k, ?_⟩, fun hn => ?_⟩
  · rw [hk] at hrun
    exact hrun
  · rw [hn] at hrun
    exact hrun

/-- The least integer divided by -1 is itself, and a product that wraps around to zero is no
divisor. -/
theorem arithmetic_at_the_extremes :
    ((Context.ofEnv ⟨0⟩).evalExpressionWithin maxCallDepth
        (.infixed (.integer (-9223372036854775808) 1) .div
          (.prefixed .negate (.integer 1 1) 1) 1)).run .empty =
      (.integer (-9223372036854775808), .empty) ∧
    ((Context.ofEnv ⟨0⟩).evalExpressionWithin maxCallDepth
        (.infixed (.integer 1 1) .div
          (.infixed (.integer 4294967296 1) .mul (.integer 4294967296 1) 1) 1)).run .empty =
      (.error "division by zero", .empty) := by
  refine ⟨?_, ?_⟩
  · have he : (Expr.infixed (.integer (-9223372036854775808) 1) .div
        (.prefixed .negate (.integer 1 1) 1) 1).Arithmetic :=
      .infixed 1 (.integer _ 1) .div (.negate 1 (.integer _ 1))
    obtain ⟨n, hn, hrun⟩ := (arithmetic_is_exact_reduced_last maxCallDepth (.ofEnv ⟨0⟩) .empty
      he).1 9223372036854775808 (by decide +kernel)
    have hleast : n = -9223372036854775808 := Int64.toInt_inj.mp (hn.trans (by decide +kernel))
    rw [hrun, hleast]
  · exact (arithmetic_is_exact_reduced_last maxCallDepth (.ofEnv ⟨0⟩) .empty
      (.infixed 1 (.integer _ 1) .div (.infixed 1 (.integer _ 1) .mul (.integer _ 1)))).2
      (by decide +kernel)

end ExprScript
