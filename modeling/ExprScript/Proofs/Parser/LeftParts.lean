import ExprScript.Proofs.Parser.Height
import ExprScript.Syntax.Text

/-!
# Tighter surroundings stop earlier

An expression is read with the operators that bind more tightly than its surroundings.  The
surroundings decide only where it ends.  What is read before that is read in the same way,
because a right operand is read in the surroundings of its operator and an argument in none,
so the levels taken and the errors recorded are the same too.  In tighter surroundings the
run is the same one stopped earlier: at a left operand or a callee of the longer expression,
or at one of that, and so on.

* `Parser.shortens_continueAt`: the loop over what continues an expression.
* `precedence_levels_nest`: whole expressions.
-/

namespace ExprScript

/-- The expressions that are reached from an expression by taking left operands and
callees, with their lines. -/
inductive Expr.LeftPartOf (e : Expr) : Expr → Prop where
  | refl : LeftPartOf e e
  | infixed {left : Expr} (op : InfixOp) (right : Expr) (line : Nat) :
      LeftPartOf e left → LeftPartOf e (.infixed left op right line)
  | call {callee : Expr} (arguments : List Expr) (line : Nat) :
      LeftPartOf e callee → LeftPartOf e (.call callee arguments line)

theorem Expr.LeftPartOf.trans {e e' e'' : Expr} (h : e.LeftPartOf e') (h' : e'.LeftPartOf e'') :
    e.LeftPartOf e'' := by
  induction h' with
  | refl => exact h
  | infixed op right line _ ih => exact .infixed op right line ih
  | call arguments line _ ih => exact .call arguments line ih

/-- If the second outcome gives an expression, then the first one is that of the same run
stopped earlier, in front of a token that binds no tighter than `p`. -/
def Outcome.Shortens (p : Precedence) (o' o : Outcome Expr) : Prop :=
  ∀ e, o.result = .ok e → ∃ e', o'.result = .ok e' ∧ e'.LeftPartOf e ∧
    o.next.rest <:+ o'.next.rest ∧ o'.recorded <+: o.recorded ∧ Ends p o'.next.rest

namespace Parser

variable {limit : Nat} {p q : Precedence}

/-- Tighter surroundings let nothing go on that the looser ones do not. -/
theorem continuation_of_le (hqp : q ≤ p) {next : Option Token} {form : ContinueForm}
    (h : continuation p next = some form) : continuation q next = some form := by
  obtain ⟨t, rfl, ht⟩ := Option.bind_eq_some_iff.mp h
  rw [Option.ite_none_right_eq_some] at ht
  have hq : q < t.precedence := Nat.lt_of_le_of_lt hqp ht.1
  rw [continuation, Option.bind_some, if_pos hq, ht.2]

theorem leftPart_continuedBy (e : Precedence → Parser Expr) (left : Expr) (form : ContinueForm) :
    (continuedBy e left form).Ensures left.LeftPartOf := by
  cases form with
  | infixed =>
    exact ensures_bind _ fun _ => ensures_bind _ fun right =>
      ensures_pure (.infixed _ right _ .refl)
  | call =>
    exact ensures_bind _ fun line => ensures_bind _ fun arguments =>
      ensures_pure (.call arguments line .refl)

/-- The loop builds its expression around the one that it starts with. -/
theorem leftPart_continueAt (limit n : Nat) (p : Precedence) (left : Expr) :
    (continueAt limit n p left).Ensures left.LeftPartOf := by
  induction n generalizing left with
  | zero =>
    refine ensures_bind _ fun next => ?_
    split
    · exact ensures_pure .refl
    · exact ensures_failAt _
  | succ n ih =>
    refine ensures_bind _ fun next => ?_
    split
    · exact ensures_pure .refl
    · next form _ =>
      refine (leftPart_continuedBy _ left form).bind fun longer hl => ?_
      exact fun c e he => hl.trans (ih longer c e he)

theorem run_continueAt_of_none {n : Nat} {left : Expr} {c : Cursor}
    (h : continuation p c.token? = none) :
    (continueAt limit n p left).run c = ⟨.ok left, [], c⟩ := by
  cases n with
  | zero => rw [continueAt, run_peek_bind, h, run_pure]
  | succ n => rw [continueAt, run_peek_bind, h, run_pure]

theorem shortens_followedBy {α : Type} (o : Outcome α) {f g : α → Parser Expr}
    (h : ∀ a, o.result = .ok a → ((f a).run o.next).Shortens p ((g a).run o.next)) :
    (followedBy o f).Shortens p (followedBy o g) := by
  intro e he
  cases ho : o.result with
  | error _ => simp [followedBy, ho] at he
  | ok a =>
    rw [followedBy_of_ok ho] at he ⊢
    rw [followedBy_of_ok ho]
    obtain ⟨e', he', hpart, hrest, hrecorded, hends⟩ := h a ho e he
    exact ⟨e', he', hpart, hrest, (List.prefix_append_right_inj _).mpr hrecorded, hends⟩

/-- Where the tighter surroundings end, what the looser ones make of it is longer. -/
theorem shortens_continueAt_of_none {c : Cursor} (hp : continuation p c.token? = none) (n : Nat)
    (left : Expr) :
    ((continueAt limit n p left).run c).Shortens p ((continueAt limit n q left).run c) := by
  intro e he
  have hpart : left.LeftPartOf e := leftPart_continueAt limit n q left c e he
  have hrest := (continueAt limit n q left).suffix c
  rw [run_continueAt_of_none hp]
  exact ⟨left, rfl, hpart, hrest, List.nil_prefix, continuation_eq_none_iff.mp hp⟩

/-- **In tighter surroundings the loop stops earlier** in the same run. -/
theorem shortens_continueAt (hqp : q ≤ p) (n : Nat) (left : Expr) (c : Cursor) :
    ((continueAt limit n p left).run c).Shortens p ((continueAt limit n q left).run c) := by
  induction n generalizing left c with
  | zero =>
    cases hp : continuation p c.token? with
    | none => exact shortens_continueAt_of_none hp 0 left
    | some form =>
      -- no level is left for what the looser surroundings go on with
      intro e he
      rw [continueAt, run_peek_bind, continuation_of_le hqp hp] at he
      simp [nestingTooDeep, failAt] at he
  | succ n ih =>
    cases hp : continuation p c.token? with
    | none => exact shortens_continueAt_of_none hp (n + 1) left
    | some form =>
      rw [continueAt, continueAt, run_peek_bind, run_peek_bind, hp, continuation_of_le hqp hp]
      exact shortens_followedBy _ fun longer _ => ih longer _

theorem shortens_expressionAt (hqp : q ≤ p) (n : Nat) (c : Cursor) :
    ((expressionAt limit n p).run c).Shortens p ((expressionAt limit n q).run c) := by
  cases n with
  | zero =>
    intro e he
    simp [expressionAt, nestingTooDeep, failAt] at he
  | succ n => exact shortens_followedBy _ fun left _ => shortens_continueAt hqp n left _

end Parser

/-- **Levels of precedence are nested.**  If an expression is read in surroundings of some
strength, then in tighter ones an expression is read too, from the same lexemes or fewer.  It
is the first one, or is reached from it by taking left operands and callees, and what was
recorded on the way is the beginning of what was recorded for the first one.  It ends where
the next token binds no tighter than the surroundings. -/
theorem precedence_levels_nest {limit : Nat} {q p : Precedence} (hqp : q ≤ p) (r : Reader)
    {e : Expr} {next : Reader} (h : r.run (Parser.expressionWithin limit q) = (.ok e, next)) :
    ∃ e' next', r.run (Parser.expressionWithin limit p) = (.ok e', next') ∧ e'.LeftPartOf e ∧
      next.cursor.rest <:+ next'.cursor.rest ∧ next'.errors <+: next.errors ∧
      Ends p next'.cursor.rest := by
  obtain ⟨hresult, rfl⟩ := Prod.mk.inj h
  obtain ⟨e', he', hpart, hrest, hrecorded, hends⟩ :=
    Parser.shortens_expressionAt hqp limit r.cursor e hresult
  refine ⟨e', _, Prod.ext he' rfl, hpart, hrest, ?_, hends⟩
  exact (List.prefix_append_right_inj _).mpr hrecorded

/-- A product in front of a sum in front of a comparison.  Each summand has a block with a
mistake in it; inside a sum only the first one is read. -/
theorem precedence_levels_nest_mistakes :
    let r := Reader.start (tokenize
      "-x * if (y) \x7b ) \x7d(1) + if (z) \x7b\n, \x7d == 2")
    Precedence.lowest ≤ .sum ∧ ∃ e next e' next',
      r.run (Parser.expressionWithin maxNesting .lowest) = (.ok e, next) ∧
      r.run (Parser.expressionWithin maxNesting .sum) = (.ok e', next') ∧ e'.LeftPartOf e ∧
      e.text = "((((-x) * if y \x7b \x7d(1)) + if z \x7b \x7d) == 2)" ∧
      e'.text = "((-x) * if y \x7b \x7d(1))" ∧
      next.errors = [.notAnExpression .rightParen 1, .notAnExpression .comma 2] ∧
      next'.errors = [.notAnExpression .rightParen 1] := by
  intro r
  have hle : Precedence.lowest ≤ .sum := by decide
  have hloose : (r.run (Parser.expressionWithin maxNesting .lowest)).1.toOption.map Expr.text =
      some "((((-x) * if y \x7b \x7d(1)) + if z \x7b \x7d) == 2)" := by decide +kernel
  have htight : (r.run (Parser.expressionWithin maxNesting .sum)).1.toOption.map Expr.text =
      some "((-x) * if y \x7b \x7d(1))" := by decide +kernel
  have herrors : (r.run (Parser.expressionWithin maxNesting .lowest)).2.errors =
      [.notAnExpression .rightParen 1, .notAnExpression .comma 2] := by decide +kernel
  have herrors' : (r.run (Parser.expressionWithin maxNesting .sum)).2.errors =
      [.notAnExpression .rightParen 1] := by decide +kernel
  rcases hrun : r.run (Parser.expressionWithin maxNesting .lowest) with ⟨answer, next⟩
  rw [hrun] at hloose herrors
  cases answer with
  | error _ => simp [Except.toOption] at hloose
  | ok e =>
    obtain ⟨e', next', hrun', hpart, -⟩ := precedence_levels_nest hle r hrun
    rw [hrun'] at htight herrors'
    exact ⟨hle, e, next, e', next', rfl, hrun', hpart, Option.some.inj hloose,
      Option.some.inj htight, herrors, herrors'⟩

end ExprScript
