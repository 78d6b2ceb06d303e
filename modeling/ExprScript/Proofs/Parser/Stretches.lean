import ExprScript.Proofs.Parser.Boundary

/-!
# What adds up along a run

A run goes from one place to another and finds errors on the way.  Much of what there is to
say of these three adds up: it is true where nothing is found, be a lexeme read or not, and it
is true of two stretches of input that meet if it is true of each (`Parser.AddsUp`).  Then it is true
of what is sequenced or repeated (`Parser.Covered`), if it is true of the parts.  Only the parts
that make errors of their own are left to look at.

* `Parser.AddsUp.bind`: sequences.
* `Parser.AddsUp.many`, `Parser.AddsUp.commaSeparated`, `Parser.AddsUp.statementsUntil`:
  repetition.
-/

namespace ExprScript

namespace Parser

variable {α β : Type}

/-- A relation between the place where a stretch of input begins, the errors found in it and
the place where it ends that adds up. -/
structure AddsUp (P : Cursor → List ParseError → Cursor → Prop) : Prop where
  stay (c : Cursor) : P c [] c
  skip (c : Cursor) : P c [] c.advance
  append {c c₁ c' : Cursor} {es es' : List ParseError} :
    P c es c₁ → P c₁ es' c' → P c (es ++ es') c'

/-- The relation holds of every run of the parser. -/
def Covered (p : Parser α) (P : Cursor → List ParseError → Cursor → Prop) : Prop :=
  ∀ c, P c (p.run c).errors (p.run c).next

namespace AddsUp

variable {P : Cursor → List ParseError → Cursor → Prop} {c : Cursor} {p : Parser α}

theorem followedBy (hP : AddsUp P) {o : Outcome α} {f : α → Parser β} (ho : P c o.errors o.next)
    (hf : ∀ a, o.result = .ok a → P o.next ((f a).run o.next).errors ((f a).run o.next).next) :
    P c (Parser.followedBy o f).errors (Parser.followedBy o f).next := by
  cases hr : o.result with
  | error e =>
    rw [Outcome.errors, hr] at ho
    rw [followedBy_of_error hr]
    exact ho
  | ok a =>
    rw [Outcome.errors, hr, List.append_nil] at ho
    rw [followedBy_of_ok hr, Outcome.errors, List.append_assoc]
    exact hP.append ho (hf a hr)

theorem bind (hP : AddsUp P) {f : α → Parser β} (hp : p.Covered P)
    (hf : ∀ a, (f a).Covered P) : (p >>= f).Covered P :=
  fun c => hP.followedBy (hp c) fun a _ => hf a _

theorem pure (hP : AddsUp P) (a : α) : (Pure.pure a : Parser α).Covered P :=
  fun c => hP.stay c

theorem currentLine (hP : AddsUp P) : Parser.currentLine.Covered P :=
  fun c => hP.stay c

theorem peek (hP : AddsUp P) : Parser.peek.Covered P :=
  fun c => hP.stay c

theorem advance (hP : AddsUp P) : Parser.advance.Covered P :=
  fun c => hP.skip c

theorem optional (hP : AddsUp P) (t : Token) : (Parser.optional t).Covered P := by
  refine hP.bind hP.peek fun next => ?_
  split
  · exact hP.bind hP.advance fun _ => hP.pure true
  · exact hP.pure false

theorem many (hP : AddsUp P) {p : Parser (Option α)} (hp : p.Covered P) (h : p.Advances) :
    (Parser.many p h).Covered P := by
  intro c
  -- induction on what is left to read, which each repetition makes shorter
  induction hn : c.rest.length using Nat.strongRecOn generalizing c with
  | ind n ih =>
    subst hn
    rw [many_eq, run_bind]
    refine hP.followedBy (hp c) fun o ho => ?_
    cases o with
    | none => exact hP.pure [] _
    | some a =>
      dsimp only
      rw [run_bind]
      exact hP.followedBy (ih _ (h c a ho) _ rfl) fun as _ => hP.pure _ _

theorem commaSeparated (hP : AddsUp P) (hp : p.Covered P) {closing : Token}
    (hs : (separator closing).Covered P) : (Parser.commaSeparated p closing).Covered P := by
  have hitem : (nextItem p closing).Covered P := by
    refine hP.bind hs fun more => ?_
    cases more with
    | false => exact hP.pure none
    | true => exact hP.bind hp fun a => hP.pure (some a)
  refine hP.bind (hP.optional closing) fun close => ?_
  cases close with
  | true => exact hP.pure []
  | false => exact hP.bind hp fun _ => hP.bind (hP.many hitem _) fun _ => hP.pure _

/-- The place after a statement is the one where it stopped, or the next one if it has read
nothing.  The error that it fails with is recorded after those found in it. -/
theorem recovering (hP : AddsUp P) (hp : p.Covered P) (hc : c.rest ≠ []) :
    P c ((Parser.recovering p).run c).errors ((Parser.recovering p).run c).next := by
  have hnext : ((Parser.recovering p).run c).next =
      if (p.run c).next.left < c.left then (p.run c).next else c.advance := by
    simp only [Parser.recovering]
    split <;> rfl
  rw [errors_recovering, hnext]
  split
  · exact hp c
  · next hstays =>
    rw [Cursor.left_eq, Cursor.left_eq, Nat.not_lt] at hstays
    have hrest := (p.suffix c).eq_of_length_le hstays
    rw [← Cursor.advance_eq hrest hc, ← List.append_nil (p.run c).errors]
    exact hP.append (hp c) (hP.skip _)

theorem statementsUntil (hP : AddsUp P) (hp : p.Covered P) (stop : Token → Bool) :
    (Parser.statementsUntil stop p).Covered P := by
  have helement : (element stop p).Covered P := by
    intro c
    rw [element, run_peek_bind]
    cases hc : c.token? with
    | none => exact hP.pure none c
    | some t =>
      have hne : c.rest ≠ [] := by
        intro hnil
        simp [Cursor.token?_eq_none hnil] at hc
      dsimp only
      split
      · exact hP.pure none c
      · split
        · exact hP.bind hP.advance (fun _ => hP.pure (some none)) c
        · exact hP.followedBy (hP.recovering hp hne) fun o _ => hP.pure (some o) _
  exact hP.bind (hP.many helement _) fun os => hP.pure _

end AddsUp

end Parser

end ExprScript
