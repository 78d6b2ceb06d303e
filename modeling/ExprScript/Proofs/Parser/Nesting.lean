import ExprScript.Proofs.Parser.Acceptance
import ExprScript.Reader

/-!
# Where the nesting limit shows

A parser with fewer levels of nesting does what one with more levels does, up to
the first place where it runs out of them, and there it says so:
`p.ExtendedBy limit q` says that a run of `q` is the run of `p`, unless `p` meets
the limit, in which case the errors that `p` finds before that are also the first
ones of `q`.  The combinators keep this relation, so the grammar has it by
induction on the levels (`extendedBy_levels`).

* `programWithin_extendedBy`: a lower limit acts on a program only by its error.
* `Accepts.mono`: what is accepted is accepted with more levels too.
-/

namespace ExprScript

/-- The errors of an outcome, in the order in which they are found: those that
were recorded, and the one that it fails with. -/
def Outcome.errors {α : Type} (o : Outcome α) : List ParseError :=
  o.recorded ++ match o.result with
    | .ok _ => []
    | .error e => [e]

/-- Both outcomes are the same, or the first one meets the nesting limit and the
errors before that are the first errors of the second one. -/
def Outcome.ExtendedBy {α : Type} (limit : Nat) (o o' : Outcome α) : Prop :=
  o' = o ∨ ∃ before line, before ++ [.nestingTooDeep limit line] <+: o.errors ∧
    before <+: o'.errors

namespace Parser

variable {α β : Type} {limit : Nat}

/-- The first parser does what the second one does up to the nesting limit. -/
def ExtendedBy (limit : Nat) (p q : Parser α) : Prop :=
  ∀ c, (p.run c).ExtendedBy limit (q.run c)

theorem ExtendedBy.refl (p : Parser α) : p.ExtendedBy limit p :=
  fun _ => Or.inl rfl

/-! ### Sequences -/

theorem errors_prefix_followedBy (o : Outcome α) (f : α → Parser β) :
    o.errors <+: (followedBy o f).errors := by
  cases hr : o.result with
  | error e => simp [followedBy, Outcome.errors, hr]
  | ok a => simp [followedBy, Outcome.errors, hr]

/-- What follows matters only where the first outcome has a value. -/
theorem followedBy_extendedBy {o o' : Outcome α} {f g : α → Parser β}
    (h : o.ExtendedBy limit o')
    (hf : ∀ a, o.result = .ok a → ((f a).run o.next).ExtendedBy limit ((g a).run o.next)) :
    (followedBy o f).ExtendedBy limit (followedBy o' g) := by
  rcases h with rfl | ⟨before, line, hb, hb'⟩
  · cases hr : o'.result with
    | error e => exact Or.inl (by rw [followedBy_of_error hr, followedBy_of_error hr])
    | ok a =>
      rcases hf a hr with he | ⟨before, line, hb, hb'⟩
      · exact Or.inl (by rw [followedBy_of_ok hr, followedBy_of_ok hr, he])
      · refine Or.inr ⟨o'.recorded ++ before, line, ?_, ?_⟩
        · simpa [Outcome.errors, followedBy_of_ok hr] using hb
        · simpa [Outcome.errors, followedBy_of_ok hr] using hb'
  · exact Or.inr ⟨before, line, hb.trans (errors_prefix_followedBy o f),
      hb'.trans (errors_prefix_followedBy o' g)⟩

theorem ExtendedBy.bind {p q : Parser α} {f g : α → Parser β} (h : p.ExtendedBy limit q)
    (hf : ∀ a, (f a).ExtendedBy limit (g a)) : (p >>= f).ExtendedBy limit (q >>= g) := by
  intro c
  rw [run_bind, run_bind]
  exact followedBy_extendedBy (h c) fun a _ => hf a _

theorem ExtendedBy.bind_left (p : Parser α) {f g : α → Parser β}
    (hf : ∀ a, (f a).ExtendedBy limit (g a)) : (p >>= f).ExtendedBy limit (p >>= g) :=
  (ExtendedBy.refl p).bind hf

theorem ExtendedBy.bind_right {p q : Parser α} (h : p.ExtendedBy limit q) (f : α → Parser β) :
    (p >>= f).ExtendedBy limit (q >>= f) :=
  h.bind fun a => .refl (f a)

theorem nestingTooDeep_extendedBy (q : Parser α) :
    (nestingTooDeep limit : Parser α).ExtendedBy limit q :=
  fun c => Or.inr ⟨[], c.currentLine, List.prefix_refl _, List.nil_prefix⟩

/-! ### Repetition -/

theorem ExtendedBy.many {p q : Parser (Option α)} (h : p.ExtendedBy limit q) (hp : p.Advances)
    (hq : q.Advances) : (many p hp).ExtendedBy limit (many q hq) := by
  intro c
  -- induction on what is left to read, which each repetition makes shorter
  induction hn : c.rest.length using Nat.strongRecOn generalizing c with
  | ind n ih =>
    subst hn
    rw [many_eq p, many_eq q, run_bind, run_bind]
    refine followedBy_extendedBy (h c) fun o ho => ?_
    cases o with
    | none => exact Or.inl rfl
    | some a =>
      have hlt := hp c a ho
      rw [run_bind, run_bind]
      exact followedBy_extendedBy (ih _ hlt _ rfl) fun as _ => Or.inl rfl

theorem errors_recovering (p : Parser α) (c : Cursor) :
    ((recovering p).run c).errors = (p.run c).errors := by
  simp only [recovering, Outcome.errors]
  cases (p.run c).result <;> simp

theorem ExtendedBy.recovering {p q : Parser α} (h : p.ExtendedBy limit q) :
    (recovering p).ExtendedBy limit (recovering q) := by
  intro c
  rcases h c with he | ⟨before, line, hb, hb'⟩
  · exact Or.inl (by simp only [Parser.recovering, he])
  · exact Or.inr ⟨before, line, by rwa [errors_recovering], by rwa [errors_recovering]⟩

theorem ExtendedBy.commaSeparated {p q : Parser α} (h : p.ExtendedBy limit q) (closing : Token) :
    (commaSeparated p closing).ExtendedBy limit (commaSeparated q closing) := by
  have hitem : (nextItem p closing).ExtendedBy limit (nextItem q closing) := by
    refine .bind_left _ fun more => ?_
    cases more with
    | false => exact .refl _
    | true => exact h.bind_right _
  refine .bind_left _ fun close => ?_
  cases close with
  | true => exact .refl _
  | false => exact h.bind fun first => (hitem.many _ _).bind_right _

theorem ExtendedBy.element {p q : Parser α} (h : p.ExtendedBy limit q) (stop : Token → Bool) :
    (element stop p).ExtendedBy limit (element stop q) := by
  refine .bind_left _ fun next => ?_
  cases next with
  | none => exact .refl _
  | some t =>
    dsimp only
    split
    · exact .refl _
    · split
      · exact .refl _
      · exact h.recovering.bind_right _

theorem ExtendedBy.statementsUntil {p q : Parser α} (h : p.ExtendedBy limit q)
    (stop : Token → Bool) : (statementsUntil stop p).ExtendedBy limit (statementsUntil stop q) :=
  ((h.element stop).many _ _).bind_right _

/-! ### Phrases -/

section
variable {e e' : Precedence → Parser Expr} {b b' : Parser Block}

theorem ExtendedBy.startingWith (he : ∀ p, (e p).ExtendedBy limit (e' p))
    (hb : b.ExtendedBy limit b') (form : StartForm) :
    (startingWith e b form).ExtendedBy limit (startingWith e' b' form) := by
  cases form with
  | identifier => exact .refl _
  | integer => exact .refl _
  | boolean => exact .refl _
  | prefixed => exact .bind_left _ fun _ => (he _).bind_right _
  | group => exact .bind_left _ fun _ => (he _).bind_right _
  | conditional =>
    refine .bind_left _ fun _ => .bind_left _ fun _ => (he _).bind fun _ => .bind_left _ fun _ =>
      hb.bind fun _ => .bind_left _ fun more => ?_
    cases more with
    | false => exact .refl _
    | true => exact hb.bind_right _
  | function =>
    exact .bind_left _ fun _ => .bind_left _ fun _ => .bind_left _ fun _ => hb.bind_right _

theorem ExtendedBy.firstOperand (he : ∀ p, (e p).ExtendedBy limit (e' p))
    (hb : b.ExtendedBy limit b') :
    (firstOperand e b).ExtendedBy limit (firstOperand e' b') := by
  refine .bind_left _ fun line => .bind_left _ fun next => ?_
  cases next with
  | none => exact .refl _
  | some t =>
    dsimp only
    split
    · exact .refl _
    · exact .startingWith he hb _

theorem ExtendedBy.continuedBy (he : ∀ p, (e p).ExtendedBy limit (e' p)) (left : Expr)
    (form : ContinueForm) : (continuedBy e left form).ExtendedBy limit (continuedBy e' left form) := by
  cases form with
  | infixed => exact .bind_left _ fun _ => (he _).bind_right _
  | call => exact .bind_left _ fun _ => ((he _).commaSeparated _).bind_right _

theorem ExtendedBy.stmt (he : ∀ p, (e p).ExtendedBy limit (e' p)) :
    (stmt e).ExtendedBy limit (stmt e') := by
  refine .bind_left _ fun next => ?_
  split
  · exact .bind_left _ fun _ => .bind_left _ fun _ => .bind_left _ fun _ => (he _).bind_right _
  · exact .bind_left _ fun _ => (he _).bind_right _
  · exact .bind_left _ fun _ => (he _).bind_right _

theorem ExtendedBy.bracedBlock (he : ∀ p, (e p).ExtendedBy limit (e' p)) :
    (bracedBlock e).ExtendedBy limit (bracedBlock e') :=
  .bind_left _ fun _ => ((ExtendedBy.stmt he).statementsUntil _).bind_right _

end

/-! ### The grammar -/

/-- The parsers of the grammar with some levels left, compared with those that
have at least as many left. -/
theorem extendedBy_levels (limit' : Nat) {n m : Nat} (h : n ≤ m) :
    (∀ p, (expressionAt limit n p).ExtendedBy limit (expressionAt limit' m p)) ∧
      (∀ p left, (continueAt limit n p left).ExtendedBy limit (continueAt limit' m p left)) ∧
      (blockAt limit n).ExtendedBy limit (blockAt limit' m) := by
  induction n generalizing m with
  | zero =>
    refine ⟨fun p => nestingTooDeep_extendedBy _, fun p left => ?_, nestingTooDeep_extendedBy _⟩
    -- with no level left an expression can end, but not go on
    cases m with
    | zero =>
      refine .bind_left _ fun next => ?_
      split
      · exact .refl _
      · exact nestingTooDeep_extendedBy _
    | succ m =>
      refine .bind_left _ fun next => ?_
      split
      · exact .refl _
      · exact nestingTooDeep_extendedBy _
  | succ n ih =>
    obtain ⟨m, rfl⟩ : ∃ k, m = k + 1 := ⟨m - 1, by omega⟩
    obtain ⟨he, hc, hb⟩ := ih (Nat.le_of_succ_le_succ h)
    refine ⟨fun p => ?_, fun p left => ?_, .bracedBlock he⟩
    · exact (ExtendedBy.firstOperand he hb).bind fun left => hc p left
    · refine .bind_left _ fun next => ?_
      split
      · exact .refl _
      · exact (ExtendedBy.continuedBy he left _).bind fun longer => hc p longer

/-- **A lower limit acts on a program only by its error.** -/
theorem programWithin_extendedBy {limit limit' : Nat} (h : limit ≤ limit') :
    (programWithin limit).ExtendedBy limit (programWithin limit') :=
  (ExtendedBy.stmt (extendedBy_levels limit' h).1).statementsUntil _

/-- What is accepted meets no limit, so it is accepted by all that goes further. -/
theorem Accepts.mono {p q : Parser α} {a : α} {c c' : Cursor} (h : p.Accepts c a c')
    (hpq : p.ExtendedBy limit q) : q.Accepts c a c' := by
  rcases hpq c with he | ⟨before, line, hb, -⟩
  · rw [Accepts, he]
    exact h
  · rw [h] at hb
    simp [Outcome.errors] at hb

end Parser

end ExprScript
