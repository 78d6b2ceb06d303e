import ExprScript.Proofs.Parser.Reuse

/-!
# How many phrases are open at once

While one expression or block is read, those around it are open, and the parser that reads
them is as many calls deep.  How deep it may get does not depend on the length of the input.
To say so, a call is run with a budget of open phrases (`Reader.Call.within`): where one more
than the budget is about to begin, `beyond` is done in its place.  A budget that is never used
up is one for which it makes no difference what `beyond` is.

* `Reader.Call.returns_within`: with a budget above `maxNesting` each call does what it does
  without one.  The counter has grown by one for each phrase that is open, and what continues
  an expression only makes it larger, so the counter reaches the limit before the budget is
  used up; the phrase that begins then fails at once, and it is the last one to fit.
* `Counting.fails_bangs`: with any smaller budget a row of prefix operators uses it up.
-/

namespace ExprScript

namespace Reader.Call

variable (beyond : (α : Type) → Counting α) {budget : Nat}

/-- The parser that it runs, with a counter, and with no more phrases open at once than the
budget has. -/
def within (budget : Nat) : (call : Call) → Counting call.Value
  | program => Counting.statementsUntil beyond (fun _ => false)
      (Counting.stmt (Counting.expressionWith beyond maxNesting budget))
  | statement => Counting.stmt (Counting.expressionWith beyond maxNesting budget)
  | block => Counting.blockWith beyond maxNesting budget
  | expression p => Counting.expressionWith beyond maxNesting budget p

theorem returns_within (h : maxNesting < budget) (call : Call) (c : Cursor) :
    Counting.Returns 0 (call.within beyond budget) call.parser c := by
  obtain ⟨he, hb⟩ :=
    @Counting.returns_phrases maxNesting 0 beyond budget (Nat.zero_le _) (by omega)
  cases call with
  | program => exact Counting.returns_statementsUntil _ fun _ => Counting.returns_stmt he
  | statement => exact Counting.returns_stmt he
  | block => exact hb c
  | expression p => exact he p c

end Reader.Call

/-! ### A budget that is used up -/

namespace Counting

variable {α β : Type} {limit level : Nat} {e : ParseError} {x : Counting α} {c : Cursor}

def Fails (e : ParseError) (level : Nat) (x : Counting α) (c : Cursor) : Prop :=
  ∃ o level', (x.run.run level).run c = counted o level' ∧ o.result = .error e

theorem fails_throw : Fails e level (throw e : Counting α) c :=
  ⟨⟨.error e, [], c⟩, level, rfl, rfl⟩

theorem Fails.bind (h : Fails e level x c) (f : α → Counting β) : Fails e level (x >>= f) c := by
  obtain ⟨o, level', hx, he⟩ := h
  exact ⟨_, level', run_bind_of_error hx he, rfl⟩

theorem fails_reading_bind {p : Parser α} {a : α} {c' : Cursor} {f : α → Counting β}
    (hp : p.run c = ⟨.ok a, [], c'⟩) (h : Fails e level (f a) c') :
    Fails e level (reading p >>= f) c := by
  obtain ⟨o, level', hf, he⟩ := h
  have hx : ((reading p).run.run level).run c = counted ⟨.ok a, [], c'⟩ level :=
    hp ▸ returns_reading p
  exact ⟨o, level', (run_bind_of_ok hx rfl).trans hf, he⟩

theorem fails_nested (hl : level < limit) (h : Fails e (level + 1) x c) :
    Fails e level (nested limit x) c := by
  obtain ⟨o, level', hx, he⟩ := h
  exact ⟨o, level, run_nested ((run_descend_bind hl fun _ => x).trans hx), he⟩

/-- Below the limit each of the operators opens one more phrase, until none is left in the
budget. -/
theorem fails_bangs {phrases : Nat} (hl : level + phrases ≤ limit) (p : Precedence)
    (hc : c.rest = List.replicate phrases ⟨.bang, 1⟩) :
    Fails e level (expressionWith (fun _ => throw e) limit phrases p) c := by
  induction phrases generalizing level p c with
  | zero => exact fails_throw
  | succ phrases ih =>
    obtain ⟨rest, line, left, hleft⟩ := c
    obtain rfl : rest = ⟨.bang, 1⟩ :: List.replicate phrases ⟨.bang, 1⟩ := hc
    refine fails_nested (by omega) (Fails.bind ?_ _)
    refine fails_reading_bind rfl (fails_reading_bind rfl ?_)
    -- What starts with the operator: the operator, and then its operand.
    refine fails_reading_bind rfl (Fails.bind ?_ _)
    exact ih (by omega) .operand rfl

end Counting

namespace CountingReader

variable (beyond : (α : Type) → Counting α) {budget : Nat}

/-- The reader after some calls, each with no more phrases open at once than the budget has. -/
def afterWithin (budget : Nat) (r : CountingReader) (calls : List Reader.Call) :
    CountingReader :=
  calls.foldl (fun r call => (r.run (call.within beyond budget)).2) r

theorem run_within (h : maxNesting < budget) (r : Reader) (call : Reader.Call) :
    run ⟨r, 0⟩ (call.within beyond budget) =
      ((r.run call.parser).1, ⟨(r.run call.parser).2, 0⟩) :=
  run_of_returns (call.returns_within beyond h r.cursor)

theorem afterWithin_eq (h : maxNesting < budget) (r : Reader) (calls : List Reader.Call) :
    afterWithin beyond budget ⟨r, 0⟩ calls = ⟨r.after calls, 0⟩ :=
  foldl_run_of_returns (Reader.Call.returns_within beyond h) r calls

theorem run_of_fails {α : Type} {e : ParseError} {r : Reader} {x : Counting α}
    (h : Counting.Fails e 0 x r.cursor) : (run ⟨r, 0⟩ x).1 = .error e := by
  obtain ⟨o, level', hx, he⟩ := h
  rw [run, Reader.run, hx, ← he]
  rfl

end CountingReader

/-- **How many phrases are open at once.**  A reader that may have `budget` expressions and
blocks open at once is like one without a bound, for all lexemes and all calls, exactly if
the budget is above `maxNesting`.  So `maxNesting + 1` open phrases are never exceeded: the
answer, the errors and the lexemes left do not depend on what would be done for one more. -/
theorem open_phrases_are_bounded (budget : Nat) :
    (∀ (beyond : (α : Type) → Counting α) (lexemes : List Lexeme) (calls : List Reader.Call)
        (call : Reader.Call),
      let used := (Reader.start lexemes).after calls
      let (answer, next) := used.run call.parser
      (CountingReader.start lexemes).afterWithin beyond budget calls = ⟨used, 0⟩ ∧
      CountingReader.run ⟨used, 0⟩ (call.within beyond budget) = (answer, ⟨next, 0⟩)) ↔
    maxNesting + 1 ≤ budget := by
  constructor
  · intro h
    refine Nat.lt_of_not_le fun hb => ?_
    -- The answer to a row of operators is whatever error is thrown when the budget is used up.
    let r := Reader.start (List.replicate budget ⟨.bang, 1⟩)
    have hfails (e : ParseError) : (r.run (Parser.expression .lowest)).1 = .error e := by
      have hx : Counting.Fails e 0 (Counting.expressionWith (fun _ => throw e) maxNesting budget
          .lowest) r.cursor := Counting.fails_bangs (by omega) .lowest rfl
      have hrun := (h (fun _ => throw e) (List.replicate budget ⟨.bang, 1⟩) []
        (.expression .lowest)).2
      exact (congrArg Prod.fst hrun).symm.trans (CountingReader.run_of_fails hx)
    have hsame := (hfails (.nestingTooDeep 0 0)).symm.trans (hfails (.nestingTooDeep 0 1))
    cases hsame
  · intro h beyond lexemes calls call
    exact ⟨CountingReader.afterWithin_eq beyond h _ calls,
      CountingReader.run_within beyond h _ call⟩

end ExprScript
