import ExprScript.Parser.Basic

/-!
# Repetition

`Parser.many` runs a parser again and again until it answers that there is
nothing more.  It takes a proof that each answer before that reads at least one
lexeme, so it ends at the latest when the input does.  The two repetitions of
the grammar are made from it: `commaSeparated` reads items with commas between
them, and `statementsUntil` reads a run of statements, in which a statement
that fails is recorded and left out.
-/

namespace ExprScript.Parser

variable {α : Type}

/-- Each time a parser gives something, it has read at least one lexeme. -/
def Advances (p : Parser (Option α)) : Prop :=
  ∀ c a, (p.run c).result = .ok (some a) → (p.run c).next.rest.length < c.rest.length

theorem Reads.advances {p : Parser (Option α)} (hp : p.Reads) : p.Advances :=
  fun c a h => hp c (some a) h

/-- What a repeated parser comes to from one place on. -/
def manyFrom (p : Parser (Option α)) (h : p.Advances) (c : Cursor) : Outcome (List α) :=
  match _ : p.run c with
  | ⟨.error e, recorded, next⟩ => ⟨.error e, recorded, next⟩
  | ⟨.ok none, recorded, next⟩ => ⟨.ok [], recorded, next⟩
  | ⟨.ok (some a), recorded, next⟩ =>
    let others := manyFrom p h next
    ⟨others.result.map (a :: ·), recorded ++ others.recorded, others.next⟩
termination_by c.rest.length
decreasing_by
  have hr := ‹p.run c = _›
  simpa [hr] using h c a (by rw [hr])

theorem manyFrom_suffix (p : Parser (Option α)) (h : p.Advances) (c : Cursor) :
    (manyFrom p h c).next.rest <:+ c.rest := by
  have hs := p.suffix c
  unfold manyFrom
  split
  · next hr => simpa [hr] using hs
  · next hr => simpa [hr] using hs
  · next a recorded next hr =>
    have hlt : next.rest.length < c.rest.length := by simpa [hr] using h c a (by rw [hr])
    exact (manyFrom_suffix p h next).trans (by simpa [hr] using hs)
termination_by c.rest.length

/-- Repeats a parser as long as it gives something, and collects what it gave. -/
def many (p : Parser (Option α)) (h : p.Advances) : Parser (List α) where
  run := manyFrom p h
  suffix := manyFrom_suffix p h

/-- A repetition, unrolled once. -/
theorem many_eq (p : Parser (Option α)) (h : p.Advances) :
    many p h = do
      match ← p with
      | none => return []
      | some a => return a :: (← many p h) := by
  ext c : 2
  rw [run_bind]
  show manyFrom p h c = _
  rw [manyFrom]
  split
  · next e => simp [followedBy, e]
  · next e => simp [followedBy, e, run_pure]
  · next a recorded next e =>
    have hm : (many p h).run next = manyFrom p h next := rfl
    simp only [followedBy, e, run_bind, hm]
    cases hr : (manyFrom p h next).result <;> simp [run_pure, Except.map]

/-! ### Items with commas between them -/

/-- Reads what follows an item of a list: a comma, which promises another item,
or the closing token. -/
def separator (closing : Token) : Parser Bool := do
  let (more, _) ← accept (.commaOr closing) fun t =>
    if t = .comma then some true else if t = closing then some false else none
  return more

def nextItem (item : Parser α) (closing : Token) : Parser (Option α) := do
  if ← separator closing then
    return some (← item)
  else
    return none

theorem nextItem_advances (item : Parser α) (closing : Token) :
    (nextItem item closing).Advances :=
  (((accept_reads _ _).bind _).bind _).advances

/-- Reads items with commas between them, up to and including the closing token.
There may be no item at all, but a comma always promises one. -/
def commaSeparated (item : Parser α) (closing : Token) : Parser (List α) := do
  if ← optional closing then
    return []
  else
    let first ← item
    let others ← many (nextItem item closing) (nextItem_advances item closing)
    return first :: others

/-! ### Runs of statements -/

/-- Runs a parser so that its failure is recorded and gives `none`.  At least
one lexeme is read if there is one, so a failed statement is never tried again
at the same place. -/
def recovering (p : Parser α) : Parser (Option α) where
  run c :=
    let o := p.run c
    let next := if o.next.left < c.left then o.next else c.advance
    match o.result with
    | .ok a => ⟨.ok (some a), o.recorded, next⟩
    | .error e => ⟨.ok none, o.recorded ++ [e], next⟩
  suffix c := by
    dsimp only
    split <;> dsimp only <;> split
    · exact p.suffix c
    · exact c.advance_suffix
    · exact p.suffix c
    · exact c.advance_suffix

theorem recovering_lt (p : Parser α) {c : Cursor} (h : c.rest ≠ []) :
    ((recovering p).run c).next.rest.length < c.rest.length := by
  simp only [recovering, Cursor.left_eq]
  split <;> dsimp only <;> split
  · assumption
  · exact Cursor.advance_lt h
  · assumption
  · exact Cursor.advance_lt h

/-- Reads one element of a run of statements: a statement, or a `;` on its own,
which is an empty statement and gives nothing.  The run ends before a token that
`stop` holds of, and at the end of input. -/
def element (stop : Token → Bool) (statement : Parser α) : Parser (Option (Option α)) := do
  match ← peek with
  | none => return none
  | some t =>
    if stop t then
      return none
    else if t = .semicolon then
      advance
      return some none
    else
      return some (← recovering statement)

theorem element_advances (stop : Token → Bool) (statement : Parser α) :
    (element stop statement).Advances := by
  intro c a h
  rw [element, run_peek_bind] at h ⊢
  cases hc : c.rest with
  | nil => simp [run_pure, Cursor.token?, hc] at h
  | cons l rest =>
    have hne : c.rest ≠ [] := by simp [hc]
    have ht : c.token? = some l.token := by simp [Cursor.token?, hc]
    rw [← hc]
    simp only [ht] at h ⊢
    split at h
    · simp [run_pure] at h
    · next hstop =>
      rw [if_neg hstop]
      split at h
      · next hsemi =>
        rw [if_pos hsemi]
        exact Cursor.advance_lt hne
      · next hsemi =>
        rw [if_neg hsemi, run_bind]
        exact Nat.lt_of_le_of_lt (followedBy_suffix _ _).length_le (recovering_lt statement hne)

/-- Reads statements up to a token that `stop` holds of, which stays unread, or
up to the end of input. -/
def statementsUntil (stop : Token → Bool) (statement : Parser α) : Parser (List α) := do
  let elements ← many (element stop statement) (element_advances stop statement)
  return elements.filterMap id

end ExprScript.Parser
