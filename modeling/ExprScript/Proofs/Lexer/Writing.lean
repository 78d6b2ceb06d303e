import ExprScript.Proofs.Lexer.Positions

/-!
# Writing lexemes down

Lexemes can be written as a text again: a line feed for each line that the next one is
further down, a space, and its token.  A token never goes on with a space or a line feed,
so the lexer finds every one of them again and on its line.

* `lexemesFrom_writtenFrom`: what is written is read.
* `tokenize_written_iff`: the lexemes that can be written and read again are those that
  some text has.
-/

namespace ExprScript

/-- The text of lexemes, written from a line on. -/
def writtenFrom : Nat → List Lexeme → List Char
  | _, [] => []
  | line, l :: ls =>
    List.replicate (l.line - line) '\n' ++ ' ' :: (l.token.text.toList ++ writtenFrom l.line ls)

def written (ls : List Lexeme) : String :=
  String.ofList (writtenFrom 1 ls)

theorem Token.goesOnWith_of_isSpace (t : Token) {d : Char} (hd : isSpace d = true) :
    t.goesOnWith d = false := by
  have hname : isNamePart d = false := by
    cases hn : isNamePart d with
    | false => rfl
    | true => exact absurd hd (by simp [isSpace_of_isNamePart hn])
  have hdigit : d.isDigit = false := by
    cases hn : d.isDigit with
    | false => rfl
    | true => exact absurd hname (by simp [isNamePart_of_isDigit hn])
  have hequal : d ≠ '=' := by
    rintro rfl
    exact absurd hd (by decide)
  cases t <;> simp [goesOnWith, hname, hdigit, hequal]

/-- Every token ends before what is written next. -/
theorem Token.endsBefore_writtenFrom (t : Token) (line : Nat) (ls : List Lexeme) :
    t.EndsBefore (writtenFrom line ls) := by
  intro d hd
  refine t.goesOnWith_of_isSpace ?_
  cases ls with
  | nil => simp [writtenFrom] at hd
  | cons l ls =>
    rw [writtenFrom] at hd
    cases hk : l.line - line with
    | zero =>
      rw [hk] at hd
      obtain rfl := Option.some.inj hd
      rfl
    | succ k =>
      rw [hk] at hd
      obtain rfl := Option.some.inj hd
      rfl

theorem lexemesFrom_newlines (line k : Nat) (cs : List Char) :
    lexemesFrom line (List.replicate k '\n' ++ cs) = lexemesFrom (line + k) cs := by
  induction k generalizing line with
  | zero => rfl
  | succ k ih =>
    rw [List.replicate_succ, List.cons_append, lexemesFrom_newline, ih, Nat.add_assoc,
      Nat.add_comm 1]

/-- **What is written is read**, if the lexer makes such tokens and no line is before the
one above it. -/
theorem lexemesFrom_writtenFrom {line : Nat} {ls : List Lexeme}
    (hmade : ∀ l ∈ ls, l.token.Made) (hlines : (line :: ls.map Lexeme.line).Pairwise (· ≤ ·)) :
    lexemesFrom line (writtenFrom line ls) = ls := by
  induction ls generalizing line with
  | nil => rw [writtenFrom, lexemesFrom]
  | cons l ls ih =>
    obtain ⟨hl, hmade⟩ := List.forall_mem_cons.mp hmade
    obtain ⟨hle, hlines⟩ := List.pairwise_cons.mp hlines
    have hline : line + (l.line - line) = l.line :=
      Nat.add_sub_cancel' (hle l.line List.mem_cons_self)
    obtain ⟨c, cs, hspelling⟩ := Token.made_iff.mp hl
    have hspace : ∀ d ∈ [' '], isBlank d = true := List.forall_mem_singleton.mpr rfl
    have hblank := lexemesFrom_blank l.line hspace (l.token.text.toList ++ writtenFrom l.line ls)
    rw [List.cons_append, List.nil_append] at hblank
    rw [writtenFrom, lexemesFrom_newlines, hline, hblank, hspelling.toList_text,
      lexemesFrom_spelling hspelling (l.token.endsBefore_writtenFrom _ _), ih hmade hlines]

/-- The lines of lexemes go down from where the text begins. -/
theorem pairwise_line_lexemesFrom (line : Nat) (cs : List Char) :
    (line :: (lexemesFrom line cs).map Lexeme.line).Pairwise (· ≤ ·) := by
  refine lexemesFrom_induction
    (motive := fun line _ ls => (line :: ls.map Lexeme.line).Pairwise (· ≤ ·))
    (fun line => List.pairwise_singleton _ line) ?_ (fun line c rest ls _ _ ih => ih) ?_ line cs
  · intro line rest ls ih
    obtain ⟨hle, hlines⟩ := List.pairwise_cons.mp ih
    exact List.pairwise_cons.mpr ⟨fun n hn => Nat.le_of_succ_le (hle n hn), hlines⟩
  · intro line t c cs rest ls _ _ ih
    refine List.pairwise_cons.mpr ⟨List.forall_mem_cons.mpr ⟨Nat.le_refl line, ?_⟩, ih⟩
    exact (List.pairwise_cons.mp ih).1

theorem made_of_mem_lexemesFrom {line : Nat} {cs : List Char} :
    ∀ l ∈ lexemesFrom line cs, l.token.Made := by
  intro l hl
  obtain ⟨ls, ls', h⟩ := List.append_of_mem hl
  obtain ⟨before, after, hstands⟩ := exists_stands line cs ls l ls' h
  exact hstands.made

/-- **Writing and reading lexemes again changes nothing** just where the lexer makes such
tokens, the first line is at least one and no line is before the one above it. -/
theorem tokenize_written_iff (ls : List Lexeme) : tokenize (written ls) = ls ↔
    (∀ l ∈ ls, l.token.Made) ∧ (1 :: ls.map Lexeme.line).Pairwise (· ≤ ·) := by
  rw [tokenize, written, String.toList_ofList]
  constructor
  · intro h
    rw [← h]
    exact ⟨made_of_mem_lexemesFrom, pairwise_line_lexemesFrom 1 _⟩
  · rintro ⟨hmade, hlines⟩
    exact lexemesFrom_writtenFrom hmade hlines

end ExprScript
