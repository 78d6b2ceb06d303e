import ExprScript.Token.Lexer

/-!
# Lexemes of a text in parts

A token is as long as can be, so the lexemes of a text are not simply those of its
parts.  They are where the second part begins with a delimiter, a character that no
token goes on with: the token before it has ended by then (`lexemesFrom_append`).  On
which line a text begins matters to the lines of its lexemes and to nothing else
(`unlined_lexemesFrom`).
-/

namespace ExprScript

def Lexeme.unlined (l : Lexeme) : Lexeme :=
  ⟨l.token, 0⟩

/-- A character that begins a new token wherever it stands. -/
def isDelimiter (d : Char) : Bool :=
  !isNamePart d && d != '='

theorem isNamePart_of_isDigit {d : Char} (h : d.isDigit = true) : isNamePart d = true := by
  simp [isNamePart, Char.isAlphanum, h]

theorem takeWhile_append_cons {α : Type} {p : α → Bool} {d : α} (h : p d = false)
    (cs ds : List α) : (cs ++ d :: ds).takeWhile p = cs.takeWhile p := by
  induction cs with
  | nil => simp [h]
  | cons c cs ih => rw [List.cons_append, List.takeWhile_cons, List.takeWhile_cons, ih]

theorem dropWhile_append_cons {α : Type} {p : α → Bool} {d : α} (h : p d = false)
    (cs ds : List α) : (cs ++ d :: ds).dropWhile p = cs.dropWhile p ++ d :: ds := by
  induction cs with
  | nil => simp [h]
  | cons c cs ih =>
    rw [List.cons_append, List.dropWhile_cons, List.dropWhile_cons, ih]
    split
    · rfl
    · rfl

/-- **A token ends before a delimiter.** -/
theorem readToken_append {d : Char} (hd : isDelimiter d = true) (c : Char) (cs ds : List Char) :
    readToken c (cs ++ d :: ds) = ((readToken c cs).1, (readToken c cs).2 ++ d :: ds) := by
  have hname : isNamePart d = false := by
    simp only [isDelimiter, Bool.and_eq_true, Bool.not_eq_true'] at hd
    exact hd.1
  have hequal : d ≠ '=' := by
    simp only [isDelimiter, Bool.and_eq_true, bne_iff_ne] at hd
    exact hd.2
  have hdigit : d.isDigit = false := by
    cases h : d.isDigit with
    | false => rfl
    | true => exact absurd (isNamePart_of_isDigit h) (by simp [hname])
  unfold readToken
  split
  · rw [takeWhile_append_cons hdigit, dropWhile_append_cons hdigit]
  · split
    · rw [takeWhile_append_cons hname, dropWhile_append_cons hname]
    · cases cs with
      | nil => simp [hequal]
      | cons c' cs =>
        -- a symbol of one or two characters
        by_cases hc' : c' = '='
        · subst hc'
          by_cases hc : c = '='
          · subst hc
            rfl
          · by_cases hb : c = '!'
            · subst hb
              rfl
            · simp [hc, hb]
        · simp [hc']

theorem count_newline_dropWhile {p : Char → Bool} (h : p '\n' = false) (cs : List Char) :
    (cs.dropWhile p).count '\n' = cs.count '\n' := by
  have htake : (cs.takeWhile p).count '\n' = 0 := by
    refine List.count_eq_zero.mpr fun hmem => ?_
    have hp := List.all_eq_true.mp List.all_takeWhile _ hmem
    rw [h] at hp
    exact absurd hp Bool.false_ne_true
  have hcount := congrArg (List.count '\n') (List.takeWhile_append_dropWhile (p := p) (l := cs))
  rwa [List.count_append, htake, Nat.zero_add] at hcount

/-- There is no line feed in a token. -/
theorem count_newline_readToken (c : Char) (cs : List Char) :
    (readToken c cs).2.count '\n' = cs.count '\n' := by
  unfold readToken
  split
  · exact count_newline_dropWhile (by decide) cs
  · split
    · exact count_newline_dropWhile (by decide) cs
    · split
      · rfl
      · rfl
      · rfl

/-- **The lexemes of a text are those of its parts**, where the second one begins with a
delimiter; its lines are counted on. -/
theorem lexemesFrom_append {d : Char} (hd : isDelimiter d = true) (line : Nat)
    (cs ds : List Char) : lexemesFrom line (cs ++ d :: ds) =
      lexemesFrom line cs ++ lexemesFrom (line + cs.count '\n') (d :: ds) := by
  induction line, cs using lexemesFrom.induct with
  | case1 line => simp [lexemesFrom]
  | case2 line cs ih =>
    rw [List.cons_append, lexemesFrom, if_pos rfl, ih]
    conv => rhs; rw [lexemesFrom, if_pos rfl]
    rw [List.count_cons_self, Nat.add_assoc, Nat.add_comm 1]
  | case3 line c cs hc hb ih =>
    rw [List.cons_append, lexemesFrom, if_neg hc, if_pos hb, ih]
    conv => rhs; rw [lexemesFrom, if_neg hc, if_pos hb]
    rw [List.count_cons_of_ne hc]
  | case4 line c cs hc hb ih =>
    rw [List.cons_append, lexemesFrom, if_neg hc, if_neg hb, readToken_append hd, ih]
    conv => rhs; rw [lexemesFrom, if_neg hc, if_neg hb]
    rw [List.count_cons_of_ne hc, count_newline_readToken, List.cons_append]

/-- **Where a text begins matters to the lines only.** -/
theorem unlined_lexemesFrom (line line' : Nat) (cs : List Char) :
    (lexemesFrom line cs).map Lexeme.unlined = (lexemesFrom line' cs).map Lexeme.unlined := by
  induction line, cs using lexemesFrom.induct generalizing line' with
  | case1 line => rw [lexemesFrom, lexemesFrom]
  | case2 line cs ih => rw [lexemesFrom, lexemesFrom, if_pos rfl, if_pos rfl, ih]
  | case3 line c cs hc hb ih =>
    rw [lexemesFrom, lexemesFrom, if_neg hc, if_pos hb, if_neg hc, if_pos hb, ih]
  | case4 line c cs hc hb ih =>
    rw [lexemesFrom, lexemesFrom, if_neg hc, if_neg hb, if_neg hc, if_neg hb, List.map_cons,
      List.map_cons, ih line']
    rfl

theorem tokenize_semicolon (first second : String) :
    ∃ line, tokenize (first ++ ";" ++ second) =
      tokenize first ++ ⟨.semicolon, line⟩ :: lexemesFrom line second.toList := by
  refine ⟨1 + first.toList.count '\n', ?_⟩
  have hchars : (first ++ ";" ++ second).toList = first.toList ++ ';' :: second.toList := by
    rw [String.append_assoc, String.toList_append, String.toList_append]
    rfl
  have hsecond : ∀ line, lexemesFrom line (';' :: second.toList) =
      ⟨.semicolon, line⟩ :: lexemesFrom line second.toList := by
    intro line
    rw [lexemesFrom]
    rfl
  rw [tokenize, hchars, lexemesFrom_append rfl, hsecond, tokenize]

end ExprScript
