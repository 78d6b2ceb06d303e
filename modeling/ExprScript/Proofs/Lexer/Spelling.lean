import ExprScript.Numeral
import ExprScript.Proofs.Lexer
import Mathlib.Data.List.TakeWhile

/-!
# Names, numerals and signs as tokens

`tokensOf` gives the tokens of a text without the lines they are on.  It is additive in
front of a delimiter and passes over blanks and signs, so the tokens of a longer text can
be put together from those of the names and numerals in it.

The lexer makes only some of the tokens: names are runs of name characters that are no
keyword, numerals are digits (`Token.Emitted`).  Every token that it makes is spelled out
in the text (`Token.Spelling`) and does not go on with what comes next
(`Token.EndsBefore`).  Conversely, what is spelled out and ends there is read as that
token; so it is the only token of its own text.

* `emitted_lexemesFrom`: the tokens of a text.
* `Token.spelling_readToken`, `Token.Spelling.readToken_append`: what is read is spelled,
  and what is spelled is read.
* `tokensOf_name`, `tokensOf_numeral`: a name and a numeral by themselves.
* `Numeral.read_write`: the decimal form of a number that is not negative.
-/

namespace ExprScript

def tokensOf (cs : List Char) : List Token :=
  (lexemesFrom 1 cs).map Lexeme.token

theorem token_lexemesFrom (line : Nat) (cs : List Char) :
    (lexemesFrom line cs).map Lexeme.token = tokensOf cs := by
  have h := congrArg (List.map Lexeme.token) (unlined_lexemesFrom line 1 cs)
  rwa [List.map_map, List.map_map] at h

theorem token_tokenize (source : String) :
    (tokenize source).map Lexeme.token = tokensOf source.toList := rfl

/-! ### Texts in parts -/

theorem tokensOf_nil : tokensOf [] = [] := by
  rw [tokensOf, lexemesFrom, List.map_nil]

theorem tokensOf_append {d : Char} (hd : isDelimiter d = true) (cs ds : List Char) :
    tokensOf (cs ++ d :: ds) = tokensOf cs ++ tokensOf (d :: ds) := by
  rw [tokensOf, lexemesFrom_append hd, List.map_append, token_lexemesFrom, token_lexemesFrom]

theorem tokensOf_blank {c : Char} (hn : c ≠ '\n') (hc : isBlank c = true) (cs : List Char) :
    tokensOf (c :: cs) = tokensOf cs := by
  rw [tokensOf, lexemesFrom, if_neg hn, if_pos hc, tokensOf]

theorem tokensOf_cons {c : Char} (hn : c ≠ '\n') (hc : isBlank c = false) (cs : List Char) :
    tokensOf (c :: cs) = (readToken c cs).1 :: tokensOf (readToken c cs).2 := by
  rw [tokensOf, lexemesFrom, if_neg hn, if_neg (by simp [hc]), List.map_cons, token_lexemesFrom]

/-- A character that is a token by itself, whatever comes after it. -/
def isSign (c : Char) : Bool :=
  c ∈ ['+', '-', '*', '/', '<', '>', ',', ';', '(', ')', '\x7b', '\x7d']

theorem tokensOf_sign {c : Char} (hc : isSign c = true) (cs : List Char) :
    tokensOf (c :: cs) = Token.ofSymbol c :: tokensOf cs := by
  have hread : c ≠ '\n' ∧ isBlank c = false ∧ readToken c cs = (Token.ofSymbol c, cs) := by
    simp only [isSign, decide_eq_true_eq, List.mem_cons, List.not_mem_nil, or_false] at hc
    rcases hc with rfl | rfl | rfl | rfl | rfl | rfl | rfl | rfl | rfl | rfl | rfl | rfl <;>
      exact ⟨by decide, by decide, rfl⟩
  rw [tokensOf_cons hread.1 hread.2.1, hread.2.2]

/-! ### Tokens that the lexer makes -/

def IsName (name : String) : Prop :=
  ∃ c cs, name.toList = c :: cs ∧ isNameStart c = true ∧ (∀ d ∈ cs, isNamePart d = true) ∧
    Token.ofWord name = .identifier name

def IsNumeral (text : String) : Prop :=
  ∃ c cs, text.toList = c :: cs ∧ c.isDigit = true ∧ ∀ d ∈ cs, d.isDigit = true

/-- The tokens that the lexer makes, as far as names and numerals are concerned. -/
def Token.Emitted : Token → Prop
  | .integer text => IsNumeral text
  | .identifier name => IsName name
  | _ => True

/-- The letters and the underscore come after the digits. -/
theorem isDigit_of_isNameStart {c : Char} (hc : isNameStart c = true) : c.isDigit = false := by
  rw [isNameStart, Bool.or_eq_true, decide_eq_true_eq] at hc
  rcases hc with hletter | rfl
  · rw [Bool.eq_false_iff, ne_eq, Char.isDigit_iff_toNat]
    rintro ⟨-, hd⟩
    have hcase : (c.isUpper || c.isLower) = true := hletter
    rcases (Bool.or_eq_true_iff ..).mp hcase with hu | hl
    · have hA : 'A'.toNat ≤ c.toNat := (of_decide_eq_true hu).1
      exact absurd (hA.trans hd) (by decide)
    · have ha : 'a'.toNat ≤ c.toNat := of_decide_eq_true ((Bool.and_eq_true_iff ..).mp hl).1
      exact absurd (ha.trans hd) (by decide)
  · rfl

theorem isNamePart_of_isNameStart {c : Char} (hc : isNameStart c = true) : isNamePart c = true := by
  rw [isNameStart, Bool.or_eq_true] at hc
  rw [isNamePart, Char.isAlphanum, Bool.or_eq_true, Bool.or_eq_true]
  exact hc.imp_left Or.inl

theorem not_blank_of_isNamePart {c : Char} (hc : isNamePart c = true) :
    c ≠ '\n' ∧ isBlank c = false := by
  refine ⟨?_, ?_⟩
  · rintro rfl
    exact absurd hc (by decide)
  · cases hb : isBlank c with
    | false => rfl
    | true =>
      simp only [isBlank, Bool.or_eq_true, decide_eq_true_eq] at hb
      rcases hb with ((rfl | rfl) | rfl) | rfl <;> exact absurd hc (by decide)

theorem emitted_ofWord {c : Char} {cs : List Char} (hc : isNameStart c = true)
    (hcs : ∀ d ∈ cs, isNamePart d = true) : (Token.ofWord (String.ofList (c :: cs))).Emitted := by
  by_cases hw : Token.ofWord (String.ofList (c :: cs)) = .identifier (String.ofList (c :: cs))
  · rw [hw]
    exact ⟨c, cs, String.toList_ofList, hc, hcs, hw⟩
  · generalize String.ofList (c :: cs) = word at hw ⊢
    unfold Token.ofWord at hw ⊢
    split
    all_goals first | trivial | skip
    simp at hw

theorem emitted_readToken (c : Char) (cs : List Char) : (readToken c cs).1.Emitted := by
  unfold readToken
  split
  · next hc => exact ⟨c, _, String.toList_ofList, hc, fun _ => List.mem_takeWhile_imp⟩
  · split
    · next hc => exact emitted_ofWord hc fun _ => List.mem_takeWhile_imp
    · split
      · trivial
      · trivial
      · unfold Token.ofSymbol
        split <;> trivial

/-- **The lexer makes names and numerals only as they should be.** -/
theorem emitted_lexemesFrom (line : Nat) (cs : List Char) :
    ∀ l ∈ lexemesFrom line cs, l.token.Emitted := by
  induction line, cs using lexemesFrom.induct with
  | case1 line =>
    rw [lexemesFrom]
    simp
  | case2 line cs ih =>
    rw [lexemesFrom, if_pos rfl]
    exact ih
  | case3 line c cs hc hb ih =>
    rw [lexemesFrom, if_neg hc, if_pos hb]
    exact ih
  | case4 line c cs hc hb ih =>
    rw [lexemesFrom, if_neg hc, if_neg hb]
    exact List.forall_mem_cons.mpr ⟨emitted_readToken c cs, ih⟩

/-! ### Tokens as they are spelled -/

def isSpace (c : Char) : Bool :=
  c = '\n' || isBlank c

theorem isSpace_of_isNamePart {c : Char} (hc : isNamePart c = true) : isSpace c = false := by
  obtain ⟨hn, hb⟩ := not_blank_of_isNamePart hc
  simp [isSpace, hn, hb]

namespace Token

/-- The token would be a longer one if this character came next. -/
def goesOnWith : Token → Char → Bool
  | .integer _, d => d.isDigit
  | .identifier _, d | .trueWord, d | .falseWord, d | .letWord, d | .fnWord, d | .ifWord, d
  | .elseWord, d | .returnWord, d => isNamePart d
  | .assign, d | .bang, d => d = '='
  | _, _ => false

/-- The token is as long as it can be where the text goes on like this. -/
def EndsBefore (t : Token) (rest : List Char) : Prop :=
  ∀ d ∈ rest.head?, t.goesOnWith d = false

/-- The ways in which a token is spelled, by the first character and the others. -/
inductive Spelling : Token → Char → List Char → Prop where
  | numeral {c : Char} {cs : List Char} : c.isDigit = true → (∀ d ∈ cs, d.isDigit = true) →
      Spelling (.integer (String.ofList (c :: cs))) c cs
  | word {c : Char} {cs : List Char} : isNameStart c = true → (∀ d ∈ cs, isNamePart d = true) →
      Spelling (ofWord (String.ofList (c :: cs))) c cs
  | symbol {c : Char} : c.isDigit = false → isNameStart c = false → isSpace c = false →
      Spelling (ofSymbol c) c []
  | equal : Spelling .equal '=' ['=']
  | notEqual : Spelling .notEqual '!' ['=']

theorem goesOnWith_ofWord (name : String) (d : Char) :
    (ofWord name).goesOnWith d = isNamePart d := by
  unfold ofWord
  split <;> rfl

theorem goesOnWith_ofSymbol (c d : Char) :
    (ofSymbol c).goesOnWith d = ((c = '=' || c = '!') && d = '=') := by
  unfold ofSymbol
  split
  all_goals first
    | rfl
    | simp_all [goesOnWith]

theorem Spelling.isSpace_first {t : Token} {c : Char} {cs : List Char} (h : t.Spelling c cs) :
    isSpace c = false := by
  cases h with
  | numeral hc _ => exact isSpace_of_isNamePart (isNamePart_of_isDigit hc)
  | word hc _ => exact isSpace_of_isNamePart (isNamePart_of_isNameStart hc)
  | symbol _ _ hs => exact hs
  | equal => rfl
  | notEqual => rfl

theorem Spelling.isSpace_of_mem {t : Token} {c : Char} {cs : List Char} (h : t.Spelling c cs) :
    ∀ d ∈ cs, isSpace d = false := by
  cases h with
  | numeral _ hcs => exact fun d hd => isSpace_of_isNamePart (isNamePart_of_isDigit (hcs d hd))
  | word _ hcs => exact fun d hd => isSpace_of_isNamePart (hcs d hd)
  | symbol _ _ _ => simp
  | equal => exact List.forall_mem_singleton.mpr rfl
  | notEqual => exact List.forall_mem_singleton.mpr rfl

theorem takeWhile_dropWhile_append {p : Char → Bool} {cs rest : List Char}
    (hcs : ∀ d ∈ cs, p d = true) (hrest : ∀ d ∈ rest.head?, p d = false) :
    (cs ++ rest).takeWhile p = cs ∧ (cs ++ rest).dropWhile p = rest := by
  rw [List.takeWhile_append_of_pos hcs, List.dropWhile_append_of_pos hcs]
  cases rest with
  | nil => simp
  | cons d rest => simp [hrest d rfl]

/-- **The lexer reads what is spelled** where it ends. -/
theorem Spelling.readToken_append {t : Token} {c : Char} {cs rest : List Char}
    (h : t.Spelling c cs) (hend : t.EndsBefore rest) : readToken c (cs ++ rest) = (t, rest) := by
  cases h with
  | numeral hc hcs =>
    obtain ⟨htake, hdrop⟩ := takeWhile_dropWhile_append hcs hend
    unfold readToken
    rw [if_pos hc, htake, hdrop]
  | word hc hcs =>
    obtain ⟨htake, hdrop⟩ := takeWhile_dropWhile_append hcs fun d hd =>
      (goesOnWith_ofWord _ d).symm.trans (hend d hd)
    have hdigit := isDigit_of_isNameStart hc
    unfold readToken
    rw [if_neg (by simp [hdigit]), if_pos hc, htake, hdrop]
  | symbol hd hn hs =>
    unfold readToken
    rw [List.nil_append, if_neg (by simp [hd]), if_neg (by simp [hn])]
    split
    · exact absurd (hend _ rfl) (by decide)
    · exact absurd (hend _ rfl) (by decide)
    · rfl
  | equal => rfl
  | notEqual => rfl

theorem head?_dropWhile {p : Char → Bool} (cs : List Char) :
    ∀ d ∈ (cs.dropWhile p).head?, p d = false := by
  intro d hd
  have hhead := List.head?_dropWhile_not p cs
  rw [Option.mem_def.mp hd] at hhead
  simpa using hhead

/-- **What the lexer reads is spelled**, and ends where the rest begins. -/
theorem spelling_readToken {c : Char} (hs : isSpace c = false) (cs : List Char) :
    ∃ text, cs = text ++ (readToken c cs).2 ∧ (readToken c cs).1.Spelling c text ∧
      (readToken c cs).1.EndsBefore (readToken c cs).2 := by
  unfold readToken
  split
  · next hd =>
    refine ⟨_, List.takeWhile_append_dropWhile.symm, .numeral hd ?_, head?_dropWhile cs⟩
    exact fun _ => List.mem_takeWhile_imp
  · next hd =>
    split
    · next hn =>
      refine ⟨_, List.takeWhile_append_dropWhile.symm, .word hn ?_, fun d hd => ?_⟩
      · exact fun _ => List.mem_takeWhile_imp
      · exact (goesOnWith_ofWord _ d).trans (head?_dropWhile cs d hd)
    · next hn =>
      split
      · exact ⟨_, rfl, .equal, fun _ _ => rfl⟩
      · exact ⟨_, rfl, .notEqual, fun _ _ => rfl⟩
      · next hequal hnotEqual =>
        refine ⟨[], rfl, .symbol (by simpa using hd) (by simpa using hn) hs, fun d hd => ?_⟩
        obtain ⟨tl, rfl⟩ := List.head?_eq_some_iff.mp hd
        rw [goesOnWith_ofSymbol]
        by_contra hgoes
        rw [Bool.not_eq_false, Bool.and_eq_true, Bool.or_eq_true] at hgoes
        simp only [decide_eq_true_eq] at hgoes
        obtain ⟨rfl | rfl, rfl⟩ := hgoes
        · exact hequal tl rfl rfl
        · exact hnotEqual tl rfl rfl

/-- A token is told by its spelling. -/
theorem Spelling.unique {t u : Token} {c : Char} {cs : List Char} (ht : t.Spelling c cs)
    (hu : u.Spelling c cs) : u = t := by
  have htend : t.EndsBefore [] := by simp [EndsBefore]
  have huend : u.EndsBefore [] := by simp [EndsBefore]
  exact (Prod.mk.inj ((hu.readToken_append huend).symm.trans (ht.readToken_append htend))).1

end Token

theorem lexemesFrom_spelling {t : Token} {c : Char} {cs rest : List Char} (h : t.Spelling c cs)
    (hend : t.EndsBefore rest) (line : Nat) :
    lexemesFrom line (c :: cs ++ rest) = ⟨t, line⟩ :: lexemesFrom line rest := by
  have hs := h.isSpace_first
  simp only [isSpace, Bool.or_eq_false_iff, decide_eq_false_iff_not] at hs
  rw [List.cons_append, lexemesFrom, if_neg hs.1, if_neg (by simp [hs.2]),
    h.readToken_append hend]

/-! ### Names and numerals by themselves -/

theorem lexemesFrom_of_spelling {t : Token} {c : Char} {cs : List Char} (h : t.Spelling c cs)
    (line : Nat) : lexemesFrom line (c :: cs) = [⟨t, line⟩] := by
  have hend : t.EndsBefore [] := by simp [Token.EndsBefore]
  have hnil : lexemesFrom line [] = [] := by rw [lexemesFrom]
  rw [← List.append_nil (c :: cs), lexemesFrom_spelling h hend line, hnil]

theorem tokensOf_spelling {t : Token} {c : Char} {cs : List Char} (h : t.Spelling c cs) :
    tokensOf (c :: cs) = [t] := by
  rw [tokensOf, lexemesFrom_of_spelling h, List.map_singleton]

theorem tokensOf_name {name : String} (h : IsName name) :
    tokensOf name.toList = [.identifier name] := by
  obtain ⟨c, cs, hname, hc, hcs, hword⟩ := h
  have hspelling := Token.Spelling.word hc hcs
  rw [← hname, String.ofList_toList, hword] at hspelling
  rw [hname, tokensOf_spelling hspelling]

theorem tokensOf_numeral {text : String} (h : IsNumeral text) :
    tokensOf text.toList = [.integer text] := by
  obtain ⟨c, cs, htext, hc, hcs⟩ := h
  have hspelling := Token.Spelling.numeral hc hcs
  rw [← htext, String.ofList_toList] at hspelling
  rw [htext, tokensOf_spelling hspelling]

/-! ### The decimal form of a number -/

theorem isNumeral_repr (n : Nat) : IsNumeral n.repr := by
  cases hd : Nat.toDigits 10 n with
  | nil => exact absurd hd Nat.toDigits_ne_nil
  | cons c cs =>
    have hdigit : ∀ d ∈ c :: cs, d.isDigit = true := by
      rw [← hd]
      exact fun d => Nat.isDigit_of_mem_toDigits (by decide) (by decide)
    obtain ⟨hc, hcs⟩ := List.forall_mem_cons.mp hdigit
    exact ⟨c, cs, Nat.toList_repr.trans hd, hc, hcs⟩

namespace Numeral

theorem write_eq {n : Int64} (hn : 0 ≤ n.toInt) : write n = n.toInt.toNat.repr := by
  obtain ⟨k, hk⟩ := Int.eq_ofNat_of_zero_le hn
  rw [write, hk]
  rfl

theorem isNumeral_write {n : Int64} (hn : 0 ≤ n.toInt) : IsNumeral (write n) :=
  write_eq hn ▸ isNumeral_repr _

theorem readSigned_of_isNumeral {text : String} (h : IsNumeral text) :
    readSigned text.toList = some (Nat.ofDigitChars 10 text.toList 0 : Int) := by
  obtain ⟨c, cs, htext, hc, hcs⟩ := h
  have hdigits : readDigits (c :: cs) = some (Nat.ofDigitChars 10 (c :: cs) 0) := by
    rw [readDigits, if_pos]
    simpa [hc] using hcs
  rw [htext, readSigned]
  · rw [hdigits]
    rfl
  · intro _ he
    rw [(List.cons.inj he).1] at hc
    exact absurd hc (by decide)
  · intro _ he
    rw [(List.cons.inj he).1] at hc
    exact absurd hc (by decide)

/-- **The decimal form of a number that is not negative is read as that number.** -/
theorem read_write {n : Int64} (hn : 0 ≤ n.toInt) : read (write n) = some n := by
  have hvalue : (Nat.ofDigitChars 10 (write n).toList 0 : Int) = n.toInt := by
    rw [write_eq hn, Nat.toList_repr, Nat.ofDigitChars_toDigits (by decide) (by decide),
      Int.toNat_of_nonneg hn]
  rw [read, readSigned_of_isNumeral (isNumeral_write hn), hvalue, Option.bind_some, inRange,
    if_pos ⟨Int64.minValue_le_toInt n, Int64.toInt_le n⟩, Int64.ofInt_toInt]

theorem toInt_of_read {text : String} {n : Int64} (h : IsNumeral text)
    (hn : read text = some n) : 0 ≤ n.toInt := by
  rw [read, readSigned_of_isNumeral h, Option.bind_some, inRange] at hn
  split at hn
  · next hrange =>
    obtain rfl := Option.some.inj hn
    rw [Int64.toInt_minValue, Int64.toInt_maxValue] at hrange
    rw [Int64.toInt_ofInt_of_le hrange.1 (by omega)]
    exact Int.natCast_nonneg _
  · simp at hn

end Numeral

end ExprScript
