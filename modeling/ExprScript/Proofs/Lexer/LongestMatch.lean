import ExprScript.Proofs.Lexer.Spelling

/-!
# The rule of the longest match

`Token.Matches` lists, for every token, the texts that it is declared for.  The rule is
the usual one: at every place the longest text that some token matches is taken, a keyword
before a name; blank text is matched and left out, and a character that no token starts
with is a token by itself.  `Lexes` says what the lexemes of a text are by this rule.

A token is the longest match just where it is spelled out and does not go on with what
comes next (`Token.longestMatch_iff`).  So the rule leaves no choice, and the lexer, which
looks at the first character only, does what it says.

* `Token.made_iff`: the tokens that are made by the lexer.
* `Token.Spelling.length_le`: nothing longer than a token matches where it stands.
* `lexes_iff`: the lexemes of a text are those that the rule gives.
-/

namespace ExprScript

namespace Token

/-! ### The rule -/

/-- A token with one spelling: a keyword, an operator or a delimiter. -/
def isFixed : Token → Bool
  | .integer _ | .identifier _ | .newline | .ignored | .illegal _ => false
  | _ => true

/-- The texts that are declared for each token.  A keyword is spelled as a name is, so two
tokens may match one text. -/
inductive Matches : Token → List Char → Prop where
  | integer {cs : List Char} : cs ≠ [] → (∀ d ∈ cs, d.isDigit = true) →
      Matches (.integer (String.ofList cs)) cs
  | identifier {c : Char} {cs : List Char} : isNameStart c = true →
      (∀ d ∈ cs, isNamePart d = true) → Matches (.identifier (String.ofList (c :: cs))) (c :: cs)
  | fixed {t : Token} : t.isFixed = true → Matches t t.text.toList
  | newline : Matches .newline ['\n']
  | ignored {cs : List Char} : cs ≠ [] → (∀ d ∈ cs, isBlank d = true) → Matches .ignored cs

/-- The token has the longest text that any token matches at the front of `text ++ rest`.
Where a name and a keyword match the same text, it is the keyword. -/
structure LongestMatch (t : Token) (text rest : List Char) : Prop where
  matches_text : t.Matches text
  longest : ∀ (u : Token) other, u.Matches other → other <+: text ++ rest → other.length ≤ text.length
  fixed : ∀ u : Token, u.isFixed = true → u.Matches text → u = t

end Token

def IsStray (c : Char) : Prop :=
  ∀ (t : Token) (cs : List Char), ¬ t.Matches (c :: cs)

/-- The lexemes of a text by the rule of the longest match.  Blank text and line feeds are
matched and give nothing, but line feeds are counted; a character at which no token starts
is a token by itself. -/
inductive Lexes : Nat → List Char → List Lexeme → Prop where
  | done {line : Nat} : Lexes line [] []
  | newline {line : Nat} {text rest : List Char} {ls : List Lexeme} :
      Token.newline.LongestMatch text rest → Lexes (line + 1) rest ls →
      Lexes line (text ++ rest) ls
  | ignored {line : Nat} {text rest : List Char} {ls : List Lexeme} :
      Token.ignored.LongestMatch text rest → Lexes line rest ls → Lexes line (text ++ rest) ls
  | token {line : Nat} {t : Token} {text rest : List Char} {ls : List Lexeme} :
      t.LongestMatch text rest → t ≠ .newline → t ≠ .ignored → Lexes line rest ls →
      Lexes line (text ++ rest) (⟨t, line⟩ :: ls)
  | stray {line : Nat} {c : Char} {rest : List Char} {ls : List Lexeme} :
      IsStray c → Lexes line rest ls →
      Lexes line (c :: rest) (⟨.illegal (String.singleton c), line⟩ :: ls)

namespace Token

/-! ### What a match starts with -/

theorem isFixed_ofSymbol {c : Char} (h : (ofSymbol c).isFixed = true) :
    (ofSymbol c).text.toList = [c] ∧ c.isDigit = false ∧ isNameStart c = false ∧
      isSpace c = false := by
  revert h
  unfold ofSymbol
  split
  all_goals first
    | exact fun _ => ⟨rfl, by decide, by decide, by decide⟩
    | exact fun h => absurd h Bool.false_ne_true

/-- What the first character of a text tells about the others where a token matches it. -/
structure Tail (c : Char) (cs : List Char) : Prop where
  digit : c.isDigit = true → ∀ d ∈ cs, d.isDigit = true
  name : isNameStart c = true → ∀ d ∈ cs, isNamePart d = true
  newline : c = '\n' → cs = []
  blank : isBlank c = true → ∀ d ∈ cs, isBlank d = true
  sign : c.isDigit = false → isNameStart c = false → isSpace c = false →
    (ofSymbol c).isFixed = true ∧ (cs = [] ∨ cs = ['='] ∧ (c = '=' ∨ c = '!'))

theorem tail_of_isDigit {c : Char} {cs : List Char} (hc : c.isDigit = true)
    (hcs : ∀ d ∈ cs, d.isDigit = true) : Tail c cs where
  digit _ := hcs
  name hn := by simp [isDigit_of_isNameStart hn] at hc
  newline hn := by simp [hn] at hc
  blank hb := by simp [(not_blank_of_isNamePart (isNamePart_of_isDigit hc)).2] at hb
  sign hd := by simp [hd] at hc

theorem tail_of_isNameStart {c : Char} {cs : List Char} (hc : isNameStart c = true)
    (hcs : ∀ d ∈ cs, isNamePart d = true) : Tail c cs where
  digit hd := by simp [isDigit_of_isNameStart hc] at hd
  name _ := hcs
  newline hn := absurd hn (not_blank_of_isNamePart (isNamePart_of_isNameStart hc)).1
  blank hb := by simp [(not_blank_of_isNamePart (isNamePart_of_isNameStart hc)).2] at hb
  sign _ hn := by simp [hn] at hc

theorem tail_of_isBlank {c : Char} {cs : List Char} (hc : isBlank c = true)
    (hcs : ∀ d ∈ cs, isBlank d = true) : Tail c cs where
  digit hd := by simp [(not_blank_of_isNamePart (isNamePart_of_isDigit hd)).2] at hc
  name hn := by simp [(not_blank_of_isNamePart (isNamePart_of_isNameStart hn)).2] at hc
  newline hn := by simp [hn, isBlank] at hc
  blank _ := hcs
  sign _ _ hs := by simp [isSpace, hc] at hs

theorem Matches.first {t : Token} {text : List Char} (h : t.Matches text) :
    ∃ c cs, text = c :: cs ∧ Tail c cs := by
  cases h with
  | integer hne hcs =>
    obtain ⟨c, cs, rfl⟩ := List.exists_cons_of_ne_nil hne
    obtain ⟨hc, hcs⟩ := List.forall_mem_cons.mp hcs
    exact ⟨c, cs, rfl, tail_of_isDigit hc hcs⟩
  | identifier hc hcs => exact ⟨_, _, rfl, tail_of_isNameStart hc hcs⟩
  | fixed ht =>
    cases t
    all_goals first
      | exact absurd ht Bool.false_ne_true
      | exact ⟨_, _, rfl, tail_of_isNameStart rfl (List.all_eq_true.mp rfl)⟩
      | exact ⟨_, _, rfl, by decide, by decide, by decide, by decide, by decide⟩
  | newline => exact ⟨_, _, rfl, by decide, by decide, by decide, by decide, by decide⟩
  | ignored hne hcs =>
    obtain ⟨c, cs, rfl⟩ := List.exists_cons_of_ne_nil hne
    obtain ⟨hc, hcs⟩ := List.forall_mem_cons.mp hcs
    exact ⟨c, cs, rfl, tail_of_isBlank hc hcs⟩

end Token

theorem isStray_iff {c : Char} : IsStray c ↔ c.isDigit = false ∧ isNameStart c = false ∧
    isSpace c = false ∧ (Token.ofSymbol c).isFixed = false := by
  constructor
  · intro h
    refine ⟨?_, ?_, ?_, ?_⟩
    · by_contra hd
      exact h _ [] (.integer (by simp) (by simpa using hd))
    · by_contra hn
      exact h _ [] (.identifier (by simpa using hn) (by simp))
    · by_contra hs
      rw [Bool.not_eq_false, isSpace, Bool.or_eq_true, decide_eq_true_eq] at hs
      rcases hs with rfl | hb
      · exact h _ [] .newline
      · exact h _ [] (.ignored (by simp) (by simpa using hb))
    · by_contra hf
      rw [Bool.not_eq_false] at hf
      have hmatches := Token.Matches.fixed hf
      rw [(Token.isFixed_ofSymbol hf).1] at hmatches
      exact h _ [] hmatches
  · rintro ⟨hd, hn, hs, hf⟩ t cs h
    obtain ⟨c', cs', hcs, htail⟩ := h.first
    obtain ⟨rfl, rfl⟩ := List.cons.inj hcs
    exact absurd (htail.sign hd hn hs).1 (by simp [hf])

namespace Token

/-! ### Tokens that are made -/

/-- The tokens that the lexer makes: names and numerals as they should be, stray
characters one by one, and nothing that is blank. -/
structure Made (t : Token) : Prop where
  emitted : t.Emitted
  ne_newline : t ≠ .newline
  ne_ignored : t ≠ .ignored
  stray : ∀ text, t = .illegal text → ∃ c, text = String.singleton c ∧ IsStray c

theorem ofWord_cases (name : String) :
    ofWord name = .identifier name ∨ (ofWord name).isFixed = true ∧ (ofWord name).text = name := by
  unfold ofWord
  split
  all_goals first
    | exact Or.inr ⟨rfl, rfl⟩
    | exact Or.inl rfl

theorem ofSymbol_cases (c : Char) :
    ofSymbol c = .illegal (String.singleton c) ∨ (ofSymbol c).isFixed = true := by
  unfold ofSymbol
  split
  all_goals first
    | exact Or.inr rfl
    | exact Or.inl rfl

theorem Spelling.toList_text {t : Token} {c : Char} {cs : List Char} (h : t.Spelling c cs) :
    t.text.toList = c :: cs := by
  cases h with
  | numeral _ _ => exact String.toList_ofList
  | word _ _ =>
    rcases ofWord_cases (String.ofList (c :: cs)) with h | ⟨-, h⟩
    · rw [h]
      exact String.toList_ofList
    · rw [h]
      exact String.toList_ofList
  | symbol _ _ _ =>
    rcases ofSymbol_cases c with h | h
    · rw [h]
      exact String.toList_singleton c
    · exact (isFixed_ofSymbol h).1
  | equal => rfl
  | notEqual => rfl

theorem spelling_of_isFixed {t : Token} (h : t.isFixed = true) : ∃ c cs, t.Spelling c cs := by
  cases t with
  | trueWord => exact ⟨_, _, @Spelling.word 't' ['r', 'u', 'e'] rfl (List.all_eq_true.mp rfl)⟩
  | falseWord => exact ⟨_, _, @Spelling.word 'f' ['a', 'l', 's', 'e'] rfl (List.all_eq_true.mp rfl)⟩
  | letWord => exact ⟨_, _, @Spelling.word 'l' ['e', 't'] rfl (List.all_eq_true.mp rfl)⟩
  | fnWord => exact ⟨_, _, @Spelling.word 'f' ['n'] rfl (List.all_eq_true.mp rfl)⟩
  | ifWord => exact ⟨_, _, @Spelling.word 'i' ['f'] rfl (List.all_eq_true.mp rfl)⟩
  | elseWord => exact ⟨_, _, @Spelling.word 'e' ['l', 's', 'e'] rfl (List.all_eq_true.mp rfl)⟩
  | returnWord =>
    exact ⟨_, _, @Spelling.word 'r' ['e', 't', 'u', 'r', 'n'] rfl (List.all_eq_true.mp rfl)⟩
  | assign => exact ⟨_, _, @Spelling.symbol '=' rfl rfl rfl⟩
  | plus => exact ⟨_, _, @Spelling.symbol '+' rfl rfl rfl⟩
  | minus => exact ⟨_, _, @Spelling.symbol '-' rfl rfl rfl⟩
  | star => exact ⟨_, _, @Spelling.symbol '*' rfl rfl rfl⟩
  | slash => exact ⟨_, _, @Spelling.symbol '/' rfl rfl rfl⟩
  | bang => exact ⟨_, _, @Spelling.symbol '!' rfl rfl rfl⟩
  | less => exact ⟨_, _, @Spelling.symbol '<' rfl rfl rfl⟩
  | greater => exact ⟨_, _, @Spelling.symbol '>' rfl rfl rfl⟩
  | equal => exact ⟨_, _, .equal⟩
  | notEqual => exact ⟨_, _, .notEqual⟩
  | comma => exact ⟨_, _, @Spelling.symbol ',' rfl rfl rfl⟩
  | semicolon => exact ⟨_, _, @Spelling.symbol ';' rfl rfl rfl⟩
  | leftParen => exact ⟨_, _, @Spelling.symbol '(' rfl rfl rfl⟩
  | rightParen => exact ⟨_, _, @Spelling.symbol ')' rfl rfl rfl⟩
  | leftBrace => exact ⟨_, _, @Spelling.symbol '\x7b' rfl rfl rfl⟩
  | rightBrace => exact ⟨_, _, @Spelling.symbol '\x7d' rfl rfl rfl⟩
  | _ => exact absurd h Bool.false_ne_true

theorem made_of_isFixed {t : Token} (h : t.isFixed = true) : t.Made := by
  refine ⟨?_, ?_, ?_, ?_⟩
  · cases t with
    | integer text => exact absurd h Bool.false_ne_true
    | identifier name => exact absurd h Bool.false_ne_true
    | _ => trivial
  · rintro rfl
    exact absurd h Bool.false_ne_true
  · rintro rfl
    exact absurd h Bool.false_ne_true
  · rintro text rfl
    exact absurd h Bool.false_ne_true

theorem made_iff {t : Token} : t.Made ↔ ∃ c cs, t.Spelling c cs := by
  constructor
  · intro h
    cases hf : t.isFixed with
    | true => exact spelling_of_isFixed hf
    | false =>
      cases t with
      | integer text =>
        obtain ⟨c, cs, htext, hc, hcs⟩ := h.emitted
        obtain rfl : text = String.ofList (c :: cs) := by rw [← htext, String.ofList_toList]
        exact ⟨c, cs, .numeral hc hcs⟩
      | identifier name =>
        obtain ⟨c, cs, hname, hc, hcs, hword⟩ := h.emitted
        rw [← hword]
        obtain rfl : name = String.ofList (c :: cs) := by rw [← hname, String.ofList_toList]
        exact ⟨c, cs, .word hc hcs⟩
      | illegal text =>
        obtain ⟨c, rfl, hc⟩ := h.stray text rfl
        obtain ⟨hd, hn, hs, hsign⟩ := isStray_iff.mp hc
        rw [← (ofSymbol_cases c).resolve_right (by simp [hsign])]
        exact ⟨c, [], .symbol hd hn hs⟩
      | newline => exact absurd rfl h.ne_newline
      | ignored => exact absurd rfl h.ne_ignored
      | _ => exact absurd hf Bool.true_eq_false.mp
  · rintro ⟨c, cs, h⟩
    cases h with
    | numeral hc hcs =>
      exact ⟨⟨c, cs, String.toList_ofList, hc, hcs⟩, by simp, by simp, by simp⟩
    | word hc hcs =>
      rcases ofWord_cases (String.ofList (c :: cs)) with hw | ⟨hf, -⟩
      · have he := emitted_ofWord hc hcs
        rw [hw] at he ⊢
        exact ⟨he, by simp, by simp, by simp⟩
      · exact made_of_isFixed hf
    | symbol hd hn hs =>
      rcases ofSymbol_cases c with hw | hf
      · have hc : IsStray c := isStray_iff.mpr ⟨hd, hn, hs, by rw [hw]; rfl⟩
        rw [hw]
        refine ⟨trivial, by simp, by simp, fun text ht => ⟨c, ?_, hc⟩⟩
        exact (Token.illegal.inj ht).symm
      · exact made_of_isFixed hf
    | equal => exact made_of_isFixed rfl
    | notEqual => exact made_of_isFixed rfl

/-! ### The longest match -/

theorem length_le_of_prefix {p : Char → Bool} {text other rest : List Char}
    (hother : ∀ d ∈ other, p d = true) (hrest : ∀ d ∈ rest.head?, p d = false)
    (hp : other <+: text ++ rest) : other.length ≤ text.length := by
  by_contra hlt
  obtain ⟨more, rfl⟩ := List.prefix_of_prefix_length_le (List.prefix_append text rest) hp
    (Nat.le_of_not_le hlt)
  have hmore := (List.prefix_append_right_inj text).mp hp
  cases more with
  | nil => simp at hlt
  | cons d more =>
    obtain ⟨tl, rfl⟩ := hmore
    have hd := hrest d rfl
    rw [hother d (by simp)] at hd
    exact Bool.noConfusion hd

/-- **Nothing longer than what is spelled matches** in front of where it ends. -/
theorem Spelling.length_le {t u : Token} {c : Char} {cs rest other : List Char}
    (h : t.Spelling c cs) (hend : t.EndsBefore rest) (hu : u.Matches other)
    (hother : other <+: c :: cs ++ rest) : other.length ≤ (c :: cs).length := by
  obtain ⟨c', cs', rfl, htail⟩ := hu.first
  obtain ⟨rfl, hp⟩ := List.cons_prefix_cons.mp hother
  refine Nat.succ_le_succ ?_
  cases h with
  | numeral hc _ => exact length_le_of_prefix (htail.digit hc) hend hp
  | word hc _ =>
    refine length_le_of_prefix (htail.name hc) (fun d hd => ?_) hp
    exact (goesOnWith_ofWord _ d).symm.trans (hend d hd)
  | symbol hd hn hs =>
    rcases (htail.sign hd hn hs).2 with rfl | ⟨rfl, hc⟩
    · exact Nat.le_refl 0
    · obtain ⟨tl, htl⟩ := hp
      obtain rfl : '=' :: tl = rest := htl
      have hgoes := hend '=' rfl
      rw [goesOnWith_ofSymbol] at hgoes
      rcases hc with rfl | rfl <;> exact absurd hgoes (by decide)
  | equal =>
    rcases (htail.sign (by decide) (by decide) (by decide)).2 with rfl | ⟨rfl, -⟩
    · exact Nat.zero_le 1
    · exact Nat.le_refl 1
  | notEqual =>
    rcases (htail.sign (by decide) (by decide) (by decide)).2 with rfl | ⟨rfl, -⟩
    · exact Nat.zero_le 1
    · exact Nat.le_refl 1

/-- Where a token goes on, more of the text can be matched. -/
theorem Spelling.matches_longer {t : Token} {c d : Char} {cs : List Char} (h : t.Spelling c cs)
    (hd : t.goesOnWith d = true) : ∃ u : Token, u.Matches (c :: cs ++ [d]) := by
  cases h with
  | numeral hc hcs =>
    refine ⟨_, .integer (by simp) fun x hx => ?_⟩
    have hall : ∀ x ∈ c :: cs, x.isDigit = true := List.forall_mem_cons.mpr ⟨hc, hcs⟩
    rcases List.mem_append.mp hx with hx | hx
    · exact hall x hx
    · rwa [List.mem_singleton.mp hx]
  | word hc hcs =>
    rw [goesOnWith_ofWord] at hd
    refine ⟨_, .identifier hc fun x hx => ?_⟩
    rcases List.mem_append.mp hx with hx | hx
    · exact hcs x hx
    · rwa [List.mem_singleton.mp hx]
  | symbol _ _ _ =>
    rw [goesOnWith_ofSymbol, Bool.and_eq_true, Bool.or_eq_true] at hd
    simp only [decide_eq_true_eq] at hd
    obtain ⟨rfl | rfl, rfl⟩ := hd
    · exact ⟨.equal, .fixed rfl⟩
    · exact ⟨.notEqual, .fixed rfl⟩
  | equal => exact absurd hd Bool.false_ne_true
  | notEqual => exact absurd hd Bool.false_ne_true

theorem spelling_of_matches {u : Token} {c : Char} {cs : List Char} (hf : u.isFixed = true)
    (hu : u.Matches (c :: cs)) : u.Spelling c cs := by
  obtain ⟨c', cs', hspelling⟩ := spelling_of_isFixed hf
  have htext := hspelling.toList_text
  generalize htext' : c :: cs = text at hu
  cases hu with
  | fixed _ =>
    obtain ⟨rfl, rfl⟩ := List.cons.inj (htext'.trans htext)
    exact hspelling
  | _ => exact absurd hf Bool.false_ne_true

theorem Spelling.matches_text {t : Token} {c : Char} {cs : List Char} (h : t.Spelling c cs)
    (hs : ∀ text, t ≠ .illegal text) : t.Matches (c :: cs) := by
  cases hf : t.isFixed with
  | true =>
    rw [← h.toList_text]
    exact .fixed hf
  | false =>
    cases h with
    | numeral hc hcs =>
      exact .integer (List.cons_ne_nil _ _) (List.forall_mem_cons.mpr ⟨hc, hcs⟩)
    | word hc hcs =>
      have hword := (ofWord_cases (String.ofList (c :: cs))).resolve_right fun h =>
        absurd (hf.symm.trans h.1) Bool.false_ne_true
      rw [hword]
      exact .identifier hc hcs
    | symbol _ _ _ => exact absurd ((ofSymbol_cases c).resolve_right (by simp [hf])) (hs _)
    | equal => exact absurd hf Bool.noConfusion
    | notEqual => exact absurd hf Bool.noConfusion

/-- **The rule, token by token.**  A token is the longest match where it is spelled out and
ends. -/
theorem longestMatch_iff {t : Token} (hn : t ≠ .newline) (hi : t ≠ .ignored)
    (hs : ∀ text, t ≠ .illegal text) {text rest : List Char} : t.LongestMatch text rest ↔
      (∃ c cs, text = c :: cs ∧ t.Spelling c cs) ∧ t.EndsBefore rest := by
  constructor
  · intro h
    have hspelled : ∃ c cs, text = c :: cs ∧ t.Spelling c cs := by
      have hm := h.matches_text
      cases hm with
      | integer hne hcs =>
        obtain ⟨c, cs, rfl⟩ := List.exists_cons_of_ne_nil hne
        obtain ⟨hc, hcs⟩ := List.forall_mem_cons.mp hcs
        exact ⟨c, cs, rfl, .numeral hc hcs⟩
      | @identifier c cs hc hcs =>
        have hword := Spelling.word hc hcs
        rcases ofWord_cases (String.ofList (c :: cs)) with hw | ⟨hf, htext⟩
        · rw [hw] at hword
          exact ⟨c, cs, rfl, hword⟩
        · -- a keyword would have been taken
          have hm := Matches.fixed hf
          rw [hword.toList_text] at hm
          have hw := h.fixed _ hf hm
          rw [hw] at hf
          exact absurd hf Bool.false_ne_true
      | fixed hf =>
        obtain ⟨c, cs, hspelling⟩ := spelling_of_isFixed hf
        exact ⟨c, cs, hspelling.toList_text, hspelling⟩
      | newline => exact absurd rfl hn
      | ignored _ _ => exact absurd rfl hi
    refine ⟨hspelled, fun d hd => ?_⟩
    obtain ⟨c, cs, rfl, hspelling⟩ := hspelled
    obtain ⟨tl, rfl⟩ := List.head?_eq_some_iff.mp hd
    by_contra hgoes
    obtain ⟨u, hu⟩ := hspelling.matches_longer (Bool.not_eq_false _ ▸ hgoes)
    have hle := h.longest u _ hu ⟨tl, by simp⟩
    rw [List.length_append, List.length_singleton] at hle
    omega
  · rintro ⟨⟨c, cs, rfl, h⟩, hend⟩
    exact ⟨h.matches_text hs, fun u other hu hp => h.length_le hend hu hp,
      fun u hf hu => h.unique (spelling_of_matches hf hu)⟩

end Token

/-! ### All lexemes of a text -/

theorem lexemesFrom_blank (line : Nat) {cs : List Char} (hcs : ∀ d ∈ cs, isBlank d = true)
    (rest : List Char) : lexemesFrom line (cs ++ rest) = lexemesFrom line rest := by
  induction cs with
  | nil => rfl
  | cons c cs ih =>
    obtain ⟨hc, hcs⟩ := List.forall_mem_cons.mp hcs
    have hn : c ≠ '\n' := by
      rintro rfl
      exact absurd hc (by decide)
    rw [List.cons_append, lexemesFrom, if_neg hn, if_pos hc, ih hcs]

theorem lexemesFrom_newline (line : Nat) (rest : List Char) :
    lexemesFrom line ('\n' :: rest) = lexemesFrom (line + 1) rest := by
  rw [lexemesFrom, if_pos rfl]

theorem Lexes.eq_lexemesFrom {line : Nat} {cs : List Char} {ls : List Lexeme}
    (h : Lexes line cs ls) : lexemesFrom line cs = ls := by
  induction h with
  | done => rw [lexemesFrom]
  | @newline line text rest ls hm _ ih =>
    have htext := hm.matches_text
    cases htext with
    | newline => exact (lexemesFrom_newline line rest).trans ih
    | fixed hf => exact absurd hf Bool.false_ne_true
  | @ignored line text rest ls hm _ ih =>
    have htext := hm.matches_text
    cases htext with
    | ignored _ hblank => exact (lexemesFrom_blank line hblank rest).trans ih
    | fixed hf => exact absurd hf Bool.false_ne_true
  | @token line t text rest ls hm hn hi _ ih =>
    have hs : ∀ text, t ≠ .illegal text := by
      rintro _ rfl
      have htext := hm.matches_text
      cases htext with
      | fixed hf => exact absurd hf Bool.false_ne_true
    obtain ⟨⟨c, cs, rfl, hspelling⟩, hend⟩ := (Token.longestMatch_iff hn hi hs).mp hm
    rw [lexemesFrom_spelling hspelling hend, ih]
  | @stray line c rest ls hc _ ih =>
    obtain ⟨hd, hn, hs, hf⟩ := isStray_iff.mp hc
    have hsign := (Token.ofSymbol_cases c).resolve_right (by simp [hf])
    have hspelling := Token.Spelling.symbol hd hn hs
    rw [hsign] at hspelling
    have hend : (Token.illegal c.toString).EndsBefore rest := fun _ _ => rfl
    have hread := lexemesFrom_spelling hspelling hend line
    rwa [ih] at hread

theorem Token.longestMatch_newline (rest : List Char) :
    Token.newline.LongestMatch ['\n'] rest := by
  refine ⟨.newline, fun u other hu hp => ?_, fun u hf hu => ?_⟩
  · obtain ⟨c, cs, rfl, htail⟩ := hu.first
    obtain ⟨rfl, -⟩ := List.cons_prefix_cons.mp hp
    rw [htail.newline rfl]
  · exact absurd (spelling_of_matches hf hu).isSpace_first (by decide)

theorem Token.longestMatch_ignored {c : Char} {cs rest : List Char} (hc : isBlank c = true)
    (hcs : ∀ d ∈ cs, isBlank d = true) (hrest : ∀ d ∈ rest.head?, isBlank d = false) :
    Token.ignored.LongestMatch (c :: cs) rest := by
  have hall : ∀ d ∈ c :: cs, isBlank d = true := List.forall_mem_cons.mpr ⟨hc, hcs⟩
  refine ⟨.ignored (List.cons_ne_nil _ _) hall, fun u other hu hp => ?_, fun u hf hu => ?_⟩
  · obtain ⟨c', cs', rfl, htail⟩ := hu.first
    obtain ⟨rfl, -⟩ := List.cons_prefix_cons.mp hp
    exact length_le_of_prefix (List.forall_mem_cons.mpr ⟨hc, htail.blank hc⟩) hrest hp
  · exact absurd (spelling_of_matches hf hu).isSpace_first (by simp [isSpace, hc])

theorem Token.Spelling.isStray {text : String} {c : Char} {cs : List Char}
    (h : (Token.illegal text).Spelling c cs) : text = String.singleton c ∧ cs = [] ∧ IsStray c := by
  obtain ⟨c', htext, hc'⟩ := (made_iff.mpr ⟨c, cs, h⟩).stray text rfl
  have hchars : text.toList = c :: cs := h.toList_text
  rw [htext, String.toList_singleton] at hchars
  obtain ⟨rfl, rfl⟩ := List.cons.inj hchars
  exact ⟨htext, rfl, hc'⟩

theorem lexes_lexemesFrom (line : Nat) (cs : List Char) : Lexes line cs (lexemesFrom line cs) := by
  -- induction on what is left of the text, which each match makes shorter
  induction hk : cs.length using Nat.strongRecOn generalizing line cs with
  | ind k ih =>
    subst hk
    cases cs with
    | nil =>
      rw [lexemesFrom]
      exact .done
    | cons c cs =>
      cases hs : isSpace c with
      | true =>
        rw [isSpace, Bool.or_eq_true, decide_eq_true_eq] at hs
        rcases hs with rfl | hb
        · rw [lexemesFrom_newline]
          have hrest := ih cs.length (Nat.lt_succ_self _) (line + 1) cs rfl
          exact .newline (Token.longestMatch_newline cs) hrest
        · have hblank : ∀ d ∈ cs.takeWhile isBlank, isBlank d = true :=
            fun _ => List.mem_takeWhile_imp
          have hmatch := Token.longestMatch_ignored hb hblank (Token.head?_dropWhile cs)
          have hlt : (cs.dropWhile isBlank).length < (c :: cs).length :=
            Nat.lt_succ_of_le (List.dropWhile_sublist _).length_le
          have hlexes := Lexes.ignored hmatch (ih _ hlt line _ rfl)
          rw [← lexemesFrom_blank line (List.forall_mem_cons.mpr ⟨hb, hblank⟩)] at hlexes
          rwa [List.cons_append, List.takeWhile_append_dropWhile] at hlexes
      | false =>
        obtain ⟨text, hcs, hspelling, hend⟩ := Token.spelling_readToken hs cs
        generalize readToken c cs = r at hcs hspelling hend
        obtain ⟨t, rest⟩ := r
        subst hcs
        have hlt : rest.length < (c :: (text ++ rest)).length := by
          rw [List.length_cons, List.length_append]
          omega
        have hrest := ih _ hlt line _ rfl
        rw [← List.cons_append, lexemesFrom_spelling hspelling hend]
        by_cases hill : ∃ text, t = .illegal text
        · obtain ⟨_, rfl⟩ := hill
          obtain ⟨rfl, rfl, hc⟩ := hspelling.isStray
          exact .stray hc hrest
        · have hmade := Token.made_iff.mpr ⟨c, text, hspelling⟩
          have hmatch := (Token.longestMatch_iff hmade.ne_newline hmade.ne_ignored
            fun text ht => hill ⟨text, ht⟩).mpr ⟨⟨c, text, rfl, hspelling⟩, hend⟩
          exact .token hmatch hmade.ne_newline hmade.ne_ignored hrest

/-- **The lexer follows the rule of the longest match**, and the rule leaves no choice. -/
theorem lexes_iff {line : Nat} {cs : List Char} {ls : List Lexeme} :
    Lexes line cs ls ↔ lexemesFrom line cs = ls :=
  ⟨Lexes.eq_lexemesFrom, fun h => h ▸ lexes_lexemesFrom line cs⟩

end ExprScript
