import ExprScript.Proofs.Lexer.LongestMatch

/-!
# Where lexemes stand

Nothing but blanks is between the lexemes of a text, so each of them has its place: behind
a part of the text of which the lexemes before it are made (`Stands`).  Its line is told by
the line feeds in that part, and it is the longest match there.

* `lexemesFrom_induction`: induction along the lexemes of a text.
* `exists_stands`: every lexeme stands somewhere.
* `tokenize_longest_match`: all that the lexer promises of a program text.
-/

namespace ExprScript

/-- The characters of a text that are not between tokens. -/
def unspaced (cs : List Char) : List Char :=
  cs.filter fun c => !isSpace c

def charsOf (ls : List Lexeme) : List Char :=
  ls.flatMap fun l => l.token.text.toList

theorem unspaced_append (cs ds : List Char) : unspaced (cs ++ ds) = unspaced cs ++ unspaced ds :=
  List.filter_append ..

theorem Token.Spelling.unspaced_eq {t : Token} {c : Char} {cs : List Char} (h : t.Spelling c cs) :
    unspaced (c :: cs) = c :: cs := by
  refine List.filter_eq_self.mpr (List.forall_mem_cons.mpr ⟨?_, fun d hd => ?_⟩)
  · rw [h.isSpace_first]
    rfl
  · rw [h.isSpace_of_mem d hd]
    rfl

theorem Token.Spelling.count_newline {t : Token} {c : Char} {cs : List Char}
    (h : t.Spelling c cs) : (c :: cs).count '\n' = 0 := by
  refine List.count_eq_zero.mpr fun hmem => ?_
  have hall : ∀ d ∈ c :: cs, isSpace d = false :=
    List.forall_mem_cons.mpr ⟨h.isSpace_first, h.isSpace_of_mem⟩
  exact absurd (hall _ hmem) (by decide)

/-- Along the lexemes of a text: what holds at the end of a text, and in front of a line
feed, a blank or a token that ends there, holds of every text. -/
theorem lexemesFrom_induction {motive : Nat → List Char → List Lexeme → Prop}
    (nil : ∀ line, motive line [] [])
    (newline : ∀ line rest ls, motive (line + 1) rest ls → motive line ('\n' :: rest) ls)
    (blank : ∀ line c rest ls, c ≠ '\n' → isSpace c = true → motive line rest ls →
      motive line (c :: rest) ls)
    (token : ∀ line (t : Token) c cs rest ls, t.Spelling c cs → t.EndsBefore rest →
      motive line rest ls → motive line (c :: cs ++ rest) (⟨t, line⟩ :: ls))
    (line : Nat) (cs : List Char) : motive line cs (lexemesFrom line cs) := by
  induction line, cs using lexemesFrom.induct with
  | case1 line =>
    rw [lexemesFrom]
    exact nil line
  | case2 line cs ih =>
    rw [lexemesFrom_newline]
    exact newline line cs _ ih
  | case3 line c cs hn hb ih =>
    rw [lexemesFrom, if_neg hn, if_pos hb]
    exact blank line c cs _ hn (by simp [isSpace, hb]) ih
  | case4 line c cs hn hb ih =>
    have hs : isSpace c = false := by simp [isSpace, hn, hb]
    obtain ⟨text, hcs, hspelling, hend⟩ := Token.spelling_readToken hs cs
    have hread := token line _ c text _ _ hspelling hend ih
    rwa [← lexemesFrom_spelling hspelling hend, List.cons_append, ← hcs] at hread

theorem unspaced_eq_charsOf (line : Nat) (cs : List Char) :
    unspaced cs = charsOf (lexemesFrom line cs) := by
  refine lexemesFrom_induction (motive := fun _ cs ls => unspaced cs = charsOf ls)
    (fun _ => rfl) (fun _ rest ls ih => ih) (fun _ c rest ls _ hs ih => ?_)
    (fun _ t c cs rest ls h _ ih => ?_) line cs
  · rw [unspaced, List.filter_cons_of_neg (by simp [hs])]
    exact ih
  · rw [unspaced_append, h.unspaced_eq, ih, charsOf, charsOf, List.flatMap_cons, h.toList_text]

/-- Where a lexeme stands in a text that begins on `line`: behind `before`, of which the
lexemes `ls` are made, and in front of `after`, where it is as long as it can be. -/
structure Stands (line : Nat) (cs : List Char) (ls : List Lexeme) (l : Lexeme)
    (before after : List Char) : Prop where
  split : cs = before ++ (l.token.text.toList ++ after)
  before_eq : unspaced before = charsOf ls
  line_eq : l.line = line + before.count '\n'
  made : l.token.Made
  ends : l.token.EndsBefore after
  longest : ∀ (u : Token) other, u.Matches other → other <+: l.token.text.toList ++ after →
    other.length ≤ l.token.text.toList.length

theorem Stands.cons_space {line line' : Nat} {cs : List Char} {ls : List Lexeme} {l : Lexeme}
    {before after : List Char} {c : Char} (h : Stands line' cs ls l before after)
    (hs : isSpace c = true) (hline : line' + before.count '\n' = line + (c :: before).count '\n') :
    Stands line (c :: cs) ls l (c :: before) after where
  split := by rw [h.split, List.cons_append]
  before_eq := by
    rw [← h.before_eq, unspaced, unspaced, List.filter_cons_of_neg (by simp [hs])]
  line_eq := h.line_eq.trans hline
  made := h.made
  ends := h.ends
  longest := h.longest

theorem Stands.cons_token {line : Nat} {cs : List Char} {ls : List Lexeme} {l : Lexeme}
    {before after : List Char} {t : Token} {c : Char} {text : List Char}
    (h : Stands line cs ls l before after) (ht : t.Spelling c text) :
    Stands line (c :: text ++ cs) (⟨t, line⟩ :: ls) l (c :: text ++ before) after where
  split := by rw [h.split, List.append_assoc]
  before_eq := by
    rw [unspaced_append, ht.unspaced_eq, h.before_eq, charsOf, charsOf, List.flatMap_cons,
      ht.toList_text]
  line_eq := by
    rw [h.line_eq, List.count_append, ht.count_newline, Nat.zero_add]
  made := h.made
  ends := h.ends
  longest := h.longest

theorem Token.Spelling.stands {t : Token} {c : Char} {cs : List Char} (h : t.Spelling c cs)
    {rest : List Char} (hend : t.EndsBefore rest) (line : Nat) :
    Stands line (c :: cs ++ rest) [] ⟨t, line⟩ [] rest where
  split := by
    rw [List.nil_append, h.toList_text]
  before_eq := rfl
  line_eq := rfl
  made := made_iff.mpr ⟨c, cs, h⟩
  ends := hend
  longest u other hu hp := by
    rw [h.toList_text] at hp ⊢
    exact h.length_le hend hu hp

/-- **Every lexeme stands somewhere in the text.** -/
theorem exists_stands (line : Nat) (cs : List Char) : ∀ ls l ls',
    lexemesFrom line cs = ls ++ l :: ls' → ∃ before after, Stands line cs ls l before after := by
  refine lexemesFrom_induction (motive := fun line cs all => ∀ ls l ls', all = ls ++ l :: ls' →
    ∃ before after, Stands line cs ls l before after) ?_ ?_ ?_ ?_ line cs
  · intro line ls l ls' h
    simp at h
  · intro line rest all ih ls l ls' h
    obtain ⟨before, after, hst⟩ := ih ls l ls' h
    refine ⟨'\n' :: before, after, hst.cons_space rfl ?_⟩
    rw [List.count_cons_self]
    omega
  · intro line c rest all hn hs ih ls l ls' h
    obtain ⟨before, after, hst⟩ := ih ls l ls' h
    exact ⟨c :: before, after, hst.cons_space hs (by rw [List.count_cons_of_ne hn])⟩
  · intro line t c cs rest all hspelling hend ih ls l ls' h
    cases ls with
    | nil =>
      obtain ⟨rfl, -⟩ := List.cons.inj h
      exact ⟨[], rest, hspelling.stands hend line⟩
    | cons first ls =>
      obtain ⟨rfl, hall⟩ := List.cons.inj h
      obtain ⟨before, after, hst⟩ := ih ls l ls' hall
      exact ⟨c :: cs ++ before, after, hst.cons_token hspelling⟩

/-- **The lexer loses nothing and takes the longest match.**  The lexemes of a text are
those that the rule of the longest match gives.  Written one after the other, they are the
text without what is blank.  Each of them stands somewhere in the text: it is a token that
the lexer makes, on the line that the line feeds before it tell, and it ends where it could
not be longer. -/
theorem tokenize_longest_match (source : String) :
    (∀ ls, Lexes 1 source.toList ls ↔ tokenize source = ls) ∧
      String.join ((tokenize source).map fun l => l.token.text) =
        String.ofList (unspaced source.toList) ∧
      ∀ ls l ls', tokenize source = ls ++ l :: ls' →
        ∃ before after, Stands 1 source.toList ls l before after := by
  refine ⟨fun ls => lexes_iff, ?_, exists_stands 1 source.toList⟩
  rw [unspaced_eq_charsOf 1 source.toList, ← String.ofList_toList (s := String.join _),
    String.toList_join, List.flatMap_map]
  rfl

/-- A keyword that goes on is a name, a name that starts with a digit is two tokens, and of
three equals signs the first two are one token. -/
theorem tokenize_longest_match_runs :
    let source := "iffy\n1a ===#"
    let before : List Lexeme := [⟨.identifier "iffy", 1⟩, ⟨.integer "1", 2⟩, ⟨.identifier "a", 2⟩]
    let behind : List Lexeme := [⟨.assign, 2⟩, ⟨.illegal "#", 2⟩]
    tokenize source = before ++ ⟨.equal, 2⟩ :: behind ∧
      ∃ front back, Stands 1 source.toList before ⟨.equal, 2⟩ front back := by
  intro source before behind
  have h : tokenize source = before ++ ⟨.equal, 2⟩ :: behind := by decide +kernel
  exact ⟨h, (tokenize_longest_match source).2.2 before ⟨.equal, 2⟩ behind h⟩

end ExprScript
