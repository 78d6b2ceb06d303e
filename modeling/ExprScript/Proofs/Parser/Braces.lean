import ExprScript.Proofs.Parser.Progress

/-!
# Where a block ends

A statement that fails in a block is recorded there, so a block that has been opened
ends at a `}` or at the end of the input, whatever is in it.  Which `}` that is depends on
what the failed statements have taken.  A parser that finds a wrong token takes it, so a
brace may go as the token of an error; but that is the only way in which one gets lost.
If no error was found at a brace, and none is that of the nesting limit, then what
has been read closes every brace that it opens, up to the end of the input
(`Parser.KeepsBraces`), and the block ends at the `}` that belongs to its `{`.

* `Bracketed.braceDepth_eq`: where brackets are properly nested, braces are balanced.
* `Parser.keepsBraces_levels`: the braces that expressions and blocks read.
* `block_ends`: where a block ends.
* `block_loses_closing_brace`: a mistake in a block that takes the rest of the block with it.
-/

namespace ExprScript

/-! ### Braces -/

/-- What a token makes of a number of open braces.  Without an open one, there is none to
close. -/
def Token.countBrace : Nat → Token → Option Nat
  | depth, .leftBrace => some (depth + 1)
  | 0, .rightBrace => none
  | depth + 1, .rightBrace => some depth
  | depth, _ => some depth

/-- How many braces are open behind some lexemes, if `depth` are before them.  There is no
such number if a brace is closed that is not open. -/
def braceDepth (depth : Nat) (ls : List Lexeme) : Option Nat :=
  ls.foldlM (fun depth l => l.token.countBrace depth) depth

/-- Parentheses and braces are closed in the order in which they are opened. -/
inductive Bracketed : List Lexeme → Prop where
  | nil : Bracketed []
  | other {l : Lexeme} {ls : List Lexeme} :
      l.token ∉ [.leftParen, .rightParen, .leftBrace, .rightBrace] →
      Bracketed ls → Bracketed (l :: ls)
  | parens {l₁ l₂ : Nat} {inside ls : List Lexeme} : Bracketed inside → Bracketed ls →
      Bracketed (⟨.leftParen, l₁⟩ :: inside ++ ⟨.rightParen, l₂⟩ :: ls)
  | braces {l₁ l₂ : Nat} {inside ls : List Lexeme} : Bracketed inside → Bracketed ls →
      Bracketed (⟨.leftBrace, l₁⟩ :: inside ++ ⟨.rightBrace, l₂⟩ :: ls)

theorem Token.countBrace_other {t : Token} (hl : t ≠ .leftBrace) (hr : t ≠ .rightBrace)
    (depth : Nat) : t.countBrace depth = some depth := by
  cases t <;> first | exact absurd rfl hl | exact absurd rfl hr | cases depth <;> rfl

/-- What is open before a token stays open. -/
theorem Token.countBrace_add {t : Token} {depth d : Nat} (h : t.countBrace depth = some d)
    (k : Nat) : t.countBrace (depth + k) = some (d + k) := by
  by_cases hl : t = .leftBrace
  · subst hl
    obtain rfl := Option.some.inj h
    exact congrArg some (Nat.add_right_comm depth k 1)
  · by_cases hr : t = .rightBrace
    · subst hr
      cases depth with
      | zero => simp [countBrace] at h
      | succ depth =>
        obtain rfl := Option.some.inj h
        rw [Nat.add_right_comm]
        rfl
    · rw [countBrace_other hl hr] at h ⊢
      rw [Option.some.inj h]

theorem braceDepth_cons (depth : Nat) (l : Lexeme) (ls : List Lexeme) :
    braceDepth depth (l :: ls) = (l.token.countBrace depth).bind (braceDepth · ls) :=
  List.foldlM_cons

theorem braceDepth_leftBrace (depth line : Nat) (ls : List Lexeme) :
    braceDepth depth (⟨.leftBrace, line⟩ :: ls) = braceDepth (depth + 1) ls :=
  braceDepth_cons depth _ ls

theorem braceDepth_rightBrace (depth line : Nat) (ls : List Lexeme) :
    braceDepth (depth + 1) (⟨.rightBrace, line⟩ :: ls) = braceDepth depth ls :=
  braceDepth_cons (depth + 1) _ ls

theorem braceDepth_zero_rightBrace (line : Nat) (ls : List Lexeme) :
    braceDepth 0 (⟨.rightBrace, line⟩ :: ls) = none :=
  braceDepth_cons 0 _ ls

theorem braceDepth_other {l : Lexeme} (hl : l.token ≠ .leftBrace) (hr : l.token ≠ .rightBrace)
    (depth : Nat) (ls : List Lexeme) : braceDepth depth (l :: ls) = braceDepth depth ls := by
  rw [braceDepth_cons, Token.countBrace_other hl hr, Option.bind_some]

theorem braceDepth_append (depth : Nat) (ls ms : List Lexeme) :
    braceDepth depth (ls ++ ms) = (braceDepth depth ls).bind (braceDepth · ms) :=
  List.foldlM_append

theorem braceDepth_add {depth d : Nat} {ls : List Lexeme} (h : braceDepth depth ls = some d)
    (k : Nat) : braceDepth (depth + k) ls = some (d + k) := by
  induction ls generalizing depth with
  | nil =>
    obtain rfl := Option.some.inj h
    rfl
  | cons l ls ih =>
    rw [braceDepth_cons] at h ⊢
    obtain ⟨m, hm, hd⟩ := Option.bind_eq_some_iff.mp h
    rw [Token.countBrace_add hm, Option.bind_some]
    exact ih hd

theorem Bracketed.braceDepth_eq {ls : List Lexeme} (h : Bracketed ls) :
    braceDepth 0 ls = some 0 := by
  induction h with
  | nil => rfl
  | other hl _ ih =>
    rw [braceDepth_other (fun h => hl (by simp [h])) (fun h => hl (by simp [h]))]
    exact ih
  | parens _ _ ih ih' =>
    rw [List.cons_append, braceDepth_other (by simp) (by simp), braceDepth_append, ih,
      Option.bind_some, braceDepth_other (by simp) (by simp)]
    exact ih'
  | braces _ _ ih ih' =>
    rw [List.cons_append, braceDepth_leftBrace, braceDepth_append, braceDepth_add ih 1,
      Option.bind_some, braceDepth_rightBrace]
    exact ih'

/-- From one place to a later one every brace is closed that is opened, or there is
nothing left at the later one. -/
def ClosesBraces (ts rest : List Lexeme) : Prop :=
  ∃ taken d, ts = taken ++ rest ∧ braceDepth 0 taken = some d ∧ (d = 0 ∨ rest = [])

theorem ClosesBraces.refl (ts : List Lexeme) : ClosesBraces ts ts :=
  ⟨[], 0, rfl, rfl, Or.inl rfl⟩

theorem ClosesBraces.cons {l : Lexeme} (hl : l.token ≠ .leftBrace) (hr : l.token ≠ .rightBrace)
    (rest : List Lexeme) : ClosesBraces (l :: rest) rest :=
  ⟨[l], 0, rfl, braceDepth_other hl hr 0 [], Or.inl rfl⟩

theorem ClosesBraces.trans {ts mid rest : List Lexeme} (h : ClosesBraces ts mid)
    (h' : ClosesBraces mid rest) : ClosesBraces ts rest := by
  obtain ⟨taken, d, rfl, hd, hend⟩ := h
  obtain ⟨taken', d', rfl, hd', hend'⟩ := h'
  refine ⟨taken ++ taken', d' + d, (List.append_assoc ..).symm, ?_, ?_⟩
  · have hadd := braceDepth_add hd' d
    rw [Nat.zero_add] at hadd
    rw [braceDepth_append, hd, Option.bind_some, hadd]
  · rcases hend with rfl | hnil
    · exact hend'
    · exact Or.inr (List.append_eq_nil_iff.mp hnil).2

/-- A block whose `}` comes next closes its own braces with it. -/
theorem ClosesBraces.block {l₁ l₂ : Nat} {ts rest : List Lexeme}
    (h : ClosesBraces ts (⟨.rightBrace, l₂⟩ :: rest)) :
    ClosesBraces (⟨.leftBrace, l₁⟩ :: ts) rest := by
  obtain ⟨taken, d, rfl, hd, hend⟩ := h
  obtain rfl : d = 0 := hend.resolve_right (List.cons_ne_nil _ _)
  refine ⟨⟨.leftBrace, l₁⟩ :: taken ++ [⟨.rightBrace, l₂⟩], 0, by simp, ?_, Or.inl rfl⟩
  rw [List.cons_append, braceDepth_leftBrace, braceDepth_append, braceDepth_add hd 1,
    Option.bind_some, braceDepth_rightBrace]
  rfl

/-- A block without its `}` has come to the end of the input. -/
theorem ClosesBraces.unclosed {line : Nat} {ts : List Lexeme} (h : ClosesBraces ts []) :
    ClosesBraces (⟨.leftBrace, line⟩ :: ts) [] := by
  obtain ⟨taken, d, rfl, hd, -⟩ := h
  refine ⟨⟨.leftBrace, line⟩ :: taken, d + 1, rfl, ?_, Or.inr rfl⟩
  rw [braceDepth_leftBrace]
  exact braceDepth_add hd 1

/-- Behind balanced lexemes a `}` closes something that was opened before them. -/
theorem braceDepth_closing {body : List Lexeme} (hbody : braceDepth 0 body = some 0) (line : Nat)
    (ls : List Lexeme) : braceDepth 0 (body ++ ⟨.rightBrace, line⟩ :: ls) = none := by
  rw [braceDepth_append, hbody, Option.bind_some, braceDepth_zero_rightBrace]

/-- The `}` that belongs to a `{` is the first one with balanced lexemes before it. -/
theorem ClosesBraces.closing_unique {body ts rest : List Lexeme} {l₁ l₂ : Nat}
    (hbody : braceDepth 0 body = some 0)
    (h : ClosesBraces (body ++ ⟨.rightBrace, l₁⟩ :: rest) (⟨.rightBrace, l₂⟩ :: ts)) :
    ts = rest := by
  obtain ⟨taken, d, he, hd, hend⟩ := h
  obtain rfl : d = 0 := hend.resolve_right (List.cons_ne_nil _ _)
  rcases List.append_eq_append_iff.mp he with ⟨more, rfl, htail⟩ | ⟨more, rfl, htail⟩
  · cases more with
    | nil => exact (List.cons.inj htail).2.symm
    | cons l more =>
      obtain ⟨rfl, -⟩ := List.cons.inj htail
      rw [braceDepth_closing hbody] at hd
      simp at hd
  · cases more with
    | nil => exact (List.cons.inj htail).2
    | cons l more =>
      obtain ⟨rfl, -⟩ := List.cons.inj htail
      rw [braceDepth_closing hd] at hbody
      simp at hbody

/-- Where a `}` closes one brace too many, the braces are not closed up to the end. -/
theorem ClosesBraces.not_unclosed {body rest : List Lexeme} {line : Nat}
    (hbody : braceDepth 0 body = some 0) :
    ¬ ClosesBraces (body ++ ⟨.rightBrace, line⟩ :: rest) [] := by
  rintro ⟨taken, d, he, hd, -⟩
  rw [List.append_nil] at he
  rw [← he, braceDepth_closing hbody] at hd
  simp at hd

/-! ### Errors that take no brace -/

/-- The error was not found at a brace.  That of the nesting limit, which is found before
any token, is not one of these. -/
def ParseError.SparesBraces : ParseError → Prop
  | .unexpectedToken _ found _ => found ≠ .leftBrace ∧ found ≠ .rightBrace
  | .notAnExpression found _ => found ≠ .leftBrace ∧ found ≠ .rightBrace
  | .unexpectedEnd .. => True
  | .invalidInteger .. => True
  | .nestingTooDeep .. => False

instance : DecidablePred ParseError.SparesBraces
  | .unexpectedToken _ found _ =>
    inferInstanceAs (Decidable (found ≠ .leftBrace ∧ found ≠ .rightBrace))
  | .notAnExpression found _ =>
    inferInstanceAs (Decidable (found ≠ .leftBrace ∧ found ≠ .rightBrace))
  | .unexpectedEnd .. => .isTrue trivial
  | .invalidInteger .. => .isTrue trivial
  | .nestingTooDeep .. => .isFalse id

def Outcome.SparesBraces {α : Type} (o : Outcome α) : Prop :=
  ∀ e ∈ o.errors, e.SparesBraces

namespace Parser

variable {α β : Type}

/-- Unless one of its errors is found at a brace, the parser closes the braces that it
opens. -/
def KeepsBraces (p : Parser α) : Prop :=
  ∀ c, (p.run c).SparesBraces → ClosesBraces c.rest (p.run c).next.rest

/-! ### Sequences -/

theorem sparesBraces_of_followedBy {o : Outcome α} {f : α → Parser β}
    (h : (followedBy o f).SparesBraces) : o.SparesBraces :=
  fun e he => h e ((errors_prefix_followedBy o f).subset he)

theorem sparesBraces_of_followedBy_ok {o : Outcome α} {a : α} (ha : o.result = .ok a)
    {f : α → Parser β} (h : (followedBy o f).SparesBraces) :
    ((f a).run o.next).SparesBraces := by
  intro e he
  refine h e ?_
  rw [followedBy_of_ok ha]
  simp only [Outcome.errors, List.append_assoc, List.mem_append] at he ⊢
  exact Or.inr he

theorem closesBraces_followedBy {ts : List Lexeme} {o : Outcome α} {f : α → Parser β}
    (ho : ClosesBraces ts o.next.rest)
    (hf : ∀ a, o.result = .ok a → ClosesBraces o.next.rest ((f a).run o.next).next.rest) :
    ClosesBraces ts (followedBy o f).next.rest := by
  cases hr : o.result with
  | error e =>
    rw [followedBy_of_error hr]
    exact ho
  | ok a =>
    rw [followedBy_of_ok hr]
    exact ho.trans (hf a hr)

theorem KeepsBraces.bind {p : Parser α} {f : α → Parser β} (hp : p.KeepsBraces)
    (hf : ∀ a, (f a).KeepsBraces) : (p >>= f).KeepsBraces := by
  intro c h
  rw [run_bind] at h ⊢
  exact closesBraces_followedBy (hp c (sparesBraces_of_followedBy h)) fun a ha =>
    hf a _ (sparesBraces_of_followedBy_ok ha h)

theorem keepsBraces_pure (a : α) : (pure a : Parser α).KeepsBraces :=
  fun c _ => .refl c.rest

theorem keepsBraces_failAt (e : Cursor → ParseError) : (failAt e : Parser α).KeepsBraces :=
  fun c _ => .refl c.rest

theorem keepsBraces_peek : peek.KeepsBraces :=
  fun c _ => .refl c.rest

theorem keepsBraces_currentLine : currentLine.KeepsBraces :=
  fun c _ => .refl c.rest

/-- What reads a lexeme first has read one in the end, if it has not met the nesting
limit. -/
theorem ReadsFirst.lt {p : Parser α} (hp : p.ReadsFirst) {c : Cursor} (hc : c.rest ≠ [])
    (h : (p.run c).SparesBraces) : (p.run c).next.rest.length < c.rest.length := by
  induction hp with
  | accept expected f =>
    simp only [Parser.accept]
    split
    · exact absurd ‹_› hc
    · split <;> exact Cursor.advance_lt hc
  | advance => exact Cursor.advance_lt hc
  | nestingTooDeep limit =>
    exact (h (.nestingTooDeep limit c.currentLine) (List.mem_singleton_self _)).elim
  | bind f _ ih =>
    rw [run_bind] at h ⊢
    exact Nat.lt_of_le_of_lt (followedBy_suffix _ f).length_le (ih (sparesBraces_of_followedBy h))
  | peek _ ih =>
    obtain ⟨l, rest, hr⟩ := List.exists_cons_of_ne_nil hc
    rw [run_peek_bind, Cursor.token?_of_rest hr] at h ⊢
    exact ih l.token h
  | currentLine _ ih => exact ih c.currentLine h

/-! ### Tokens -/

theorem keepsBraces_accept (expected : Expectation) {f : Token → Option α}
    (hl : f .leftBrace = none) (hr : f .rightBrace = none) :
    (accept expected f).KeepsBraces := by
  intro c h
  cases hc : c.rest with
  | nil =>
    simp only [accept, hc]
    exact .refl []
  | cons l rest =>
    cases hf : f l.token with
    | none =>
      simp only [Outcome.SparesBraces, Outcome.errors, accept, hc, hf, List.nil_append,
        List.mem_singleton, forall_eq] at h
      simp only [accept, hc, hf, Cursor.rest_advance hc]
      exact .cons h.1 h.2 rest
    | some a =>
      simp only [accept, hc, hf, Cursor.rest_advance hc]
      refine .cons (fun h => ?_) (fun h => ?_) rest
      · simp [h, hl] at hf
      · simp [h, hr] at hf

theorem keepsBraces_expect {t : Token} (hl : t ≠ .leftBrace) (hr : t ≠ .rightBrace) :
    (expect t).KeepsBraces :=
  (keepsBraces_accept _ (if_neg hl.symm) (if_neg hr.symm)).bind fun _ => keepsBraces_pure _

theorem run_expect_nil {t : Token} {c : Cursor} (hc : c.rest = []) :
    (expect t).run c = ⟨.error (.unexpectedEnd (.token t) c.line), [], c⟩ := by
  simp only [expect, run_bind, followedBy, accept, hc]

theorem run_expect_other {t : Token} {c : Cursor} {l : Lexeme} {rest : List Lexeme}
    (hc : c.rest = l :: rest) (hl : l.token ≠ t) : (expect t).run c =
      ⟨.error (.unexpectedToken (.token t) l.token l.line), [], c.advance⟩ := by
  simp only [expect, run_bind, followedBy, accept, hc, if_neg hl]

theorem keepsBraces_identifier : identifier.KeepsBraces :=
  (keepsBraces_accept _ rfl rfl).bind fun _ => keepsBraces_pure _

theorem keepsBraces_optional {t : Token} (hl : t ≠ .leftBrace) (hr : t ≠ .rightBrace) :
    (optional t).KeepsBraces := by
  intro c _
  rw [optional, run_peek_bind]
  split
  · next ht =>
    cases hc : c.rest with
    | nil => simp [Cursor.token?, hc] at ht
    | cons l rest =>
      obtain rfl : l.token = t := by simpa [Cursor.token?, hc] using ht
      show ClosesBraces (l :: rest) c.advance.rest
      rw [Cursor.rest_advance hc]
      exact .cons hl hr rest
  · exact .refl c.rest

/-! ### Repetition -/

theorem KeepsBraces.many {p : Parser (Option α)} (hp : p.KeepsBraces) (h : p.Advances) :
    (many p h).KeepsBraces := by
  intro c
  -- induction on what is left to read, which each repetition makes shorter
  induction hn : c.rest.length using Nat.strongRecOn generalizing c with
  | ind n ih =>
    subst hn
    intro hs
    rw [many_eq, run_bind] at hs ⊢
    refine closesBraces_followedBy (hp c (sparesBraces_of_followedBy hs)) fun o ho => ?_
    have hs' := sparesBraces_of_followedBy_ok ho hs
    cases o with
    | none => exact .refl _
    | some a =>
      dsimp only at hs' ⊢
      rw [run_bind] at hs' ⊢
      exact closesBraces_followedBy (ih _ (h c a ho) _ rfl (sparesBraces_of_followedBy hs'))
        fun as _ => .refl _

theorem KeepsBraces.commaSeparated {item : Parser α} (hi : item.KeepsBraces) {closing : Token}
    (hl : closing ≠ .leftBrace) (hr : closing ≠ .rightBrace) :
    (commaSeparated item closing).KeepsBraces := by
  have hseparator : (separator closing).KeepsBraces :=
    (keepsBraces_accept _ (by simp [hl.symm]) (by simp [hr.symm])).bind fun _ =>
      keepsBraces_pure _
  have hitem : (nextItem item closing).KeepsBraces := by
    refine hseparator.bind fun more => ?_
    cases more with
    | false => exact keepsBraces_pure _
    | true => exact hi.bind fun _ => keepsBraces_pure _
  refine (keepsBraces_optional hl hr).bind fun close => ?_
  cases close with
  | true => exact keepsBraces_pure _
  | false => exact hi.bind fun _ => (hitem.many _).bind fun _ => keepsBraces_pure _

/-- A failed statement that has read something is left out without another token. -/
theorem closesBraces_recovering {p : Parser α} (hp : p.KeepsBraces) (hm : p.ReadsFirst) {c : Cursor}
    (hc : c.rest ≠ []) (h : ((recovering p).run c).SparesBraces) :
    ClosesBraces c.rest ((recovering p).run c).next.rest := by
  have hs : (p.run c).SparesBraces := by
    simpa only [Outcome.SparesBraces, errors_recovering] using h
  have hnext : ((recovering p).run c).next = (p.run c).next := by
    have hlt := hm.lt hc hs
    rw [← Cursor.left_eq, ← Cursor.left_eq] at hlt
    simp only [recovering, if_pos hlt]
    split <;> rfl
  rw [hnext]
  exact hp c hs

theorem KeepsBraces.statementsUntil {p : Parser α} (hp : p.KeepsBraces) (hm : p.ReadsFirst)
    (stop : Token → Bool) : (statementsUntil stop p).KeepsBraces := by
  have helement : (element stop p).KeepsBraces := by
    intro c h
    rw [element, run_peek_bind] at h ⊢
    cases hc : c.rest with
    | nil =>
      rw [Cursor.token?, hc]
      show ClosesBraces [] c.rest
      rw [hc]
      exact .refl []
    | cons l rest =>
      rw [Cursor.token?_of_rest hc] at h ⊢
      dsimp only at h ⊢
      rw [← hc]
      split
      · exact .refl c.rest
      · next hstop =>
        rw [if_neg hstop] at h
        split
        · next hsemi =>
          show ClosesBraces c.rest c.advance.rest
          rw [Cursor.rest_advance hc, hc]
          exact .cons (by simp [hsemi]) (by simp [hsemi]) rest
        · next hsemi =>
          rw [if_neg hsemi, run_bind] at h
          have hne : c.rest ≠ [] := by simp [hc]
          exact closesBraces_followedBy
            (closesBraces_recovering hp hm hne (sparesBraces_of_followedBy h))
            fun _ _ => .refl _
  exact (helement.many _).bind fun _ => keepsBraces_pure _

/-! ### Phrases -/

section
variable {e : Precedence → Parser Expr} {b : Parser Block}

theorem keepsBraces_startingWith (he : ∀ p, (e p).KeepsBraces) (hb : b.KeepsBraces)
    (form : StartForm) : (startingWith e b form).KeepsBraces := by
  cases form with
  | identifier => exact keepsBraces_identifier.bind fun _ => keepsBraces_pure _
  | integer =>
    refine (keepsBraces_accept _ rfl rfl).bind fun r => ?_
    dsimp only
    split
    · exact keepsBraces_pure _
    · exact keepsBraces_failAt _
  | boolean => exact (keepsBraces_accept _ rfl rfl).bind fun _ => keepsBraces_pure _
  | prefixed =>
    exact (keepsBraces_accept _ rfl rfl).bind fun _ => (he _).bind fun _ => keepsBraces_pure _
  | group =>
    exact (keepsBraces_expect (by simp) (by simp)).bind fun _ => (he _).bind fun _ =>
      (keepsBraces_expect (by simp) (by simp)).bind fun _ => keepsBraces_pure _
  | conditional =>
    refine (keepsBraces_expect (by simp) (by simp)).bind fun _ =>
      (keepsBraces_expect (by simp) (by simp)).bind fun _ => (he _).bind fun _ =>
      (keepsBraces_expect (by simp) (by simp)).bind fun _ => hb.bind fun _ =>
      (keepsBraces_optional (by simp) (by simp)).bind fun more => ?_
    cases more with
    | false => exact keepsBraces_pure _
    | true => exact hb.bind fun _ => keepsBraces_pure _
  | function =>
    exact (keepsBraces_expect (by simp) (by simp)).bind fun _ =>
      (keepsBraces_expect (by simp) (by simp)).bind fun _ =>
      (keepsBraces_identifier.commaSeparated (by simp) (by simp)).bind fun _ => hb.bind fun _ =>
      keepsBraces_pure _

theorem keepsBraces_firstOperand (he : ∀ p, (e p).KeepsBraces) (hb : b.KeepsBraces) :
    (firstOperand e b).KeepsBraces := by
  refine keepsBraces_currentLine.bind fun line => ?_
  intro c h
  rw [run_peek_bind] at h ⊢
  cases hc : c.rest with
  | nil =>
    rw [Cursor.token?, hc]
    show ClosesBraces [] c.rest
    rw [hc]
    exact .refl []
  | cons l rest =>
    rw [Cursor.token?_of_rest hc] at h ⊢
    dsimp only at h ⊢
    split
    · next hnone =>
      -- the token that starts no expression is that of the error
      rw [hnone] at h
      obtain ⟨hl, hr⟩ := h (.notAnExpression l.token line) (by simp [Outcome.errors,
        run_bind, followedBy, advance, fail, failAt])
      show ClosesBraces (l :: rest) c.advance.rest
      rw [Cursor.rest_advance hc]
      exact .cons hl hr rest
    · next form hform =>
      rw [hform] at h
      rw [← hc]
      exact keepsBraces_startingWith he hb form c h

theorem keepsBraces_continuedBy (he : ∀ p, (e p).KeepsBraces) (left : Expr)
    (form : ContinueForm) : (continuedBy e left form).KeepsBraces := by
  cases form with
  | infixed =>
    exact (keepsBraces_accept _ rfl rfl).bind fun _ => (he _).bind fun _ => keepsBraces_pure _
  | call =>
    exact (keepsBraces_expect (by simp) (by simp)).bind fun _ =>
      ((he _).commaSeparated (by simp) (by simp)).bind fun _ => keepsBraces_pure _

theorem keepsBraces_stmt (he : ∀ p, (e p).KeepsBraces) : (stmt e).KeepsBraces := by
  have hsemi := keepsBraces_optional (t := .semicolon) (by simp) (by simp)
  refine keepsBraces_peek.bind fun next => ?_
  split
  · exact (keepsBraces_expect (by simp) (by simp)).bind fun _ =>
      keepsBraces_identifier.bind fun _ => (keepsBraces_expect (by simp) (by simp)).bind fun _ =>
      (he _).bind fun _ => hsemi.bind fun _ => keepsBraces_pure _
  · exact (keepsBraces_expect (by simp) (by simp)).bind fun _ => (he _).bind fun _ =>
      hsemi.bind fun _ => keepsBraces_pure _
  · exact keepsBraces_currentLine.bind fun _ => (he _).bind fun _ => hsemi.bind fun _ =>
      keepsBraces_pure _

/-! ### Blocks -/

/-- **An opened block fails only at the end of the input**: either a `}` stands where its
statements end, or nothing does. -/
theorem run_bracedBlock {c : Cursor} {line : Nat} {rest : List Lexeme}
    (hc : c.rest = ⟨.leftBrace, line⟩ :: rest) :
    let o := (statementsUntil (fun t => t = .rightBrace) (stmt e)).run c.advance
    ∃ ss, o.result = .ok ss ∧
      ((∃ l tl, o.next.rest = ⟨.rightBrace, l⟩ :: tl ∧
          (bracedBlock e).run c = ⟨.ok (.mk ss line), o.recorded, o.next.advance⟩) ∨
        (o.next.rest = [] ∧ (bracedBlock e).run c =
          ⟨.error (.unexpectedEnd (.token .rightBrace) o.next.line), o.recorded, o.next⟩)) := by
  intro o
  have hopen : (expect .leftBrace).Accepts c line c.advance :=
    accepts_expect.mpr ⟨by rw [hc, Cursor.rest_advance hc], rfl⟩
  obtain ⟨ss, hss, hend⟩ :=
    statementsUntil_ends (fun t => t = .rightBrace) (stmt e) c.advance
  refine ⟨ss, hss, ?_⟩
  have hrun : (bracedBlock e).run c = followedBy o fun ss => do
      let _ ← expect .rightBrace
      return .mk ss line := by
    rw [bracedBlock, run_bind, hopen]
    simp [followedBy, run_bind, o]
  rw [hrun, followedBy_of_ok hss]
  cases hr : o.next.rest with
  | nil =>
    refine Or.inr ⟨rfl, ?_⟩
    rw [run_bind, run_expect_nil hr, followedBy_of_error rfl, List.append_nil]
  | cons l tl =>
    have hl : l.token = .rightBrace := by
      simpa using hend l.token (Cursor.token?_of_rest hr)
    refine Or.inl ⟨l.line, tl, by rw [← hl], ?_⟩
    have hclose : (expect .rightBrace).Accepts o.next l.line o.next.advance :=
      accepts_expect.mpr ⟨by rw [hr, Cursor.rest_advance hr, ← hl], rfl⟩
    rw [run_bind, hclose]
    simp [followedBy, run_pure, o]

/-- What the block spares, its statements spare. -/
theorem closesBraces_statements (he : ∀ p, (e p).KeepsBraces) (hm : ∀ p, (e p).ReadsFirst)
    {c : Cursor} {ss : List Stmt}
    (hss : ((statementsUntil (fun t => t = .rightBrace) (stmt e)).run c).result = .ok ss)
    (h : ∀ er ∈ ((statementsUntil (fun t => t = .rightBrace) (stmt e)).run c).recorded,
      er.SparesBraces) :
    ClosesBraces c.rest
      ((statementsUntil (fun t => t = .rightBrace) (stmt e)).run c).next.rest := by
  refine (keepsBraces_stmt he).statementsUntil (readsFirst_stmt hm) _ c fun er her => h er ?_
  simpa [Outcome.errors, hss] using her

theorem keepsBraces_bracedBlock (he : ∀ p, (e p).KeepsBraces) (hm : ∀ p, (e p).ReadsFirst) :
    (bracedBlock e).KeepsBraces := by
  intro c h
  cases hc : c.rest with
  | nil =>
    have hs := (bracedBlock e).suffix c
    rw [hc] at hs
    rw [List.suffix_nil.mp hs]
    exact .refl []
  | cons l rest =>
    by_cases hl : l.token = .leftBrace
    · obtain ⟨_, line⟩ := l
      obtain rfl := hl
      obtain ⟨ss, hss, hends⟩ := run_bracedBlock (e := e) hc
      have hsub := closesBraces_statements (c := c.advance) he hm hss
      rw [Cursor.rest_advance hc] at hsub
      rcases hends with ⟨l, tl, hr, hrun⟩ | ⟨hr, hrun⟩
      · rw [hrun] at h ⊢
        rw [hr] at hsub
        rw [Cursor.rest_advance hr]
        exact (hsub fun er her => h er (List.mem_append_left _ her)).block
      · rw [hrun] at h ⊢
        rw [hr] at hsub ⊢
        exact (hsub fun er her => h er (List.mem_append_left _ her)).unclosed
    · -- the token that opens no block is that of the error
      have hrun : (bracedBlock e).run c =
          ⟨.error (.unexpectedToken (.token .leftBrace) l.token l.line), [], c.advance⟩ := by
        rw [bracedBlock, run_bind, run_expect_other hc hl, followedBy_of_error rfl]
      rw [hrun] at h ⊢
      obtain ⟨hl, hr⟩ := h _ (List.mem_singleton_self _)
      rw [Cursor.rest_advance hc]
      exact .cons hl hr rest

end

/-! ### The grammar -/

/-- **Braces go only as the tokens of errors**, with any number of levels left. -/
theorem keepsBraces_levels (limit n : Nat) :
    (∀ p, (expressionAt limit n p).KeepsBraces) ∧
      (∀ p left, (continueAt limit n p left).KeepsBraces) ∧ (blockAt limit n).KeepsBraces := by
  induction n with
  | zero =>
    refine ⟨fun p => keepsBraces_failAt _, fun p left => ?_, keepsBraces_failAt _⟩
    refine keepsBraces_peek.bind fun next => ?_
    split
    · exact keepsBraces_pure _
    · exact keepsBraces_failAt _
  | succ n ih =>
    obtain ⟨he, hc, hb⟩ := ih
    refine ⟨fun p => ?_, fun p left => ?_,
      keepsBraces_bracedBlock he (readsFirst_expressionAt limit n)⟩
    · exact (keepsBraces_firstOperand he hb).bind fun left => hc p left
    · refine keepsBraces_peek.bind fun next => ?_
      split
      · exact keepsBraces_pure _
      · exact (keepsBraces_continuedBy he left _).bind fun longer => hc p longer

end Parser

/-- **Where a block ends.**  Whatever stands in a block that has been opened, the block gives
a value and has just read a `}`, or it comes to the end of the input and misses one.  If
the braces in its body are balanced, as they are in all `Bracketed` lexemes, and of the
errors recorded in it none was found at a brace and none is that of the nesting limit, it
gives a value and leaves what stands behind its own `}`, however many statements in it have
failed. -/
theorem block_ends (limit levels : Nat) {c : Cursor} {line : Nat} {ts : List Lexeme}
    (hc : c.rest = ⟨.leftBrace, line⟩ :: ts) :
    let o := (Parser.blockAt limit (levels + 1)).run c
    ((∃ b taken l, o.result = .ok b ∧ ts = taken ++ ⟨.rightBrace, l⟩ :: o.next.rest) ∨
      ∃ l, o.result = .error (.unexpectedEnd (.token .rightBrace) l) ∧ o.next.rest = []) ∧
    ∀ body rest l, ts = body ++ ⟨.rightBrace, l⟩ :: rest → braceDepth 0 body = some 0 →
      (∀ e ∈ o.recorded, e.SparesBraces) → (∃ b, o.result = .ok b) ∧ o.next.rest = rest := by
  intro o
  have ho : o = (Parser.bracedBlock (Parser.expressionAt limit levels)).run c := rfl
  clear_value o
  obtain ⟨ss, hss, hends⟩ :=
    Parser.run_bracedBlock (e := Parser.expressionAt limit levels) hc
  have hcloses := Parser.closesBraces_statements (c := c.advance)
    (Parser.keepsBraces_levels limit levels).1 (Parser.readsFirst_expressionAt limit levels) hss
  have hsuffix := (Parser.statementsUntil (fun t => t = .rightBrace)
    (Parser.stmt (Parser.expressionAt limit levels))).suffix c.advance
  rw [Cursor.rest_advance hc] at hcloses hsuffix
  rcases hends with ⟨l, tl, hr, hrun⟩ | ⟨hr, hrun⟩
  · obtain rfl := ho.trans hrun
    rw [hr] at hcloses
    obtain ⟨taken, htaken⟩ := hsuffix
    rw [hr] at htaken
    dsimp only
    rw [Cursor.rest_advance hr]
    refine ⟨Or.inl ⟨_, taken, l, rfl, htaken.symm⟩, ?_⟩
    -- the body and what the block has read both end in front of the `}` that belongs to it
    rintro body rest l' rfl hbody hs
    exact ⟨⟨_, rfl⟩, (hcloses hs).closing_unique hbody⟩
  · obtain rfl := ho.trans hrun
    refine ⟨Or.inr ⟨_, rfl, hr⟩, ?_⟩
    rintro body rest l rfl hbody hs
    rw [hr] at hcloses
    exact absurd (hcloses hs) (ClosesBraces.not_unclosed hbody)

/-- Four statements in this block fail, two of them in an inner block, and it still ends at
its own `}`. -/
theorem block_ends_mistakes :
    let c := Cursor.start (tokenize "\x7b let = 1; if (a) \x7b 2 ) + \x7d b; let 3 \x7d c")
    let o := Parser.block.run c
    o.recorded.length = 4 ∧ (∃ b, o.result = .ok b) ∧ o.next.rest = [⟨.identifier "c", 1⟩] := by
  intro c o
  have hc : c.rest = ⟨.leftBrace, 1⟩ :: c.rest.tail := by decide +kernel
  have hbody : c.rest.tail = c.rest.tail.dropLast.dropLast ++
      ⟨.rightBrace, 1⟩ :: [⟨.identifier "c", 1⟩] := by decide +kernel
  have hends := (block_ends maxNesting 255 hc).2 _ _ 1 hbody (by decide +kernel)
    (by decide +kernel)
  exact ⟨by decide +kernel, hends⟩

/-- **A statement that fails can take the `}` of its block**: in the block `{ let }` the name
that is missing is looked for at the `}`, so the block goes on behind it and reads
everything that follows. -/
theorem block_loses_closing_brace :
    ¬ ∀ body rest l₁ l₂, Bracketed body →
      let c := Cursor.start (⟨.leftBrace, l₁⟩ :: body ++ ⟨.rightBrace, l₂⟩ :: rest)
      let o := Parser.block.run c
      (∀ e ∈ o.errors, ∀ line, e ≠ .nestingTooDeep maxNesting line) →
        (∃ b, o.result = .ok b) ∧ o.next.rest = rest := by
  intro h
  have hrest := (h [⟨.letWord, 1⟩] [⟨.identifier "x", 1⟩] 1 1 (.other (by decide) .nil) ?_).2
  · exact absurd hrest (by decide +kernel)
  · have herrors : (Parser.block.run (.start [⟨.leftBrace, 1⟩, ⟨.letWord, 1⟩, ⟨.rightBrace, 1⟩,
        ⟨.identifier "x", 1⟩])).errors = [.unexpectedToken .identifier .rightBrace 1,
          .unexpectedEnd (.token .rightBrace) 1] := by decide +kernel
    intro e he line
    have he' : e ∈ _ := herrors ▸ he
    simp only [List.mem_cons, List.not_mem_nil, or_false] at he'
    rcases he' with rfl | rfl <;> simp

end ExprScript
