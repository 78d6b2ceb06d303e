import ExprScript.Proofs.Parser.Soundness

/-!
# What is derived is accepted

Where a phrase of the grammar stands at the front of the input, its parser accepts
it when it has enough levels of nesting (`Enough`).

For expressions this is stated along the loop: the parser that is about to read an
expression reaches what the loop reaches that already has it on its left
(`CompleteExpr`).  So a left-recursive phrase is read by the same run of the loop
as its left part, and the induction on derivations goes through.

* `Derives.complete`: every phrase is accepted at its place.
-/

namespace ExprScript

/-- The next token neither goes on at the given strength nor is an `else`. -/
def Follows (q : Precedence) (rest : List Lexeme) : Prop :=
  ∀ l ∈ rest.head?, l.token.precedence ≤ q ∧ l.token ≠ .elseWord

theorem Follows.ends {q : Precedence} {rest : List Lexeme} (h : Follows q rest) : Ends q rest :=
  fun l hl => (h l hl).1

theorem Follows.mono {p q : Precedence} {rest : List Lexeme} (hpq : p ≤ q) (h : Follows p rest) :
    Follows q rest :=
  fun l hl => ⟨Nat.le_trans (h l hl).1 hpq, (h l hl).2⟩

theorem follows_of_token {t : Token} {line : Nat} {rest : List Lexeme} {p q : Precedence}
    (ht : t.precedence = p) (hn : t ≠ .elseWord) (hpq : p ≤ q := by decide) :
    Follows q (⟨t, line⟩ :: rest) := by
  intro l hl
  obtain rfl := Option.some.inj hl
  exact ⟨ht ▸ hpq, hn⟩

namespace Parser

variable {α β : Type}

def Enough (f : Nat → Parser α) (c : Cursor) (a : α) (c' : Cursor) : Prop :=
  ∃ n, ∀ m, n ≤ m → (f m).Accepts c a c'

theorem Enough.const {p : Parser α} {a : α} {c c' : Cursor} (h : p.Accepts c a c') :
    Enough (fun _ => p) c a c' :=
  ⟨0, fun _ _ => h⟩

theorem Enough.imp {f g : Nat → Parser α} {a : α} {c c₁ c' : Cursor}
    (h : ∀ n, (f n).Accepts c a c' → (g n).Accepts c₁ a c') (hf : Enough f c a c') :
    Enough g c₁ a c' :=
  let ⟨n, hn⟩ := hf
  ⟨n, fun m hm => h m (hn m hm)⟩

theorem Enough.bind {f : Nat → Parser α} {g : Nat → α → Parser β} {a : α} {b : β}
    {c c' c'' : Cursor} (hf : Enough f c a c') (hg : Enough (fun n => g n a) c' b c'') :
    Enough (fun n => f n >>= g n) c b c'' := by
  obtain ⟨n₁, h₁⟩ := hf
  obtain ⟨n₂, h₂⟩ := hg
  refine ⟨max n₁ n₂, fun m hm => accepts_bind.mpr ⟨a, c', h₁ m ?_, h₂ m ?_⟩⟩ <;> omega

theorem Enough.pure {f : Nat → Parser α} {g : α → β} {a : α} {c c' : Cursor}
    (hf : Enough f c a c') : Enough (fun n => f n >>= fun a => Pure.pure (g a)) c (g a) c' :=
  hf.bind (.const (accepts_pure.mpr ⟨rfl, rfl⟩))

theorem Enough.of_succ {f : Nat → Parser α} {a : α} {c c' : Cursor}
    (h : Enough (fun n => f (n + 1)) c a c') : Enough f c a c' := by
  obtain ⟨n, h⟩ := h
  refine ⟨n + 1, fun m hm => ?_⟩
  obtain ⟨k, rfl⟩ : ∃ k, m = k + 1 := ⟨m - 1, by omega⟩
  exact h k (by omega)

theorem enough_expect {t : Token} {line : Nat} {c : Cursor} {rest : List Lexeme}
    (h : c.rest = ⟨t, line⟩ :: rest) : Enough (fun _ => expect t) c line c.advance :=
  .const (accepts_expect.mpr ⟨by rw [h, Cursor.rest_advance h], rfl⟩)

section
variable {limit : Nat} {p : Precedence} {left a : Expr} {c c₁ c' : Cursor}

theorem enough_expressionAt
    (hf : Enough (fun n => firstOperand (expressionAt limit n) (blockAt limit n)) c left c₁)
    (hc : Enough (fun n => continueAt limit n p left) c₁ a c') :
    Enough (fun n => expressionAt limit n p) c a c' :=
  .of_succ (hf.bind hc)

theorem enough_continueAt {form : ContinueForm} {longer : Expr}
    (hn : continuation p c.token? = some form)
    (hf : Enough (fun n => continuedBy (expressionAt limit n) left form) c longer c₁)
    (hc : Enough (fun n => continueAt limit n p longer) c₁ a c') :
    Enough (fun n => continueAt limit n p left) c a c' := by
  refine .of_succ ((hf.bind hc).imp fun n h => ?_)
  rw [continueAt, accepts_peek_bind, hn]
  exact h

/-- The loop ends, however many levels are left. -/
theorem accepts_continueAt_self (limit levels : Nat) (h : Ends p c.rest) :
    (continueAt limit levels p left).Accepts c left c := by
  have hn := continuation_eq_none_iff.mpr h
  cases levels with
  | zero =>
    rw [continueAt, accepts_peek_bind, hn]
    exact accepts_pure.mpr ⟨rfl, rfl⟩
  | succ levels =>
    rw [continueAt, accepts_peek_bind, hn]
    exact accepts_pure.mpr ⟨rfl, rfl⟩

theorem enough_continueAt_self (h : Ends p c.rest) :
    Enough (fun n => continueAt limit n p left) c left c :=
  ⟨0, fun m _ => accepts_continueAt_self limit m h⟩

theorem firstOperand_accepts {e : Precedence → Parser Expr} {b : Parser Block} {l : Lexeme}
    {rest : List Lexeme} {form : StartForm} (hc : c.rest = l :: rest)
    (hl : l.token.startForm? = some form) (h : (startingWith e b form).Accepts c a c') :
    (firstOperand e b).Accepts c a c' := by
  rw [firstOperand, accepts_currentLine_bind, accepts_peek_bind, Cursor.token?_of_rest hc]
  simp only [hl]
  exact h

theorem accepts_expressionAt {levels : Nat} {l : Lexeme} {rest : List Lexeme} {form : StartForm}
    (hc : c.rest = l :: rest) (hl : l.token.startForm? = some form)
    (h : (startingWith (expressionAt limit levels) (blockAt limit levels) form).Accepts c a c')
    (he : Ends p c'.rest) : (expressionAt limit (levels + 1) p).Accepts c a c' :=
  accepts_bind.mpr ⟨a, c', firstOperand_accepts hc hl h, accepts_continueAt_self limit levels he⟩

theorem accepts_integerExpr {text : String} {n : Int64} {line : Nat} {rest : List Lexeme}
    (hn : Numeral.read text = some n) (hc : c.rest = ⟨.integer text, line⟩ :: rest) :
    integerExpr.Accepts c (.integer n line) c.advance := by
  refine accepts_bind.mpr ⟨(text, line), c.advance, ?_, ?_⟩
  · exact accepts_accept.mpr ⟨_, by rw [hc, Cursor.rest_advance hc], rfl, rfl⟩
  · simp only [hn]
    exact accepts_pure.mpr ⟨rfl, rfl⟩

end

/-! ### What completeness says of each phrase -/

variable (limit : Nat)

/-- The parser that is about to read the expression reaches all that the loop
reaches once it has it. -/
def CompleteExpr (q : Precedence) (e : Expr) (ts rest : List Lexeme) : Prop :=
  ∀ p c, p ≤ .operand → p.inner ≤ q → Follows q rest → c.rest = ts →
    ∃ m : Cursor, m.rest = rest ∧ ∀ a c', Enough (fun n => continueAt limit n p e) m a c' →
      Enough (fun n => expressionAt limit n p) c a c'

/-- The parser of a phrase accepts it.  What may come after a statement is left open:
a terminator may be there or not. -/
def Complete : Phrase → List Lexeme → List Lexeme → Prop
  | .expr q e, ts, rest => CompleteExpr limit q e ts rest
  | .block b, ts, rest => ∀ c, c.rest = ts → ∃ m : Cursor, m.rest = rest ∧
      Enough (blockAt limit) c b m
  | .statement s, ts, rest => ∀ c, Follows .lowest rest → c.rest = ts →
      ∃ m : Cursor, m.rest = rest ∧ ∀ done c', (optional .semicolon).Accepts m done c' →
        Enough (fun n => stmt (expressionAt limit n)) c s c'
  | .statements ss, ts, rest => ∀ c (stop : Token → Bool), c.rest = ts →
      (∀ t, stop t = true → t = .rightBrace) → (∀ l ∈ rest.head?, stop l.token = true) →
      ∃ m : Cursor, m.rest = rest ∧
        Enough (fun n => statementsUntil stop (stmt (expressionAt limit n))) c ss m

variable {limit}

theorem CompleteExpr.enough {p q : Precedence} {e : Expr} {ts rest : List Lexeme}
    (h : CompleteExpr limit q e ts rest) {c : Cursor} (hp : p ≤ .operand) (hpq : p.inner ≤ q)
    (hf : Follows q rest) (he : Ends p rest) (hc : c.rest = ts) :
    ∃ m : Cursor, m.rest = rest ∧ Enough (fun n => expressionAt limit n p) c e m := by
  obtain ⟨m, hm, hk⟩ := h p c hp hpq hf hc
  exact ⟨m, hm, hk _ _ (enough_continueAt_self (hm ▸ he))⟩

theorem CompleteExpr.enough_lowest {e : Expr} {ts rest : List Lexeme}
    (h : CompleteExpr limit .equals e ts rest) {c : Cursor} (hf : Follows .lowest rest)
    (hc : c.rest = ts) :
    ∃ m : Cursor, m.rest = rest ∧ Enough (fun n => expressionAt limit n .lowest) c e m :=
  h.enough (by decide) (by decide) (hf.mono (by decide)) hf.ends hc

theorem CompleteExpr.of_firstOperand {q : Precedence} {e : Expr} {ts rest : List Lexeme}
    (h : ∀ c, Follows q rest → c.rest = ts → ∃ m : Cursor, m.rest = rest ∧
      Enough (fun n => firstOperand (expressionAt limit n) (blockAt limit n)) c e m) :
    CompleteExpr limit q e ts rest := by
  intro p c _ _ hf hc
  obtain ⟨m, hm, hk⟩ := h c hf hc
  exact ⟨m, hm, fun a c' ha => enough_expressionAt hk ha⟩

/-! ### First operands -/

section
variable {name text : String} {n : Int64} {line l₁ l₂ l₃ : Nat} {ts mid other rest : List Lexeme}

theorem complete_atom {e : Expr} {t : Token} {form : StartForm} (ht : t.startForm? = some form)
    (h : ∀ c : Cursor, c.rest = ⟨t, line⟩ :: rest → ∀ e' b,
      (startingWith e' b form).Accepts c e c.advance) :
    CompleteExpr limit .call e (⟨t, line⟩ :: rest) rest := by
  refine .of_firstOperand fun c _ hc => ⟨c.advance, Cursor.rest_advance hc, 0, fun m _ => ?_⟩
  exact firstOperand_accepts hc ht (h c hc _ _)

theorem complete_identifier :
    CompleteExpr limit .call (.identifier ⟨name, line⟩) (⟨.identifier name, line⟩ :: rest) rest := by
  refine complete_atom rfl fun c hc e' b => ?_
  refine accepts_bind.mpr ⟨⟨name, line⟩, c.advance, ?_, accepts_pure.mpr ⟨rfl, rfl⟩⟩
  exact accepts_identifier.mpr ⟨by rw [hc, Cursor.rest_advance hc], rfl⟩

theorem complete_integer (hn : Numeral.read text = some n) :
    CompleteExpr limit .call (.integer n line) (⟨.integer text, line⟩ :: rest) rest :=
  complete_atom rfl fun _ hc _ _ => accepts_integerExpr hn hc

theorem complete_boolean {t : Token} {v : Bool} (ht : t.boolean? = some v)
    (hs : t.startForm? = some .boolean) :
    CompleteExpr limit .call (.boolean v line) (⟨t, line⟩ :: rest) rest := by
  refine complete_atom hs fun c hc e' b => ?_
  refine accepts_bind.mpr ⟨(v, line), c.advance, ?_, accepts_pure.mpr ⟨rfl, rfl⟩⟩
  exact accepts_accept.mpr ⟨_, by rw [hc, Cursor.rest_advance hc], ht, rfl⟩

theorem enough_firstOperand {e : Expr} {l : Lexeme} {form : StartForm} {c m : Cursor}
    (hc : c.rest = l :: rest) (hl : l.token.startForm? = some form)
    (h : Enough (fun n => startingWith (expressionAt limit n) (blockAt limit n) form) c e m) :
    Enough (fun n => firstOperand (expressionAt limit n) (blockAt limit n)) c e m :=
  h.imp fun _ h => firstOperand_accepts hc hl h

theorem complete_prefixed {op : PrefixOp} {e : Expr} (h : CompleteExpr limit .operand e ts rest) :
    CompleteExpr limit .operand (.prefixed op e line) (⟨op.sign, line⟩ :: ts) rest := by
  refine .of_firstOperand fun c hf hc => ?_
  obtain ⟨m, hm, he⟩ := h.enough (c := c.advance) (p := .operand) (by decide) (by decide) hf
    hf.ends (Cursor.rest_advance hc)
  refine ⟨m, hm, enough_firstOperand hc (by cases op <;> rfl) ?_⟩
  refine .bind (a := (op, line)) (.const ?_) he.pure
  exact accepts_accept.mpr ⟨_, by rw [hc, Cursor.rest_advance hc],
    Token.prefixOp?_eq_some_iff.mpr rfl, rfl⟩

theorem complete_group {e : Expr}
    (h : CompleteExpr limit .equals e ts (⟨.rightParen, l₂⟩ :: rest)) :
    CompleteExpr limit .call e (⟨.leftParen, l₁⟩ :: ts) rest := by
  refine .of_firstOperand fun c _ hc => ?_
  obtain ⟨m, hm, he⟩ := h.enough_lowest (follows_of_token rfl (by simp)) (Cursor.rest_advance hc)
  refine ⟨m.advance, Cursor.rest_advance hm, enough_firstOperand hc rfl ?_⟩
  exact (enough_expect hc).bind (he.bind ((enough_expect hm).pure (g := fun _ => e)))

theorem complete_conditional {condition : Expr} {b : Block}
    (hc : CompleteExpr limit .equals condition ts (⟨.rightParen, l₂⟩ :: mid))
    (hb : Complete limit (.block b) mid rest) :
    CompleteExpr limit .call (.conditional condition b none line)
      (⟨.ifWord, line⟩ :: ⟨.leftParen, l₁⟩ :: ts) rest := by
  refine .of_firstOperand fun c hf hr => ?_
  have h₁ := Cursor.rest_advance hr
  obtain ⟨m₁, hm₁, hcond⟩ := hc.enough_lowest (follows_of_token rfl (by simp))
    (Cursor.rest_advance h₁)
  obtain ⟨m₂, hm₂, hblock⟩ := hb m₁.advance (Cursor.rest_advance hm₁)
  refine ⟨m₂, hm₂, enough_firstOperand hr rfl ?_⟩
  -- no `else` follows, so the conditional ends here
  have helse : (optional .elseWord).Accepts m₂ false m₂ := by
    refine accepts_optional.mpr (Or.inr ⟨rfl, fun ht => ?_, rfl⟩)
    rw [Cursor.token?, hm₂] at ht
    obtain ⟨l, hl, hle⟩ := Option.map_eq_some_iff.mp ht
    exact (hf l hl).2 hle
  exact (enough_expect hr).bind ((enough_expect h₁).bind (hcond.bind ((enough_expect hm₁).bind
    (hblock.bind (.bind (.const helse) (.const (accepts_pure.mpr ⟨rfl, rfl⟩)))))))

theorem complete_conditionalElse {condition : Expr} {b b' : Block}
    (hc : CompleteExpr limit .equals condition ts (⟨.rightParen, l₂⟩ :: mid))
    (hb : Complete limit (.block b) mid (⟨.elseWord, l₃⟩ :: other))
    (hb' : Complete limit (.block b') other rest) :
    CompleteExpr limit .call (.conditional condition b (some b') line)
      (⟨.ifWord, line⟩ :: ⟨.leftParen, l₁⟩ :: ts) rest := by
  refine .of_firstOperand fun c _ hr => ?_
  have h₁ := Cursor.rest_advance hr
  obtain ⟨m₁, hm₁, hcond⟩ := hc.enough_lowest (follows_of_token rfl (by simp))
    (Cursor.rest_advance h₁)
  obtain ⟨m₂, hm₂, hblock⟩ := hb m₁.advance (Cursor.rest_advance hm₁)
  obtain ⟨m₃, hm₃, hblock'⟩ := hb' m₂.advance (Cursor.rest_advance hm₂)
  refine ⟨m₃, hm₃, enough_firstOperand hr rfl ?_⟩
  have helse : (optional .elseWord).Accepts m₂ true m₂.advance :=
    accepts_optional.mpr (Or.inl ⟨rfl, ⟨l₃, by rw [hm₂, Cursor.rest_advance hm₂]⟩, rfl⟩)
  exact (enough_expect hr).bind ((enough_expect h₁).bind (hcond.bind ((enough_expect hm₁).bind
    (hblock.bind (.bind (.const helse) hblock'.pure)))))

end

/-! ### Lists -/

section
variable {closing : Token} {derives : α → List Lexeme → List Lexeme → Prop}

/-- With enough levels a parser accepts the items of a list, each in front of a
comma or of the closing token. -/
def CompleteItem (closing : Token) (derives : α → List Lexeme → List Lexeme → Prop)
    (item : Nat → Parser α) : Prop :=
  ∀ a ts l rest, derives a ts (l :: rest) → l.token = .comma ∨ l.token = closing →
    ∀ c : Cursor, c.rest = ts → ∃ m : Cursor, m.rest = l :: rest ∧ Enough item c a m

theorem exists_items {item : Nat → Parser α} (hne : closing ≠ .comma)
    (hi : CompleteItem closing derives item) {as : List α} {ts rest : List Lexeme}
    (h : CommaSeparated derives closing as ts rest) {a : α} {bs : List α} (has : as = a :: bs)
    {c : Cursor} (hc : c.rest = ts) :
    ∃ m m' : Cursor, m'.rest = rest ∧ Enough item c a m ∧
      Enough (fun n => many (nextItem (item n) closing) (nextItem_advances _ _)) m bs m' := by
  induction h generalizing a bs c with
  | none => simp at has
  | @last a' line ts rest hd =>
    obtain ⟨rfl, rfl⟩ := List.cons.inj has
    obtain ⟨m, hm, he⟩ := hi _ _ _ _ hd (Or.inr rfl) c hc
    refine ⟨m, m.advance, Cursor.rest_advance hm, he, 0, fun n _ => ?_⟩
    have hsep : (separator closing).Accepts m false m.advance :=
      (accepts_separator hne).mpr ⟨⟨line, by rw [hm, Cursor.rest_advance hm]; rfl⟩, rfl⟩
    exact accepts_many_nil.mpr
      (accepts_bind.mpr ⟨false, m.advance, hsep, accepts_pure.mpr ⟨rfl, rfl⟩⟩)
  | @more a' b as line ts mid rest hd _ ih =>
    obtain ⟨rfl, rfl⟩ := List.cons.inj has
    obtain ⟨m, hm, he⟩ := hi _ _ _ _ hd (Or.inl rfl) c hc
    obtain ⟨m₁, m', hm', hb, hmany⟩ := ih rfl (Cursor.rest_advance hm)
    refine ⟨m, m', hm', he, ?_⟩
    obtain ⟨n₁, h₁⟩ := hb.pure (g := some)
    obtain ⟨n₂, h₂⟩ := hmany
    refine ⟨max n₁ n₂, fun n hn => accepts_many_cons.mpr ⟨m₁, ?_, h₂ n (by omega)⟩⟩
    have hsep : (separator closing).Accepts m true m.advance :=
      (accepts_separator hne).mpr ⟨⟨line, by rw [hm, Cursor.rest_advance hm]; rfl⟩, rfl⟩
    exact accepts_bind.mpr ⟨true, m.advance, hsep, h₁ n (by omega)⟩

theorem complete_commaSeparated {item : Nat → Parser α} (hne : closing ≠ .comma)
    (hi : CompleteItem closing derives item)
    (hs : ∀ a ts rest, derives a ts rest → ∀ l ∈ ts.head?, l.token ≠ closing)
    {as : List α} {ts rest : List Lexeme} (h : CommaSeparated derives closing as ts rest)
    {c : Cursor} (hc : c.rest = ts) :
    ∃ m : Cursor, m.rest = rest ∧ Enough (fun n => commaSeparated (item n) closing) c as m := by
  cases as with
  | nil =>
    cases h with
    | @none line rest =>
      refine ⟨c.advance, Cursor.rest_advance hc, 0, fun n _ => ?_⟩
      refine accepts_bind.mpr ⟨true, c.advance, accepts_optional.mpr (Or.inl ⟨rfl, ⟨line, ?_⟩, rfl⟩),
        accepts_pure.mpr ⟨rfl, rfl⟩⟩
      rw [hc, Cursor.rest_advance hc]
  | cons a as =>
    obtain ⟨m, m', hm', ha, has⟩ := exists_items hne hi h rfl hc
    refine ⟨m', hm', .bind (a := false) (.const ?_) (ha.bind has.pure)⟩
    refine accepts_optional.mpr (Or.inr ⟨rfl, fun ht => ?_, rfl⟩)
    rw [Cursor.token?, hc] at ht
    obtain ⟨l, hl, hlt⟩ := Option.map_eq_some_iff.mp ht
    cases h with
    | last hd => exact hs _ _ _ hd l hl hlt
    | more hd _ => exact hs _ _ _ hd l hl hlt

end

theorem complete_parameters {ps : List Identifier} {ts rest : List Lexeme}
    (h : CommaSeparated IsParameter .rightParen ps ts rest) {c : Cursor} (hc : c.rest = ts) :
    ∃ m : Cursor, m.rest = rest ∧
      Enough (fun _ => commaSeparated identifier .rightParen) c ps m := by
  refine complete_commaSeparated (by simp) ?_ ?_ h hc
  · intro id ts l rest hd _ c hc
    rw [IsParameter] at hd
    subst hd
    refine ⟨c.advance, Cursor.rest_advance hc, .const (accepts_identifier.mpr ⟨?_, rfl⟩)⟩
    rw [hc, Cursor.rest_advance hc]
  · intro id ts rest hd l hl
    rw [IsParameter] at hd
    subst hd
    obtain rfl := Option.some.inj hl
    simp

def CompleteArgument (limit : Nat) (e : Expr) (ts rest : List Lexeme) : Prop :=
  Derives (.expr .equals e) ts rest ∧ CompleteExpr limit .equals e ts rest

theorem complete_arguments {limit : Nat} {es : List Expr} {ts rest : List Lexeme}
    (h : CommaSeparated (CompleteArgument limit) .rightParen es ts rest) {c : Cursor}
    (hc : c.rest = ts) : ∃ m : Cursor, m.rest = rest ∧
      Enough (fun n => commaSeparated (expressionAt limit n .lowest) .rightParen) c es m := by
  refine complete_commaSeparated (by simp) ?_ ?_ h hc
  · rintro e ts ⟨t, line⟩ rest hd ht c hc
    refine hd.2.enough_lowest ?_ hc
    rcases ht with rfl | rfl
    · exact follows_of_token rfl (by simp)
    · exact follows_of_token rfl (by simp)
  · intro e ts rest hd l hl ht
    obtain ⟨l', tl, rfl, hs⟩ := hd.1.starts
    obtain rfl := Option.some.inj hl
    rw [ht] at hs
    exact absurd hs (by decide)

/-! ### The loop -/

section
variable {limit line : Nat} {left right : Expr} {ts mid rest : List Lexeme}

theorem complete_infixed {op : InfixOp} {q : Precedence}
    (hl : CompleteExpr limit op.level left ts (⟨op.sign, line⟩ :: mid)) (hq : op.level < q)
    (hr : CompleteExpr limit q right mid rest) :
    CompleteExpr limit op.level (.infixed left op right line) ts rest := by
  intro p c hp hpq hf hc
  have helse : op.sign ≠ .elseWord := by cases op <;> simp [InfixOp.sign]
  obtain ⟨m₁, hm₁, hk⟩ := hl p c hp hpq
    (follows_of_token (Token.precedence_sign op) helse (Nat.le_refl _)) hc
  obtain ⟨m₂, hm₂, he⟩ := hr.enough (p := op.level)
    (Nat.le_trans op.level_le_product (by decide)) (Precedence.inner_le_of_lt hq)
    (hf.mono (Nat.le_of_lt hq)) hf.ends (Cursor.rest_advance hm₁)
  refine ⟨m₂, hm₂, fun a c' ha => hk a c' ?_⟩
  have hn : continuation p m₁.token? = some .infixed := by
    have hlt : p < op.level := Precedence.lt_of_inner_le hpq op.level_le_product
    simp only [Cursor.token?_of_rest hm₁, continuation, Option.bind_some, Token.precedence_sign,
      Token.continueForm?_sign, if_pos hlt]
  refine enough_continueAt hn (.bind (a := ((op, op.level), line)) (.const ?_) he.pure) ha
  refine accepts_accept.mpr ⟨op.sign, by rw [hm₁, Cursor.rest_advance hm₁], ?_, rfl⟩
  rw [Token.infixOp?_eq_some_iff.mpr rfl, Option.map_some, Token.precedence_sign]

theorem complete_call {es : List Expr}
    (hl : CompleteExpr limit .call left ts (⟨.leftParen, line⟩ :: mid))
    (hes : CommaSeparated (CompleteArgument limit) .rightParen es mid rest) :
    CompleteExpr limit .call (.call left es line) ts rest := by
  intro p c hp hpq hf hc
  obtain ⟨m₁, hm₁, hk⟩ := hl p c hp hpq (follows_of_token rfl (by simp)) hc
  obtain ⟨m₂, hm₂, he⟩ := complete_arguments hes (Cursor.rest_advance hm₁)
  refine ⟨m₂, hm₂, fun a c' ha => hk a c' ?_⟩
  have hn : continuation p m₁.token? = some .call := by
    have hlt : p < Token.leftParen.precedence := Nat.lt_of_le_of_lt hp (by decide)
    simp only [Cursor.token?_of_rest hm₁, continuation, Option.bind_some, if_pos hlt]
    rfl
  exact enough_continueAt hn ((enough_expect hm₁).bind he.pure) ha

theorem complete_function {ps : List Identifier} {b : Block} {l₁ : Nat}
    (hp : CommaSeparated IsParameter .rightParen ps ts mid)
    (hb : Complete limit (.block b) mid rest) :
    CompleteExpr limit .call (.function ps b line) (⟨.fnWord, line⟩ :: ⟨.leftParen, l₁⟩ :: ts)
      rest := by
  refine .of_firstOperand fun c _ hr => ?_
  have h₁ := Cursor.rest_advance hr
  obtain ⟨m₁, hm₁, hps⟩ := complete_parameters hp (Cursor.rest_advance h₁)
  obtain ⟨m₂, hm₂, hblock⟩ := hb m₁ hm₁
  exact ⟨m₂, hm₂, enough_firstOperand hr rfl
    ((enough_expect hr).bind ((enough_expect h₁).bind (hps.bind hblock.pure)))⟩

end

/-! ### Statements and blocks -/

section
variable {limit line l₁ l₂ : Nat} {ts mid rest : List Lexeme}

theorem complete_bind {name : String} {value : Expr}
    (h : CompleteExpr limit .equals value ts rest) :
    Complete limit (.statement (.bind ⟨name, l₁⟩ value line))
      (⟨.letWord, line⟩ :: ⟨.identifier name, l₁⟩ :: ⟨.assign, l₂⟩ :: ts) rest := by
  intro c hf hc
  have h₁ := Cursor.rest_advance hc
  have h₂ := Cursor.rest_advance h₁
  obtain ⟨m, hm, he⟩ := h.enough_lowest hf (Cursor.rest_advance h₂)
  refine ⟨m, hm, fun done c' hd => ?_⟩
  have hid : identifier.Accepts c.advance ⟨name, l₁⟩ c.advance.advance :=
    accepts_identifier.mpr ⟨by rw [h₁, h₂], rfl⟩
  have hbind : Enough (fun n => bindStmt (expressionAt limit n)) c
      (.bind ⟨name, l₁⟩ value line) c' :=
    (enough_expect hc).bind ((Enough.const hid).bind ((enough_expect h₂).bind
      (he.bind (.bind (.const hd) (.const (accepts_pure.mpr ⟨rfl, rfl⟩))))))
  refine hbind.imp fun n hn => ?_
  rw [stmt, accepts_peek_bind, Cursor.token?_of_rest hc]
  exact hn

theorem complete_ret {value : Expr} (h : CompleteExpr limit .equals value ts rest) :
    Complete limit (.statement (.ret value line)) (⟨.returnWord, line⟩ :: ts) rest := by
  intro c hf hc
  obtain ⟨m, hm, he⟩ := h.enough_lowest hf (Cursor.rest_advance hc)
  refine ⟨m, hm, fun done c' hd => ?_⟩
  have hret : Enough (fun n => retStmt (expressionAt limit n)) c (.ret value line) c' :=
    (enough_expect hc).bind
      (he.bind (.bind (.const hd) (.const (accepts_pure.mpr ⟨rfl, rfl⟩))))
  refine hret.imp fun n hn => ?_
  rw [stmt, accepts_peek_bind, Cursor.token?_of_rest hc]
  exact hn

theorem complete_expr {value : Expr} {l : Lexeme}
    (hd : Derives (.expr .equals value) (l :: ts) rest)
    (h : CompleteExpr limit .equals value (l :: ts) rest) :
    Complete limit (.statement (.expr value l.line)) (l :: ts) rest := by
  intro c hf hc
  obtain ⟨m, hm, he⟩ := h.enough_lowest hf hc
  refine ⟨m, hm, fun done c' hdone => ?_⟩
  have hexpr : Enough (fun n => do
      let value ← expressionAt limit n .lowest
      let _ ← optional .semicolon
      return Stmt.expr value l.line) c (.expr value l.line) c' :=
    he.bind (.bind (.const hdone) (.const (accepts_pure.mpr ⟨rfl, rfl⟩)))
  refine hexpr.imp fun n hn => ?_
  rw [stmt, accepts_peek_bind, Cursor.token?_of_rest hc]
  -- the keywords of statements start no expression
  obtain ⟨l', tl, hl, hs⟩ := hd.starts
  obtain rfl := (List.cons.inj hl).1
  have hline : c.currentLine = l.line := by simp [Cursor.currentLine, hc]
  split
  · next ht =>
    rw [Option.some.inj ht] at hs
    exact absurd hs (by decide)
  · next ht =>
    rw [Option.some.inj ht] at hs
    exact absurd hs (by decide)
  · rw [exprStmt, accepts_currentLine_bind, hline]
    exact hn

theorem complete_block {ss : List Stmt}
    (h : Complete limit (.statements ss) ts (⟨.rightBrace, l₁⟩ :: rest)) :
    Complete limit (.block (.mk ss line)) (⟨.leftBrace, line⟩ :: ts) rest := by
  intro c hc
  obtain ⟨m, hm, hs⟩ := h c.advance (fun t => t = .rightBrace) (Cursor.rest_advance hc)
    (by simp) (by simp)
  refine ⟨m.advance, Cursor.rest_advance hm, .of_succ ?_⟩
  exact (enough_expect hc).bind (hs.bind ((enough_expect hm).pure (g := fun _ => Block.mk ss line)))

theorem complete_noStatement : Complete limit (.statements []) rest rest := by
  intro c stop hc _ hend
  refine ⟨c, hc, 0, fun n _ => (accepts_statementsUntil_stop fun t ht => ?_).mpr ⟨rfl, rfl⟩⟩
  rw [Cursor.token?, hc] at ht
  obtain ⟨l, hl, rfl⟩ := Option.map_eq_some_iff.mp ht
  exact hend l hl

theorem stop_eq_false {stop : Token → Bool} (hs : ∀ t, stop t = true → t = .rightBrace)
    {t : Token} (ht : t ≠ .rightBrace) : stop t = false := by
  cases h : stop t with
  | false => rfl
  | true => exact absurd (hs t h) ht

theorem complete_emptyStatement {ss : List Stmt} (h : Complete limit (.statements ss) ts rest) :
    Complete limit (.statements ss) (⟨.semicolon, line⟩ :: ts) rest := by
  intro c stop hc hs hend
  obtain ⟨m, hm, he⟩ := h c.advance stop (Cursor.rest_advance hc) hs hend
  have hsemi := stop_eq_false hs (t := .semicolon) (by simp)
  exact ⟨m, hm, he.imp fun n h => (accepts_statementsUntil_semicolon hc hsemi).mpr h⟩

/-- A statement in front of others, when it is known how the parser gets past the
place for the terminator. -/
theorem exists_statements {s : Stmt} {ss : List Stmt} {stop : Token → Bool} {c : Cursor}
    (hd : Derives (.statement s) ts mid) (h : Complete limit (.statement s) ts mid)
    (hf : Follows .lowest mid) (hc : c.rest = ts) (hs : ∀ t, stop t = true → t = .rightBrace)
    (hss : ∀ m : Cursor, m.rest = mid → ∃ done m' m'', (optional .semicolon).Accepts m done m' ∧
      m''.rest = rest ∧
      Enough (fun n => statementsUntil stop (stmt (expressionAt limit n))) m' ss m'') :
    ∃ m : Cursor, m.rest = rest ∧
      Enough (fun n => statementsUntil stop (stmt (expressionAt limit n))) c (s :: ss) m := by
  obtain ⟨m, hm, hstmt⟩ := h c hf hc
  obtain ⟨done, m', m'', hopt, hrest, n₂, h₂⟩ := hss m hm
  obtain ⟨n₁, h₁⟩ := hstmt done m' hopt
  -- the statement has read something, so recovery leaves the place as it is
  have hshort : m'.rest.length < c.rest.length := by
    have hle := (optional .semicolon).length_le m
    rw [hopt, hm] at hle
    rw [hc]
    exact Nat.lt_of_le_of_lt hle hd.takes
  obtain ⟨l, tl, rfl, hl⟩ := hd.starts
  have hstop : stop l.token = false := by
    refine stop_eq_false hs fun ht => ?_
    rw [ht] at hl
    exact absurd hl (by decide)
  have hsemi : l.token ≠ .semicolon := by
    intro ht
    rw [ht] at hl
    exact absurd hl (by decide)
  refine ⟨m'', hrest, max n₁ n₂, fun n hn => ?_⟩
  refine (accepts_statementsUntil_statement hc hstop hsemi).mpr
    ⟨s, m', ss, rfl, ?_, h₂ n (by omega)⟩
  refine accepts_recovering.mpr ⟨s, m', rfl, h₁ n (by omega), ?_⟩
  rw [if_pos (by rwa [m'.left_eq, c.left_eq])]

theorem complete_terminated {s : Stmt} {ss : List Stmt}
    (hd : Derives (.statement s) ts (⟨.semicolon, line⟩ :: mid))
    (h : Complete limit (.statement s) ts (⟨.semicolon, line⟩ :: mid))
    (hss : Complete limit (.statements ss) mid rest) :
    Complete limit (.statements (s :: ss)) ts rest := by
  intro c stop hc hs hend
  refine exists_statements hd h (follows_of_token rfl (by simp)) hc hs fun m hm => ?_
  obtain ⟨m', hm', he⟩ := hss m.advance stop (Cursor.rest_advance hm) hs hend
  refine ⟨true, m.advance, m', accepts_optional.mpr (Or.inl ⟨rfl, ⟨line, ?_⟩, rfl⟩), hm', he⟩
  rw [hm, Cursor.rest_advance hm]

/-- Behind a statement without a terminator comes nothing that goes on with it. -/
theorem follows_of_not_continues {ss : List Stmt} (hn : ¬ Continues mid)
    (hd : Derives (.statements ss) mid rest) (hr : ∀ l ∈ rest.head?, l.token ≠ .elseWord) :
    Follows .lowest mid := by
  intro l hl
  refine ⟨?_, hd.statements_starts hr l hl⟩
  obtain ⟨tl, rfl⟩ := List.head?_eq_some_iff.mp hl
  by_cases hp : l.token = .leftParen
  · exact absurd ⟨l, tl, rfl, Or.inl hp⟩ hn
  · by_cases hop : l.token.infixOp?.isSome
    · exact absurd ⟨l, tl, rfl, Or.inr (Token.infixOp?_isSome.mp hop)⟩ hn
    · exact Token.precedence_le_lowest hp hop

theorem complete_unterminated {s : Stmt} {ss : List Stmt} (hd : Derives (.statement s) ts mid)
    (h : Complete limit (.statement s) ts mid) (hn : ¬ Continues mid)
    (hds : Derives (.statements ss) mid rest) (hss : Complete limit (.statements ss) mid rest) :
    Complete limit (.statements (s :: ss)) ts rest := by
  intro c stop hc hs hend
  have helse : ∀ l ∈ rest.head?, l.token ≠ .elseWord := by
    intro l hl
    rw [hs _ (hend l hl)]
    simp
  refine exists_statements hd h (follows_of_not_continues hn hds helse) hc hs fun m hm => ?_
  obtain ⟨m', hm', he⟩ := hss m stop hm hs hend
  -- an empty statement may come next, whose semicolon is then read as the terminator
  by_cases ht : m.token? = some .semicolon
  · obtain ⟨l, hl, hsemi⟩ := Option.map_eq_some_iff.mp ht
    obtain ⟨tl, htl⟩ := List.head?_eq_some_iff.mp hl
    obtain ⟨_, line⟩ := l
    obtain rfl := hsemi
    have hstop := stop_eq_false hs (t := .semicolon) (by simp)
    refine ⟨true, m.advance, m', accepts_optional.mpr (Or.inl ⟨rfl, ⟨line, ?_⟩, rfl⟩), hm',
      he.imp fun n h => (accepts_statementsUntil_semicolon htl hstop).mp h⟩
    rw [htl, Cursor.rest_advance htl]
  · exact ⟨false, m, m', accepts_optional.mpr (Or.inr ⟨rfl, ht, rfl⟩), hm', he⟩

end

end Parser

/-! ### Derivations -/

namespace Derives

open ExprScript.Parser

variable {limit : Nat}

mutual

/-- **Every phrase of the grammar is accepted where it stands.** -/
theorem complete : ∀ {x : Phrase} {ts rest : List Lexeme}, Derives x ts rest →
    Complete limit x ts rest
  | _, _, _, .tighter hlt h => fun p c hp hpq hf hc =>
    h.complete p c hp (Nat.le_trans hpq (Nat.le_of_lt hlt)) (hf.mono (Nat.le_of_lt hlt)) hc
  | _, _, _, .infixed hl hlt hr => complete_infixed hl.complete hlt hr.complete
  | _, _, _, .prefixed h => complete_prefixed h.complete
  | _, _, _, .call hc ha => complete_call hc.complete (arguments_complete ha)
  | _, _, _, .identifier => complete_identifier
  | _, _, _, .integer hn => complete_integer hn
  | _, _, _, .trueWord => complete_boolean rfl rfl
  | _, _, _, .falseWord => complete_boolean rfl rfl
  | _, _, _, .group h => complete_group h.complete
  | _, _, _, .conditional hc hb => complete_conditional hc.complete hb.complete
  | _, _, _, .conditionalElse hc hb ha =>
    complete_conditionalElse hc.complete hb.complete ha.complete
  | _, _, _, .function hp hb => complete_function hp hb.complete
  | _, _, _, .block h => complete_block h.complete
  | _, _, _, .bind h => complete_bind h.complete
  | _, _, _, .ret h => complete_ret h.complete
  | _, _, _, .expr h => complete_expr h h.complete
  | _, _, _, .noStatement => complete_noStatement
  | _, _, _, .emptyStatement h => complete_emptyStatement h.complete
  | _, _, _, .terminated hs h => complete_terminated hs hs.complete h.complete
  | _, _, _, .unterminated hs hn h => complete_unterminated hs hs.complete hn h h.complete
termination_by structural _ _ _ h => h

theorem arguments_complete : ∀ {es : List Expr} {ts rest : List Lexeme},
    CommaSeparated (fun e => Derives (.expr .equals e)) .rightParen es ts rest →
      CommaSeparated (CompleteArgument limit) .rightParen es ts rest
  | _, _, _, .none => .none
  | _, _, _, .last h => .last ⟨h, h.complete⟩
  | _, _, _, .more h hs => .more ⟨h, h.complete⟩ (arguments_complete hs)
termination_by structural _ _ _ h => h

end

end Derives

end ExprScript
