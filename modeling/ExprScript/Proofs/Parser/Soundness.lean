import ExprScript.Proofs.Grammar
import ExprScript.Proofs.Parser.Acceptance
import ExprScript.Parser.Grammar

/-!
# What is accepted is derived

A run of the parser that records no error and gives a tree has read a phrase of
the grammar with that tree.

The loop that continues an expression keeps an invariant: what it has read so far
is an expression on some level `q`, and the next token binds no tighter than `q`
(`Ends q`).  An operator on which the loop goes on is on a level `≤ q`, so its left
operand is where the grammar wants it; its right operand ends where the operator
binds no tighter, which is the invariant again.

* `continuedBy_sound`: one turn of the loop keeps the invariant.
* `levels_sound`: expressions and blocks, with any number of levels of nesting.
* `programWithin_sound`: whole programs.
-/

namespace ExprScript

/-- The level of the expressions that are read where the surroundings bind with the
given strength.  It is the next one, but prefix operators are read everywhere. -/
def Precedence.inner : Precedence → Precedence
  | .lowest => .equals
  | .equals => .lessGreater
  | .lessGreater => .sum
  | .sum => .product
  | .product | .operand | .call => .operand

/-- The next token continues nothing that binds with the given strength. -/
def Ends (p : Precedence) (rest : List Lexeme) : Prop :=
  ∀ l ∈ rest.head?, l.token.precedence ≤ p

namespace Precedence

theorem inner_le_operand (p : Precedence) : p.inner ≤ .operand := by
  cases p <;> decide

theorem inner_le_of_lt {p q : Precedence} (h : p < q) : p.inner ≤ q := by
  cases p <;> cases q <;> revert h <;> decide

theorem lt_of_inner_le {p q : Precedence} (h : p.inner ≤ q) (hq : q ≤ .product) : p < q := by
  cases p <;> cases q <;> revert h hq <;> decide

theorem lt_inner {p : Precedence} (h : p ≤ .product) : p < p.inner := by
  cases p <;> revert h <;> decide

end Precedence

theorem ends_call (rest : List Lexeme) : Ends .call rest :=
  fun l _ => l.token.precedence.rank_le_call

/-- Where an expression ends at the weakest strength, no statement goes on. -/
theorem Ends.not_continues {rest : List Lexeme} (h : Ends .lowest rest) : ¬ Continues rest := by
  rintro ⟨l, tl, rfl, hl | ⟨op, hl⟩⟩
  · have := h l rfl
    rw [hl] at this
    exact absurd this (by decide)
  · have := h l rfl
    rw [hl, Token.precedence_sign] at this
    cases op <;> exact absurd this (by decide)

namespace Parser

theorem continuation_eq_none_iff {p : Precedence} {c : Cursor} :
    continuation p c.token? = none ↔ Ends p c.rest := by
  cases hc : c.rest with
  | nil => simp [Cursor.token?, hc, continuation, Ends]
  | cons l rest =>
    have hnone : p < l.token.precedence → l.token.continueForm? ≠ none := by
      cases l.token <;> simp [Token.continueForm?, Token.precedence] <;> cases p <;> decide
    simp only [Cursor.token?_of_rest hc, continuation, Option.bind_some, Ends, List.head?_cons,
      Option.mem_def, Option.some.injEq, forall_eq']
    split
    · next h => exact ⟨fun hn => absurd hn (hnone h), fun hle => absurd h (Nat.not_lt.mpr hle)⟩
    · next h => exact ⟨fun _ => Nat.not_lt.mp h, fun _ => rfl⟩

theorem continuation_eq_some {p : Precedence} {c : Cursor} {form : ContinueForm}
    (h : continuation p c.token? = some form) :
    ∃ l rest, c.rest = l :: rest ∧ p < l.token.precedence ∧ l.token.continueForm? = some form := by
  cases hc : c.rest with
  | nil => simp [Cursor.token?, hc, continuation] at h
  | cons l rest =>
    simp only [Cursor.token?_of_rest hc, continuation, Option.bind_some] at h
    split at h
    · next hp => exact ⟨l, rest, rfl, hp, h⟩
    · simp at h

/-! ### Lists -/

theorem commaSeparated_sound {α : Type} {item : Parser α} {closing : Token}
    {derives : α → List Lexeme → List Lexeme → Prop} (hne : closing ≠ .comma)
    (hi : ∀ c a c', item.Accepts c a c' → derives a c.rest c'.rest) {as : List α} {c c' : Cursor}
    (h : (commaSeparated item closing).Accepts c as c') :
    CommaSeparated derives closing as c.rest c'.rest := by
  -- what follows the first item, by induction on the number of items
  have tail : ∀ (as : List α) (a : α) (ts : List Lexeme) (c c' : Cursor), derives a ts c.rest →
      (many (nextItem item closing) (nextItem_advances item closing)).Accepts c as c' →
      CommaSeparated derives closing (a :: as) ts c'.rest := by
    intro as
    induction as with
    | nil =>
      intro a ts c c' ha h
      obtain ⟨more, m, hs, hm⟩ := accepts_bind.mp (accepts_many_nil.mp h)
      obtain ⟨⟨line, hr⟩, -⟩ := (accepts_separator hne).mp hs
      cases more with
      | true =>
        obtain ⟨b, m', -, hp⟩ := accepts_bind.mp hm
        exact absurd (accepts_pure.mp hp).1 (by simp)
      | false =>
        obtain ⟨-, rfl⟩ := accepts_pure.mp hm
        rw [hr] at ha
        exact .last ha
    | cons b as ih =>
      intro a ts c c' ha h
      obtain ⟨m, hn, hm⟩ := accepts_many_cons.mp h
      obtain ⟨more, m₁, hs, hm₁⟩ := accepts_bind.mp hn
      obtain ⟨⟨line, hr⟩, -⟩ := (accepts_separator hne).mp hs
      cases more with
      | true =>
        obtain ⟨b', m₂, hb, hp⟩ := accepts_bind.mp hm₁
        obtain ⟨he, rfl⟩ := accepts_pure.mp hp
        obtain rfl := Option.some.inj he
        rw [hr] at ha
        exact .more ha (ih b' m₁.rest m₂ c' (hi _ _ _ hb) hm)
      | false => exact absurd (accepts_pure.mp hm₁).1 (by simp)
  obtain ⟨close, m, ho, hm⟩ := accepts_bind.mp h
  rcases accepts_optional.mp ho with ⟨rfl, ⟨line, hr⟩, -⟩ | ⟨rfl, -, rfl⟩
  · obtain ⟨rfl, rfl⟩ := accepts_pure.mp hm
    rw [hr]
    exact .none
  · obtain ⟨first, m₁, hf, hm⟩ := accepts_bind.mp hm
    obtain ⟨others, m₂, ho, hp⟩ := accepts_bind.mp hm
    obtain ⟨rfl, rfl⟩ := accepts_pure.mp hp
    exact tail others first _ m₁ m₂ (hi _ _ _ hf) ho

/-! ### Phrases made of sound parts -/

/-- What the parser of expressions accepts is derived, up to where it ends. -/
def SoundExpr (e : Precedence → Parser Expr) : Prop :=
  ∀ p c a c', (e p).Accepts c a c' →
    Derives (.expr p.inner a) c.rest c'.rest ∧ Ends p c'.rest

def SoundBlock (b : Parser Block) : Prop :=
  ∀ c a c', b.Accepts c a c' → Derives (.block a) c.rest c'.rest

section
variable {e : Precedence → Parser Expr} {b : Parser Block} {c c' : Cursor} {a : Expr}

theorem conditionalExpr_sound (he : SoundExpr e) (hb : SoundBlock b)
    (h : (conditionalExpr e b).Accepts c a c') : Derives (.expr .call a) c.rest c'.rest := by
  obtain ⟨line, m₁, h₁, h⟩ := accepts_bind.mp h
  obtain ⟨l₁, m₂, h₂, h⟩ := accepts_bind.mp h
  obtain ⟨condition, m₃, h₃, h⟩ := accepts_bind.mp h
  obtain ⟨l₂, m₄, h₄, h⟩ := accepts_bind.mp h
  obtain ⟨consequence, m₅, h₅, h⟩ := accepts_bind.mp h
  obtain ⟨more, m₆, h₆, h⟩ := accepts_bind.mp h
  rw [(accepts_expect.mp h₁).1, (accepts_expect.mp h₂).1]
  have hcond := (he _ _ _ _ h₃).1
  rw [(accepts_expect.mp h₄).1] at hcond
  have hcons := hb _ _ _ h₅
  rcases accepts_optional.mp h₆ with ⟨rfl, ⟨l₃, hr⟩, -⟩ | ⟨rfl, -, rfl⟩
  · obtain ⟨alternative, m₇, h₇, h⟩ := accepts_bind.mp h
    obtain ⟨rfl, rfl⟩ := accepts_pure.mp h
    exact .conditionalElse hcond (hr ▸ hcons) (hb _ _ _ h₇)
  · obtain ⟨rfl, rfl⟩ := accepts_pure.mp h
    exact .conditional hcond hcons

theorem functionExpr_sound (hb : SoundBlock b) (h : (functionExpr b).Accepts c a c') :
    Derives (.expr .call a) c.rest c'.rest := by
  obtain ⟨line, m₁, h₁, h⟩ := accepts_bind.mp h
  obtain ⟨l₁, m₂, h₂, h⟩ := accepts_bind.mp h
  obtain ⟨parameters, m₃, h₃, h⟩ := accepts_bind.mp h
  obtain ⟨body, m₄, h₄, h⟩ := accepts_bind.mp h
  obtain ⟨rfl, rfl⟩ := accepts_pure.mp h
  rw [(accepts_expect.mp h₁).1, (accepts_expect.mp h₂).1]
  refine .function (commaSeparated_sound (by simp) (fun c id c' hi => ?_) h₃) (hb _ _ _ h₄)
  exact (accepts_identifier.mp hi).1

theorem startingWith_sound (he : SoundExpr e) (hb : SoundBlock b) {form : StartForm}
    (h : (startingWith e b form).Accepts c a c') :
    ∃ q, .operand ≤ q ∧ Derives (.expr q a) c.rest c'.rest ∧ Ends q c'.rest := by
  have call (hd : Derives (.expr .call a) c.rest c'.rest) :
      ∃ q, .operand ≤ q ∧ Derives (.expr q a) c.rest c'.rest ∧ Ends q c'.rest :=
    ⟨.call, by decide, hd, ends_call _⟩
  cases form with
  | identifier =>
    obtain ⟨⟨name, line⟩, m, h₁, h⟩ := accepts_bind.mp h
    obtain ⟨rfl, rfl⟩ := accepts_pure.mp h
    refine call ?_
    rw [(accepts_identifier.mp h₁).1]
    exact .identifier
  | integer =>
    obtain ⟨⟨text, line⟩, m, h₁, h⟩ := accepts_bind.mp h
    obtain ⟨t, hr, ht, -⟩ := accepts_accept.mp h₁
    dsimp only at h
    split at h
    · next n hn =>
      obtain ⟨rfl, rfl⟩ := accepts_pure.mp h
      refine call ?_
      cases t <;> simp [Token.integer?] at ht
      rw [hr, ht]
      exact .integer hn
    · exact absurd h not_accepts_fail
  | boolean =>
    obtain ⟨⟨v, line⟩, m, h₁, h⟩ := accepts_bind.mp h
    obtain ⟨t, hr, ht, -⟩ := accepts_accept.mp h₁
    obtain ⟨rfl, rfl⟩ := accepts_pure.mp h
    refine call ?_
    rw [hr]
    cases t <;> simp [Token.boolean?] at ht
    · rw [ht]
      exact .trueWord
    · rw [ht]
      exact .falseWord
  | prefixed =>
    obtain ⟨⟨op, line⟩, m, h₁, h⟩ := accepts_bind.mp h
    obtain ⟨operand, m', h₂, h⟩ := accepts_bind.mp h
    obtain ⟨rfl, rfl⟩ := accepts_pure.mp h
    obtain ⟨t, hr, ht, -⟩ := accepts_accept.mp h₁
    obtain ⟨hd, hends⟩ := he _ _ _ _ h₂
    refine ⟨.operand, by decide, ?_, hends⟩
    rw [hr, Token.prefixOp?_eq_some_iff.mp ht]
    exact .prefixed hd
  | group =>
    obtain ⟨l₁, m₁, h₁, h⟩ := accepts_bind.mp h
    obtain ⟨inner, m₂, h₂, h⟩ := accepts_bind.mp h
    obtain ⟨l₂, m₃, h₃, h⟩ := accepts_bind.mp h
    obtain ⟨rfl, rfl⟩ := accepts_pure.mp h
    have hd := (he _ _ _ _ h₂).1
    rw [(accepts_expect.mp h₃).1] at hd
    refine call ?_
    rw [(accepts_expect.mp h₁).1]
    exact .group hd
  | conditional => exact call (conditionalExpr_sound he hb h)
  | function => exact call (functionExpr_sound hb h)

theorem firstOperand_sound (he : SoundExpr e) (hb : SoundBlock b)
    (h : (firstOperand e b).Accepts c a c') :
    ∃ q, .operand ≤ q ∧ Derives (.expr q a) c.rest c'.rest ∧ Ends q c'.rest := by
  rw [firstOperand, accepts_currentLine_bind, accepts_peek_bind] at h
  split at h
  · exact absurd h not_accepts_fail
  · split at h
    · obtain ⟨_, m, -, h⟩ := accepts_bind.mp h
      exact absurd h not_accepts_fail
    · exact startingWith_sound he hb h

/-- **The loop step**: from an expression on a level at which it ends to a longer
one of which the same is true. -/
theorem continuedBy_sound (he : SoundExpr e) {p q : Precedence} {left : Expr} {ts : List Lexeme}
    {form : ContinueForm} (hl : Derives (.expr q left) ts c.rest) (hq : Ends q c.rest)
    (hf : continuation p c.token? = some form) (h : (continuedBy e left form).Accepts c a c') :
    ∃ q', p < q' ∧ Derives (.expr q' a) ts c'.rest ∧ Ends q' c'.rest := by
  obtain ⟨l, rest, hc, hp, hform⟩ := continuation_eq_some hf
  have hlq : l.token.precedence ≤ q := hq l (by rw [hc]; rfl)
  cases form with
  | infixed =>
    obtain ⟨⟨⟨op, prec⟩, line⟩, m, h₁, h⟩ := accepts_bind.mp h
    obtain ⟨right, m', h₂, h⟩ := accepts_bind.mp h
    obtain ⟨rfl, rfl⟩ := accepts_pure.mp h
    obtain ⟨t, hr, ht, -⟩ := accepts_accept.mp h₁
    obtain ⟨op', hop, he'⟩ := Option.map_eq_some_iff.mp ht
    obtain ⟨rfl, rfl⟩ := Prod.mk.inj he'
    obtain rfl := Token.infixOp?_eq_some_iff.mp hop
    obtain ⟨rfl, -⟩ := List.cons.inj (hc.symm.trans hr)
    rw [Token.precedence_sign] at h₂ hp hlq
    obtain ⟨hd, hends⟩ := he _ _ _ _ h₂
    have hleft : Derives (.expr op'.level left) ts (⟨op'.sign, line⟩ :: m.rest) :=
      .of_le hlq (hr ▸ hl)
    exact ⟨op'.level, hp, .infixed hleft (Precedence.lt_inner op'.level_le_product) hd, hends⟩
  | call =>
    obtain ⟨line, m, h₁, h⟩ := accepts_bind.mp h
    obtain ⟨arguments, m', h₂, h⟩ := accepts_bind.mp h
    obtain ⟨rfl, rfl⟩ := accepts_pure.mp h
    have hr := (accepts_expect.mp h₁).1
    obtain ⟨rfl, -⟩ := List.cons.inj (hc.symm.trans hr)
    obtain rfl : .call = q := Precedence.rank_injective (Nat.le_antisymm hlq q.rank_le_call)
    have hleft : Derives (.expr .call left) ts (⟨.leftParen, line⟩ :: m.rest) := hr ▸ hl
    exact ⟨.call, hp, .call hleft (commaSeparated_sound (by simp)
      (fun c e c' h => (he _ _ _ _ h).1) h₂), ends_call _⟩

/-! ### Statements -/

def bareStmt (e : Precedence → Parser Expr) : Parser Stmt := do
  match ← peek with
  | some .letWord =>
    let line ← expect .letWord
    let target ← identifier
    let _ ← expect .assign
    return .bind target (← e .lowest) line
  | some .returnWord =>
    let line ← expect .returnWord
    return .ret (← e .lowest) line
  | _ =>
    let line ← currentLine
    return .expr (← e .lowest) line

/-- Whatever a statement is, its terminator comes last and may be missing. -/
theorem stmt_eq (e : Precedence → Parser Expr) : stmt e = do
    let s ← bareStmt e
    let _ ← optional .semicolon
    return s := by
  rw [stmt, bareStmt, bind_assoc]
  refine congrArg (peek >>= ·) (funext fun next => ?_)
  split
  · simp only [bindStmt, bind_assoc, pure_bind]
  · simp only [retStmt, bind_assoc, pure_bind]
  · simp only [exprStmt, bind_assoc, pure_bind]

theorem bareStmt_sound (he : SoundExpr e) {s : Stmt} (h : (bareStmt e).Accepts c s c') :
    Derives (.statement s) c.rest c'.rest ∧ Ends .lowest c'.rest := by
  rw [bareStmt, accepts_peek_bind] at h
  split at h
  · obtain ⟨line, m₁, h₁, h⟩ := accepts_bind.mp h
    obtain ⟨⟨name, l₁⟩, m₂, h₂, h⟩ := accepts_bind.mp h
    obtain ⟨l₂, m₃, h₃, h⟩ := accepts_bind.mp h
    obtain ⟨value, m₄, h₄, h⟩ := accepts_bind.mp h
    obtain ⟨rfl, rfl⟩ := accepts_pure.mp h
    refine ⟨?_, (he _ _ _ _ h₄).2⟩
    rw [(accepts_expect.mp h₁).1, (accepts_identifier.mp h₂).1, (accepts_expect.mp h₃).1]
    exact .bind (he _ _ _ _ h₄).1
  · obtain ⟨line, m₁, h₁, h⟩ := accepts_bind.mp h
    obtain ⟨value, m₂, h₂, h⟩ := accepts_bind.mp h
    obtain ⟨rfl, rfl⟩ := accepts_pure.mp h
    refine ⟨?_, (he _ _ _ _ h₂).2⟩
    rw [(accepts_expect.mp h₁).1]
    exact .ret (he _ _ _ _ h₂).1
  · rw [accepts_currentLine_bind] at h
    obtain ⟨value, m₁, h₁, h⟩ := accepts_bind.mp h
    obtain ⟨rfl, rfl⟩ := accepts_pure.mp h
    obtain ⟨hd, hends⟩ := he _ _ _ _ h₁
    refine ⟨?_, hends⟩
    obtain ⟨l, tl, hl, -⟩ := hd.starts
    have hline : c.currentLine = l.line := by simp [Cursor.currentLine, hl]
    rw [hline, hl]
    exact .expr (hl ▸ hd)

theorem stmt_sound (he : SoundExpr e) {s : Stmt} (h : (stmt e).Accepts c s c') :
    ∃ m : Cursor, Derives (.statement s) c.rest m.rest ∧ Ends .lowest m.rest ∧
      ∃ done, (optional .semicolon).Accepts m done c' := by
  rw [stmt_eq] at h
  obtain ⟨s', m, hs, h⟩ := accepts_bind.mp h
  obtain ⟨done, m', hdone, h⟩ := accepts_bind.mp h
  obtain ⟨rfl, rfl⟩ := accepts_pure.mp h
  obtain ⟨hd, hends⟩ := bareStmt_sound he hs
  exact ⟨m, hd, hends, done, hdone⟩

theorem statementsUntil_sound (he : SoundExpr e) {stop : Token → Bool}
    (hs : stop .semicolon = false) {ss : List Stmt}
    (h : (statementsUntil stop (stmt e)).Accepts c ss c') :
    Derives (.statements ss) c.rest c'.rest ∧ ∀ l ∈ c'.rest.head?, stop l.token = true := by
  -- induction on what is left to read, which each element makes shorter
  induction hn : c.rest.length using Nat.strongRecOn generalizing c ss with
  | ind n ih =>
    subst hn
    cases hc : c.rest with
    | nil =>
      obtain ⟨rfl, rfl⟩ := (accepts_statementsUntil_stop (by simp [Cursor.token?, hc])).mp h
      exact ⟨hc ▸ .noStatement, by simp [hc]⟩
    | cons l rest =>
      have ht := Cursor.token?_of_rest hc
      by_cases hstop : stop l.token = true
      · obtain ⟨rfl, rfl⟩ := (accepts_statementsUntil_stop (by simp [ht, hstop])).mp h
        exact ⟨hc ▸ .noStatement, by simp [hc, hstop]⟩
      · rw [Bool.not_eq_true] at hstop
        by_cases hl : l.token = .semicolon
        · obtain ⟨_, line⟩ := l
          obtain rfl := hl
          have h' := (accepts_statementsUntil_semicolon hc hs).mp h
          have hadv := Cursor.rest_advance hc
          obtain ⟨hd, hend⟩ := ih _ (by rw [hadv, hc]; simp) h' rfl
          rw [hadv] at hd
          exact ⟨.emptyStatement hd, hend⟩
        · obtain ⟨s, m, ss', rfl, hr, h'⟩ :=
            (accepts_statementsUntil_statement hc hstop hl).mp h
          obtain ⟨_, next, hs', hstmt, hm⟩ := accepts_recovering.mp hr
          obtain rfl := Option.some.inj hs'
          obtain ⟨m', hd, hends, done, hopt⟩ := stmt_sound he hstmt
          have hlt : m'.rest.length < c.rest.length := hd.takes
          rw [hc] at hd
          rcases accepts_optional.mp hopt with ⟨rfl, ⟨line, hsemi⟩, -⟩ | ⟨rfl, -, rfl⟩
          · have hlt' : next.rest.length < c.rest.length := by
              rw [hsemi] at hlt
              exact Nat.lt_of_succ_lt hlt
            obtain rfl : m = next := by rw [hm, if_pos (by rwa [next.left_eq, c.left_eq])]
            obtain ⟨hd', hend⟩ := ih _ hlt' h' rfl
            exact ⟨.terminated (hsemi ▸ hd) hd', hend⟩
          · obtain rfl : m = m' := by rw [hm, if_pos (by rwa [m'.left_eq, c.left_eq])]
            obtain ⟨hd', hend⟩ := ih _ hlt h' rfl
            exact ⟨.unterminated hd hends.not_continues hd', hend⟩

theorem bracedBlock_sound (he : SoundExpr e) {b : Block} (h : (bracedBlock e).Accepts c b c') :
    Derives (.block b) c.rest c'.rest := by
  obtain ⟨line, m₁, h₁, h⟩ := accepts_bind.mp h
  obtain ⟨ss, m₂, h₂, h⟩ := accepts_bind.mp h
  obtain ⟨l₁, m₃, h₃, h⟩ := accepts_bind.mp h
  obtain ⟨rfl, rfl⟩ := accepts_pure.mp h
  have hd := (statementsUntil_sound he (by simp) h₂).1
  rw [(accepts_expect.mp h₃).1] at hd
  rw [(accepts_expect.mp h₁).1]
  exact .block hd

end

/-! ### The grammar -/

/-- The parsers of the grammar are sound with any number of levels left. -/
theorem levels_sound (limit n : Nat) :
    SoundExpr (expressionAt limit n) ∧
      (∀ {p q left ts c a c'}, p.inner ≤ q → Derives (.expr q left) ts c.rest → Ends q c.rest →
        (continueAt limit n p left).Accepts c a c' →
        Derives (.expr p.inner a) ts c'.rest ∧ Ends p c'.rest) ∧
      SoundBlock (blockAt limit n) := by
  -- the second part is the invariant of the loop
  induction n with
  | zero =>
    refine ⟨fun p c a c' h => absurd h not_accepts_failAt, ?_,
      fun c a c' h => absurd h not_accepts_failAt⟩
    intro p q left ts c a c' hq hd hends h
    rw [continueAt, accepts_peek_bind] at h
    split at h
    · next hn =>
      obtain ⟨rfl, rfl⟩ := accepts_pure.mp h
      exact ⟨.of_le hq hd, continuation_eq_none_iff.mp hn⟩
    · exact absurd h not_accepts_failAt
  | succ n ih =>
    obtain ⟨he, hloop, hb⟩ := ih
    refine ⟨fun p c a c' h => ?_, ?_, fun c a c' h => bracedBlock_sound he h⟩
    · obtain ⟨left, m, hf, h⟩ := accepts_bind.mp h
      obtain ⟨q, hq, hd, hends⟩ := firstOperand_sound he hb hf
      exact hloop (Nat.le_trans p.inner_le_operand hq) hd hends h
    · intro p q left ts c a c' hq hd hends h
      rw [continueAt, accepts_peek_bind] at h
      split at h
      · next hn =>
        obtain ⟨rfl, rfl⟩ := accepts_pure.mp h
        exact ⟨.of_le hq hd, continuation_eq_none_iff.mp hn⟩
      · next form hf =>
        obtain ⟨longer, m, hc, h⟩ := accepts_bind.mp h
        obtain ⟨q', hq', hd', hends'⟩ := continuedBy_sound he hd hends hf hc
        exact hloop (Precedence.inner_le_of_lt hq') hd' hends' h

/-- **A program without errors is derived from all of the input.** -/
theorem programWithin_sound {limit : Nat} {p : Program} {c c' : Cursor}
    (h : (programWithin limit).Accepts c p c') : Derives (.statements p) c.rest [] := by
  obtain ⟨hd, hend⟩ := statementsUntil_sound (levels_sound limit limit).1 rfl h
  have hr : c'.rest = [] := by
    cases hc : c'.rest with
    | nil => rfl
    | cons l rest => exact absurd (hend l (by rw [hc]; rfl)) (by simp)
  rwa [hr] at hd

end Parser

end ExprScript
