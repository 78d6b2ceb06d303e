import ExprScript.Proofs.Parser.Correctness

/-!
# How high a tree the nesting limit allows

The height of a tree is the largest number of expressions and blocks on a path from
its root down to a leaf.  A level of nesting is taken by every expression and block
that is inside another one, and by every operator or call that continues an
expression.  The levels that an operand has taken are given back at its end, while
the operators after it still put their nodes on top of it.  So with `n` levels a tree
grows by `n` nodes at the end of each of `n` expressions inside each other, and its
height is bounded by `n (n + 1) / 2` and not by `n`.

* `Parser.height_levels`: the bound, for every phrase.
* `height_le_heightBound`: the bound for whole programs, which is reached for every
  limit.
* `height_tower_gt_maxNesting`: a program whose tree is higher than the limit.
-/

namespace ExprScript

mutual

/-- The largest number of expressions and blocks on a path down from an expression. -/
def Expr.height : Expr → Nat
  | .identifier _ => 1
  | .integer _ _ => 1
  | .boolean _ _ => 1
  | .prefixed _ operand _ => operand.height + 1
  | .infixed left _ right _ => max left.height right.height + 1
  | .conditional condition consequence none _ => max condition.height consequence.height + 1
  | .conditional condition consequence (some alternative) _ =>
    max condition.height (max consequence.height alternative.height) + 1
  | .function _ body _ => body.height + 1
  | .call callee arguments _ => max callee.height (Expr.maxHeight arguments) + 1

def Expr.maxHeight : List Expr → Nat
  | [] => 0
  | e :: es => max e.height (Expr.maxHeight es)

def Stmt.height : Stmt → Nat
  | .bind _ value _ => value.height
  | .ret value _ => value.height
  | .expr value _ => value.height
  | .block body => body.height

def Stmt.maxHeight : List Stmt → Nat
  | [] => 0
  | s :: ss => max s.height (Stmt.maxHeight ss)

def Block.height : Block → Nat
  | .mk statements _ => Stmt.maxHeight statements + 1

end

theorem Expr.maxHeight_le {k : Nat} {es : List Expr} (h : ∀ e ∈ es, e.height ≤ k) :
    Expr.maxHeight es ≤ k := by
  induction es with
  | nil => exact Nat.zero_le k
  | cons e es ih =>
    rw [Expr.maxHeight]
    have hes : ∀ e' ∈ es, e'.height ≤ k := fun e' he' => h e' (List.mem_cons_of_mem _ he')
    exact Nat.max_le.mpr ⟨h e List.mem_cons_self, ih hes⟩

theorem Stmt.maxHeight_le {k : Nat} {ss : List Stmt} (h : ∀ s ∈ ss, s.height ≤ k) :
    Stmt.maxHeight ss ≤ k := by
  induction ss with
  | nil => exact Nat.zero_le k
  | cons s ss ih =>
    rw [Stmt.maxHeight]
    have hss : ∀ s' ∈ ss, s'.height ≤ k := fun s' hs' => h s' (List.mem_cons_of_mem _ hs')
    exact Nat.max_le.mpr ⟨h s List.mem_cons_self, ih hss⟩

/-- The greatest height of a tree that is read with some levels of nesting. -/
def heightBound (levels : Nat) : Nat :=
  levels * (levels + 1) / 2

theorem heightBound_succ (n : Nat) : heightBound (n + 1) = heightBound n + (n + 1) := by
  have hmul : (n + 1) * (n + 1 + 1) = n * (n + 1) + (n + 1) * 2 := by
    rw [Nat.mul_comm n, ← Nat.mul_add, Nat.add_assoc]
  rw [heightBound, hmul, Nat.add_mul_div_right _ _ Nat.zero_lt_two]
  rfl

namespace Parser

variable {α β : Type}

/-! ### What parsers give -/

/-- Whatever the parser gives, errors recorded or not, has the property. -/
def Ensures (p : Parser α) (P : α → Prop) : Prop :=
  ∀ c a, (p.run c).result = .ok a → P a

section
variable {p : Parser α} {P : α → Prop} {Q : β → Prop}

theorem ensures_true (p : Parser α) : p.Ensures fun _ => True :=
  fun _ _ _ => trivial

theorem ensures_pure {a : α} (h : P a) : (pure a : Parser α).Ensures P := by
  intro c b hb
  rw [run_pure] at hb
  rwa [← Except.ok.inj hb]

theorem ensures_failAt (e : Cursor → ParseError) : (failAt e : Parser α).Ensures P := by
  intro c a h
  simp [failAt] at h

theorem Ensures.bind {f : α → Parser β} (hp : p.Ensures P) (hf : ∀ a, P a → (f a).Ensures Q) :
    (p >>= f).Ensures Q := by
  intro c b h
  rw [run_bind] at h
  cases hr : (p.run c).result with
  | error e => simp [followedBy, hr] at h
  | ok a =>
    rw [followedBy_of_ok hr] at h
    exact hf a (hp c a hr) _ b h

theorem ensures_bind (p : Parser α) {f : α → Parser β} (hf : ∀ a, (f a).Ensures Q) :
    (p >>= f).Ensures Q :=
  (ensures_true p).bind fun a _ => hf a

theorem Ensures.many {p : Parser (Option α)} (h : p.Advances)
    (hp : p.Ensures fun o => ∀ a ∈ o, P a) : (many p h).Ensures fun as => ∀ a ∈ as, P a := by
  intro c as
  -- induction on what is given, since each item was given by the repeated parser
  induction as generalizing c with
  | nil => simp
  | cons b bs ih =>
    intro hr
    rw [many_eq, run_bind] at hr
    cases ho : (p.run c).result with
    | error e => simp [followedBy, ho] at hr
    | ok o =>
      rw [followedBy_of_ok ho] at hr
      cases o with
      | none => simp [run_pure] at hr
      | some a =>
        dsimp only at hr
        rw [run_bind] at hr
        cases hm : ((Parser.many p h).run (p.run c).next).result with
        | error e => simp [followedBy, hm] at hr
        | ok as =>
          rw [followedBy_of_ok hm, run_pure] at hr
          obtain ⟨rfl, rfl⟩ := List.cons.inj (Except.ok.inj hr)
          exact List.forall_mem_cons.mpr ⟨hp c _ ho a rfl, ih _ hm⟩

theorem Ensures.commaSeparated (hp : p.Ensures P) (closing : Token) :
    (commaSeparated p closing).Ensures fun as => ∀ a ∈ as, P a := by
  have hitem : (nextItem p closing).Ensures fun o => ∀ a ∈ o, P a := by
    refine ensures_bind _ fun more => ?_
    cases more with
    | false => exact ensures_pure (by simp)
    | true => exact hp.bind fun a ha => ensures_pure (by simpa using ha)
  refine ensures_bind _ fun close => ?_
  cases close with
  | true => exact ensures_pure (by simp)
  | false =>
    refine hp.bind fun a ha => (hitem.many _).bind fun as has => ensures_pure ?_
    exact List.forall_mem_cons.mpr ⟨ha, has⟩

theorem Ensures.recovering (hp : p.Ensures P) :
    (recovering p).Ensures fun o => ∀ a ∈ o, P a := by
  intro c o h
  simp only [Parser.recovering] at h
  split at h
  · next a hr =>
    obtain rfl := Except.ok.inj h
    intro b hb
    obtain rfl := Option.some.inj hb
    exact hp c a hr
  · obtain rfl := Except.ok.inj h
    simp

theorem Ensures.statementsUntil (hp : p.Ensures P) (stop : Token → Bool) :
    (statementsUntil stop p).Ensures fun as => ∀ a ∈ as, P a := by
  have helement : (element stop p).Ensures fun o => ∀ o' ∈ o, ∀ a ∈ o', P a := by
    refine ensures_bind _ fun next => ?_
    cases next with
    | none => exact ensures_pure (by simp)
    | some t =>
      dsimp only
      split
      · exact ensures_pure (by simp)
      · split
        · exact ensures_bind _ fun _ => ensures_pure (by simp)
        · exact hp.recovering.bind fun o ho => ensures_pure (by simpa using ho)
  refine (helement.many _).bind fun os hos => ensures_pure fun a ha => ?_
  obtain ⟨o, ho, hoa⟩ := List.mem_filterMap.mp ha
  exact hos o ho a hoa

end

/-! ### Phrases -/

section
variable {e : Precedence → Parser Expr} {b : Parser Block} {k : Nat}

theorem height_startingWith (he : ∀ p, (e p).Ensures (·.height ≤ k))
    (hb : b.Ensures (·.height ≤ k)) (form : StartForm) :
    (startingWith e b form).Ensures (·.height ≤ k + 1) := by
  cases form with
  | identifier => exact ensures_bind _ fun _ => ensures_pure (Nat.le_add_left 1 k)
  | integer =>
    refine ensures_bind _ fun r => ?_
    obtain ⟨text, line⟩ := r
    dsimp only
    split
    · exact ensures_pure (Nat.le_add_left 1 k)
    · exact ensures_failAt _
  | boolean => exact ensures_bind _ fun _ => ensures_pure (Nat.le_add_left 1 k)
  | prefixed =>
    exact ensures_bind _ fun _ => (he _).bind fun operand ho => ensures_pure (Nat.succ_le_succ ho)
  | group =>
    exact ensures_bind _ fun _ => (he _).bind fun _ hi =>
      ensures_bind _ fun _ => ensures_pure (Nat.le_succ_of_le hi)
  | conditional =>
    refine ensures_bind _ fun _ => ensures_bind _ fun _ => (he _).bind fun condition hc => ?_
    refine ensures_bind _ fun _ => hb.bind fun consequence hcons => ensures_bind _ fun more => ?_
    cases more with
    | false => exact ensures_pure (Nat.succ_le_succ (Nat.max_le.mpr ⟨hc, hcons⟩))
    | true =>
      refine hb.bind fun alternative ha => ensures_pure ?_
      exact Nat.succ_le_succ (Nat.max_le.mpr ⟨hc, Nat.max_le.mpr ⟨hcons, ha⟩⟩)
  | function =>
    exact ensures_bind _ fun _ => ensures_bind _ fun _ => ensures_bind _ fun _ =>
      hb.bind fun body hbody => ensures_pure (Nat.succ_le_succ hbody)

theorem height_firstOperand (he : ∀ p, (e p).Ensures (·.height ≤ k))
    (hb : b.Ensures (·.height ≤ k)) : (firstOperand e b).Ensures (·.height ≤ k + 1) := by
  refine ensures_bind _ fun line => ensures_bind _ fun next => ?_
  cases next with
  | none => exact ensures_failAt _
  | some t =>
    dsimp only
    split
    · exact ensures_bind _ fun _ => ensures_failAt _
    · exact height_startingWith he hb _

/-- An operator or a call puts one node on top of what is on its left. -/
theorem height_continuedBy (he : ∀ p, (e p).Ensures (·.height ≤ k)) {left : Expr}
    (hl : left.height ≤ k) (form : ContinueForm) :
    (continuedBy e left form).Ensures (·.height ≤ k + 1) := by
  cases form with
  | infixed =>
    refine ensures_bind _ fun _ => (he _).bind fun right hr => ensures_pure ?_
    exact Nat.succ_le_succ (Nat.max_le.mpr ⟨hl, hr⟩)
  | call =>
    refine ensures_bind _ fun _ => ((he _).commaSeparated _).bind fun args ha => ensures_pure ?_
    exact Nat.succ_le_succ (Nat.max_le.mpr ⟨hl, Expr.maxHeight_le ha⟩)

theorem height_stmt (he : ∀ p, (e p).Ensures (·.height ≤ k)) :
    (stmt e).Ensures (·.height ≤ k) := by
  refine ensures_bind _ fun next => ?_
  split
  · exact ensures_bind _ fun _ => ensures_bind _ fun _ => ensures_bind _ fun _ =>
      (he _).bind fun _ hv => ensures_bind _ fun _ => ensures_pure hv
  · exact ensures_bind _ fun _ => (he _).bind fun _ hv => ensures_bind _ fun _ => ensures_pure hv
  · exact ensures_bind _ fun _ => (he _).bind fun _ hv => ensures_bind _ fun _ => ensures_pure hv

theorem height_bracedBlock (he : ∀ p, (e p).Ensures (·.height ≤ k)) :
    (bracedBlock e).Ensures (·.height ≤ k + 1) := by
  refine ensures_bind _ fun _ => ((height_stmt he).statementsUntil _).bind fun ss hss => ?_
  exact ensures_bind _ fun _ => ensures_pure (Nat.succ_le_succ (Stmt.maxHeight_le hss))

end

/-- **The bound for every phrase.**  The loop puts a node on what it has for each level
that it takes. -/
theorem height_levels (limit n : Nat) :
    (∀ p, (expressionAt limit n p).Ensures (·.height ≤ heightBound n)) ∧
      (∀ p left k, left.height ≤ k → heightBound n ≤ k →
        (continueAt limit n p left).Ensures (·.height ≤ k + n)) ∧
      (blockAt limit n).Ensures (·.height ≤ heightBound n) := by
  induction n with
  | zero =>
    refine ⟨fun p => ensures_failAt _, fun p left k hl _ => ?_, ensures_failAt _⟩
    refine ensures_bind _ fun next => ?_
    split
    · exact ensures_pure hl
    · exact ensures_failAt _
  | succ n ih =>
    obtain ⟨he, hloop, hb⟩ := ih
    have hsucc := heightBound_succ n
    refine ⟨fun p => ?_, fun p left k hl hk => ?_, ?_⟩
    · have hfirst := height_firstOperand he hb
      have hrest (left : Expr) (hl : left.height ≤ heightBound n + 1) :
          (continueAt limit n p left).Ensures (·.height ≤ heightBound n + 1 + n) :=
        hloop p left _ hl (Nat.le_succ _)
      rw [show heightBound (n + 1) = heightBound n + 1 + n by omega]
      exact hfirst.bind hrest
    · refine ensures_bind _ fun next => ?_
      split
      · exact ensures_pure (Nat.le_trans hl (Nat.le_add_right k (n + 1)))
      · next form _ =>
        -- an operand has fewer levels than the loop started with, so it is no higher than `k`
        have hoperand (q : Precedence) : (expressionAt limit n q).Ensures (·.height ≤ k) :=
          fun c a ha => Nat.le_trans (he q c a ha) (by omega)
        have hlonger := height_continuedBy hoperand hl form
        rw [show k + (n + 1) = k + 1 + n by omega]
        exact hlonger.bind fun longer hh => hloop p longer (k + 1) hh (by omega)
    · intro c b h
      have hblock : b.height ≤ heightBound n + 1 := height_bracedBlock he c b h
      show b.height ≤ heightBound (n + 1)
      omega

end Parser

/-! ### The bound is reached -/

def Expr.calledTimes (e : Expr) : Nat → Expr
  | 0 => e
  | n + 1 => (Expr.call e [] 1).calledTimes n

theorem Expr.height_calledTimes (e : Expr) (n : Nat) : (e.calledTimes n).height = e.height + n := by
  induction n generalizing e with
  | zero => rfl
  | succ n ih =>
    rw [calledTimes, ih, Expr.height, Expr.maxHeight, Nat.max_zero]
    omega

def callLexemes : Nat → List Lexeme
  | 0 => []
  | n + 1 => ⟨.leftParen, 1⟩ :: ⟨.rightParen, 1⟩ :: callLexemes n

/-- Conditionals inside each other, each of which is called as often as there are levels
left behind it. -/
def tower : Nat → Expr
  | 0 => .identifier ⟨"x", 1⟩
  | n + 1 => (Expr.conditional (tower n) (.mk [] 1) none 1).calledTimes (n + 1)

def towerLexemes : Nat → List Lexeme
  | 0 => [⟨.identifier "x", 1⟩]
  | n + 1 => ⟨.ifWord, 1⟩ :: ⟨.leftParen, 1⟩ :: (towerLexemes n ++
      ⟨.rightParen, 1⟩ :: ⟨.leftBrace, 1⟩ :: ⟨.rightBrace, 1⟩ :: callLexemes (n + 1))

theorem height_tower (n : Nat) : (tower n).height = heightBound (n + 1) := by
  induction n with
  | zero => rfl
  | succ n ih =>
    have hpos : (Block.mk [] 1).height ≤ (tower n).height := by
      rw [ih, heightBound_succ]
      exact Nat.le_add_left 1 _
    have hsucc := heightBound_succ (n + 1)
    rw [tower, Expr.height_calledTimes, Expr.height, Nat.max_eq_left hpos, ih]
    omega

namespace Parser

theorem accepts_continueAt_calls (limit : Nat) {n : Nat} {e : Expr} {c : Cursor}
    {rest : List Lexeme} (hc : c.rest = callLexemes n ++ rest) (hr : Ends .lowest rest) :
    ∃ c', (continueAt limit n .lowest e).Accepts c (e.calledTimes n) c' ∧ c'.rest = rest := by
  induction n generalizing e c with
  | zero =>
    obtain rfl : c.rest = rest := hc
    exact ⟨c, accepts_continueAt_self limit 0 hr, rfl⟩
  | succ n ih =>
    have hopen := Cursor.rest_advance hc
    have hclose := Cursor.rest_advance hopen
    obtain ⟨c', hloop, hc'⟩ := ih (e := .call e [] 1) hclose
    have hform : continuation .lowest c.token? = some .call := by
      rw [Cursor.token?_of_rest hc]
      rfl
    refine ⟨c', ?_, hc'⟩
    rw [continueAt, accepts_peek_bind, hform]
    refine accepts_bind.mpr ⟨_, c.advance.advance, ?_, hloop⟩
    have hparen : (expect .leftParen).Accepts c 1 c.advance :=
      accepts_expect.mpr ⟨hc.trans (by rw [hopen]; rfl), rfl⟩
    refine accepts_bind.mpr ⟨1, c.advance, hparen, ?_⟩
    refine accepts_bind.mpr ⟨[], c.advance.advance, ?_, accepts_pure.mpr ⟨rfl, rfl⟩⟩
    refine accepts_bind.mpr ⟨true, c.advance.advance, ?_, accepts_pure.mpr ⟨rfl, rfl⟩⟩
    exact accepts_optional.mpr (Or.inl ⟨rfl, ⟨1, hopen.trans (by rw [hclose]; rfl)⟩, rfl⟩)

/-- A tower takes as many levels as it has storeys, the ground floor included. -/
theorem accepts_tower (limit : Nat) {n : Nat} {c : Cursor} {rest : List Lexeme}
    (hc : c.rest = towerLexemes n ++ rest) (hr : Ends .lowest rest) :
    ∃ c', (expressionAt limit (n + 1) .lowest).Accepts c (tower n) c' ∧ c'.rest = rest := by
  induction n generalizing c rest with
  | zero =>
    have hx := Cursor.rest_advance hc
    obtain ⟨c', hloop, hc'⟩ := accepts_continueAt_calls limit (n := 0) (e := tower 0) hx hr
    refine ⟨c', accepts_bind.mpr ⟨_, c.advance, firstOperand_accepts hc rfl ?_, hloop⟩, hc'⟩
    refine accepts_bind.mpr ⟨⟨"x", 1⟩, c.advance, ?_, accepts_pure.mpr ⟨rfl, rfl⟩⟩
    exact accepts_identifier.mpr ⟨hc.trans (by rw [hx]; rfl), rfl⟩
  | succ n ih =>
    rw [towerLexemes, List.cons_append, List.cons_append, List.append_assoc] at hc
    have hif := Cursor.rest_advance hc
    have hparen := Cursor.rest_advance hif
    -- the condition ends at its closing parenthesis
    obtain ⟨m, hcond, hm⟩ := ih hparen (fun l hl => by
      obtain rfl := Option.some.inj hl
      exact Nat.le_refl _)
    have hclose := Cursor.rest_advance hm
    have hbrace := Cursor.rest_advance hclose
    have hblock := Cursor.rest_advance hbrace
    obtain ⟨c', hloop, hc'⟩ := accepts_continueAt_calls limit (n := n + 1)
      (e := .conditional (tower n) (.mk [] 1) none 1) hblock hr
    refine ⟨c', accepts_bind.mpr ⟨_, _, firstOperand_accepts hc rfl ?_, hloop⟩, hc'⟩
    refine accepts_bind.mpr ⟨1, c.advance, accepts_expect.mpr ⟨by rw [hc, hif], rfl⟩, ?_⟩
    refine accepts_bind.mpr ⟨1, _, accepts_expect.mpr ⟨by rw [hif, hparen], rfl⟩, ?_⟩
    refine accepts_bind.mpr ⟨_, m, hcond, ?_⟩
    refine accepts_bind.mpr ⟨1, m.advance,
      accepts_expect.mpr ⟨hm.trans (by rw [hclose]; rfl), rfl⟩, ?_⟩
    refine accepts_bind.mpr ⟨.mk [] 1, m.advance.advance.advance, ?_, ?_⟩
    · refine accepts_bind.mpr ⟨1, m.advance.advance,
        accepts_expect.mpr ⟨hclose.trans (by rw [hbrace]; rfl), rfl⟩, ?_⟩
      refine accepts_bind.mpr ⟨[], m.advance.advance, ?_, ?_⟩
      · refine (accepts_statementsUntil_stop fun t ht => ?_).mpr ⟨rfl, rfl⟩
        rw [Cursor.token?_of_rest hbrace] at ht
        obtain rfl := Option.some.inj ht
        rfl
      · refine accepts_bind.mpr ⟨1, _, ?_, accepts_pure.mpr ⟨rfl, rfl⟩⟩
        exact accepts_expect.mpr ⟨hbrace.trans (by rw [hblock]; rfl), rfl⟩
    · refine accepts_bind.mpr ⟨false, _, ?_, accepts_pure.mpr ⟨rfl, rfl⟩⟩
      refine accepts_optional.mpr (Or.inr ⟨rfl, ?_, rfl⟩)
      rw [Cursor.token?_of_rest hblock]
      simp

theorem accepts_programWithin_tower (n : Nat) :
    ∃ c, (programWithin (n + 1)).Accepts (.start (towerLexemes n)) [.expr (tower n) 1] c := by
  have hall : (Cursor.start (towerLexemes n)).rest = towerLexemes n ++ [] :=
    (List.append_nil _).symm
  obtain ⟨c', htower, hc'⟩ := accepts_tower (n + 1) hall (by simp [Ends])
  obtain ⟨l, rest, hl, hline, hstart⟩ : ∃ l rest, towerLexemes n = l :: rest ∧ l.line = 1 ∧
      l.token.startForm?.isSome := by
    cases n with
    | zero => exact ⟨_, _, rfl, rfl, rfl⟩
    | succ n => exact ⟨_, _, rfl, rfl, rfl⟩
  have hprogram := accepts_programWithin_expr hl hstart htower hc'
  rw [hline] at hprogram
  exact ⟨c', hprogram⟩

end Parser

theorem parseLexemesWithin_tower {limit n : Nat} (h : n < limit) :
    parseLexemesWithin limit (towerLexemes n) = ⟨[.expr (tower n) 1], []⟩ := by
  obtain ⟨c, hc⟩ := Parser.accepts_programWithin_tower n
  exact parseLexemesWithin_eq_iff.mpr ⟨c, hc.mono (Parser.programWithin_extendedBy h)⟩

/-- **The nesting limit bounds the tree**, by half of its square and not by itself: no
statement of a program is higher than `limit (limit + 1) / 2`, whatever the lexemes, and
for every limit a program without errors is as high as that. -/
theorem height_le_heightBound (limit : Nat) :
    (∀ lexemes, ∀ s ∈ (parseLexemesWithin limit lexemes).program,
      s.height ≤ limit * (limit + 1) / 2) ∧
    (limit ≠ 0 → ∃ lexemes s, parseLexemesWithin limit lexemes = ⟨[s], []⟩ ∧
      s.height = limit * (limit + 1) / 2) := by
  refine ⟨fun lexemes s hs => ?_, fun hl => ?_⟩
  · have hprogram : (Parser.programWithin limit).Ensures
        fun p => ∀ s ∈ p, s.height ≤ heightBound limit :=
      (Parser.height_stmt (Parser.height_levels limit limit).1).statementsUntil _
    simp only [parseLexemesWithin, Reader.run] at hs
    split at hs
    · next p r hr => exact hprogram _ p (Prod.mk.inj hr).1 s hs
    · simp at hs
  · obtain ⟨n, rfl⟩ := Nat.exists_eq_succ_of_ne_zero hl
    exact ⟨towerLexemes n, _, parseLexemesWithin_tower (Nat.lt_succ_self n), height_tower n⟩

/-- A tower of 23 storeys is within the limit of nesting, and its tree is higher than
that limit. -/
theorem height_tower_gt_maxNesting :
    parseLexemes (towerLexemes 22) = ⟨[.expr (tower 22) 1], []⟩ ∧
      (Stmt.expr (tower 22) 1).height = 276 ∧
      ¬ ∀ lexemes, ∀ s ∈ (parseLexemes lexemes).program, s.height ≤ maxNesting := by
  have hparse : parseLexemes (towerLexemes 22) = ⟨[.expr (tower 22) 1], []⟩ :=
    parseLexemesWithin_tower (by decide)
  have hheight : (Stmt.expr (tower 22) 1).height = 276 := height_tower 22
  refine ⟨hparse, hheight, fun hall => ?_⟩
  have hle := hall (towerLexemes 22) (.expr (tower 22) 1) (by rw [hparse]; exact List.mem_cons_self)
  rw [hheight] at hle
  exact absurd hle (by decide)

end ExprScript
