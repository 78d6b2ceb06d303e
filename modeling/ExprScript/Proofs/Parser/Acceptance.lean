import ExprScript.Parser.Repeat

/-!
# Runs without errors

`p.Accepts c a c'` says that a run of the parser `p` from the place `c` gives
the value `a`, records no error and stops at `c'`.  This file says what it is
for each of the combinators: a sequence accepts when its parts do
(`accepts_bind`), a repetition when it is unrolled once (`accepts_many_nil`,
`accepts_many_cons`), and a run of statements according to the next token
(`accepts_statementsUntil_stop`, `accepts_statementsUntil_semicolon`,
`accepts_statementsUntil_statement`).  The grammar is compared with the parser
through these alone.

A run of statements goes by the next token in the same way when there are errors
(`run_statementsUntil_stop`, `run_statementsUntil_semicolon`,
`run_statementsUntil_statement`).
-/

namespace ExprScript

theorem Cursor.token?_of_rest {c : Cursor} {l : Lexeme} {rest : List Lexeme}
    (h : c.rest = l :: rest) : c.token? = some l.token := by
  simp [token?, h]

theorem Cursor.rest_advance {c : Cursor} {l : Lexeme} {rest : List Lexeme}
    (h : c.rest = l :: rest) : c.advance.rest = rest := by
  rw [advance_rest, h, List.tail_cons]

namespace Parser

variable {α β : Type}

/-- A run of `p` from `c` gives `a`, records no error and stops at `c'`. -/
def Accepts (p : Parser α) (c : Cursor) (a : α) (c' : Cursor) : Prop :=
  p.run c = ⟨.ok a, [], c'⟩

theorem accepts_pure {a b : α} {c c' : Cursor} :
    (pure a : Parser α).Accepts c b c' ↔ a = b ∧ c = c' := by
  simp [Accepts, run_pure]

/-- **A sequence accepts when its parts do**, one after the other. -/
theorem accepts_bind {p : Parser α} {f : α → Parser β} {b : β} {c c'' : Cursor} :
    (p >>= f).Accepts c b c'' ↔ ∃ a c', p.Accepts c a c' ∧ (f a).Accepts c' b c'' := by
  rw [Accepts, run_bind]
  constructor
  · intro h
    cases hr : (p.run c).result with
    | error e => simp [followedBy, hr] at h
    | ok a =>
      rw [followedBy_of_ok hr, Outcome.mk.injEq, List.append_eq_nil_iff] at h
      obtain ⟨hres, ⟨hrec, hrec'⟩, hnext⟩ := h
      refine ⟨a, (p.run c).next, ?_, ?_⟩
      · rw [Accepts, ← hr, ← hrec]
      · rw [Accepts, ← hres, ← hrec', ← hnext]
  · rintro ⟨a, c', hp, hf⟩
    have hr : (p.run c).result = .ok a := by rw [hp]
    rw [followedBy_of_ok hr, hp, hf]
    rfl

theorem accepts_peek_bind {f : Option Token → Parser α} {a : α} {c c' : Cursor} :
    (peek >>= f).Accepts c a c' ↔ (f c.token?).Accepts c a c' := Iff.rfl

theorem accepts_currentLine_bind {f : Nat → Parser α} {a : α} {c c' : Cursor} :
    (currentLine >>= f).Accepts c a c' ↔ (f c.currentLine).Accepts c a c' := Iff.rfl

theorem not_accepts_failAt {e : Cursor → ParseError} {a : α} {c c' : Cursor} :
    ¬ (failAt e : Parser α).Accepts c a c' := by
  simp [Accepts, failAt]

theorem not_accepts_fail {e : ParseError} {a : α} {c c' : Cursor} :
    ¬ (fail e : Parser α).Accepts c a c' := not_accepts_failAt

theorem accepts_advance {u : Unit} {c c' : Cursor} :
    advance.Accepts c u c' ↔ c.advance = c' := by
  simp [Accepts, advance]

theorem accepts_accept {expected : Expectation} {f : Token → Option α} {a : α} {line : Nat}
    {c c' : Cursor} : (accept expected f).Accepts c (a, line) c' ↔
      ∃ t, c.rest = ⟨t, line⟩ :: c'.rest ∧ f t = some a ∧ c.advance = c' := by
  cases hc : c.rest with
  | nil => simp [Accepts, accept, hc]
  | cons l rest =>
    have hrest := Cursor.rest_advance hc
    obtain ⟨t, line'⟩ := l
    cases hf : f t with
    | none =>
      simp only [Accepts, accept, hc, hf]
      simp only [Outcome.mk.injEq, reduceCtorEq, false_and, false_iff]
      rintro ⟨u, hu, hfu, -⟩
      simp_all
    | some b =>
      simp only [Accepts, accept, hc, hf]
      constructor
      · intro h
        simp only [Outcome.mk.injEq, Except.ok.injEq, Prod.mk.injEq] at h
        obtain ⟨⟨rfl, rfl⟩, -, rfl⟩ := h
        exact ⟨t, by rw [hrest], hf, rfl⟩
      · rintro ⟨u, hu, hfu, rfl⟩
        simp only [List.cons.injEq, Lexeme.mk.injEq] at hu
        obtain ⟨⟨rfl, rfl⟩, -⟩ := hu
        simp_all

theorem accepts_expect {t : Token} {line : Nat} {c c' : Cursor} :
    (expect t).Accepts c line c' ↔ c.rest = ⟨t, line⟩ :: c'.rest ∧ c.advance = c' := by
  rw [expect, accepts_bind]
  constructor
  · rintro ⟨⟨u, line'⟩, m, h, hp⟩
    obtain ⟨rfl, rfl⟩ := accepts_pure.mp hp
    obtain ⟨t', hr, ht, hm⟩ := accepts_accept.mp h
    split at ht
    · next he => exact ⟨by rw [hr, he], hm⟩
    · simp at ht
  · rintro ⟨hr, hm⟩
    exact ⟨((), line), c', accepts_accept.mpr ⟨t, hr, by simp, hm⟩, accepts_pure.mpr ⟨rfl, rfl⟩⟩

theorem accepts_identifier {name : String} {line : Nat} {c c' : Cursor} :
    identifier.Accepts c ⟨name, line⟩ c' ↔
      c.rest = ⟨.identifier name, line⟩ :: c'.rest ∧ c.advance = c' := by
  rw [identifier, accepts_bind]
  constructor
  · rintro ⟨⟨n, line'⟩, m, h, hp⟩
    obtain ⟨he, rfl⟩ := accepts_pure.mp hp
    obtain ⟨rfl, rfl⟩ := Identifier.mk.inj he
    obtain ⟨t, hr, ht, hm⟩ := accepts_accept.mp h
    cases t <;> simp [Token.identifier?] at ht
    subst ht
    exact ⟨hr, hm⟩
  · rintro ⟨hr, hm⟩
    exact ⟨(name, line), c', accepts_accept.mpr ⟨_, hr, rfl, hm⟩, accepts_pure.mpr ⟨rfl, rfl⟩⟩

theorem accepts_optional {t : Token} {b : Bool} {c c' : Cursor} :
    (optional t).Accepts c b c' ↔
      (b = true ∧ (∃ line, c.rest = ⟨t, line⟩ :: c'.rest) ∧ c.advance = c') ∨
        (b = false ∧ c.token? ≠ some t ∧ c = c') := by
  rw [optional, accepts_peek_bind]
  by_cases ht : c.token? = some t
  · rw [if_pos ht, accepts_bind]
    constructor
    · rintro ⟨_, m, h, hp⟩
      obtain ⟨rfl, rfl⟩ := accepts_pure.mp hp
      obtain rfl := accepts_advance.mp h
      cases hc : c.rest with
      | nil => simp [Cursor.token?, hc] at ht
      | cons l rest =>
        obtain rfl : l.token = t := by simpa [Cursor.token?, hc] using ht
        exact Or.inl ⟨rfl, ⟨l.line, by rw [Cursor.rest_advance hc]⟩, rfl⟩
    · rintro (⟨rfl, -, hm⟩ | ⟨-, hn, -⟩)
      · exact ⟨(), c', accepts_advance.mpr hm, accepts_pure.mpr ⟨rfl, rfl⟩⟩
      · exact absurd ht hn
  · rw [if_neg ht, accepts_pure]
    constructor
    · rintro ⟨rfl, rfl⟩
      exact Or.inr ⟨rfl, ht, rfl⟩
    · rintro (⟨-, ⟨line, hc⟩, -⟩ | ⟨rfl, -, rfl⟩)
      · exact absurd (Cursor.token?_of_rest hc) ht
      · exact ⟨rfl, rfl⟩

theorem accepts_separator {closing : Token} (hne : closing ≠ .comma) {more : Bool}
    {c c' : Cursor} : (separator closing).Accepts c more c' ↔
      (∃ line, c.rest = ⟨if more then .comma else closing, line⟩ :: c'.rest) ∧ c.advance = c' := by
  rw [separator, accepts_bind]
  constructor
  · rintro ⟨⟨b, line⟩, m, h, hp⟩
    obtain ⟨rfl, rfl⟩ := accepts_pure.mp hp
    obtain ⟨t, hr, ht, hm⟩ := accepts_accept.mp h
    refine ⟨⟨line, ?_⟩, hm⟩
    rw [hr]
    by_cases hc : t = .comma
    · rw [if_pos hc] at ht
      rw [← Option.some.inj ht, hc]
      rfl
    · rw [if_neg hc] at ht
      by_cases hcl : t = closing
      · rw [if_pos hcl] at ht
        rw [← Option.some.inj ht, hcl]
        rfl
      · simp [hcl] at ht
  · rintro ⟨⟨line, hr⟩, hm⟩
    refine ⟨(more, line), c', accepts_accept.mpr ⟨_, hr, ?_, hm⟩, accepts_pure.mpr ⟨rfl, rfl⟩⟩
    cases more <;> simp [hne]

/-! ### Repetition -/

section
variable {p : Parser (Option α)} {h : p.Advances} {c c' : Cursor}

theorem accepts_many_nil : (many p h).Accepts c [] c' ↔ p.Accepts c none c' := by
  rw [many_eq, accepts_bind]
  constructor
  · rintro ⟨o, m, hp, hm⟩
    cases o with
    | none =>
      obtain ⟨-, rfl⟩ := accepts_pure.mp hm
      exact hp
    | some a =>
      obtain ⟨as, m', -, hm⟩ := accepts_bind.mp hm
      exact absurd (accepts_pure.mp hm).1 (by simp)
  · intro hp
    exact ⟨none, c', hp, accepts_pure.mpr ⟨rfl, rfl⟩⟩

theorem accepts_many_cons {a : α} {as : List α} : (many p h).Accepts c (a :: as) c' ↔
    ∃ m, p.Accepts c (some a) m ∧ (many p h).Accepts m as c' := by
  constructor
  · intro h
    rw [many_eq] at h
    obtain ⟨o, m, hp, hm⟩ := accepts_bind.mp h
    cases o with
    | none => exact absurd (accepts_pure.mp hm).1 (by simp)
    | some b =>
      obtain ⟨bs, m', hbs, hm⟩ := accepts_bind.mp hm
      obtain ⟨he, rfl⟩ := accepts_pure.mp hm
      obtain ⟨rfl, rfl⟩ := List.cons.inj he
      exact ⟨m, hp, hbs⟩
  · rintro ⟨m, hp, hm⟩
    rw [many_eq, accepts_bind]
    exact ⟨some a, m, hp, accepts_bind.mpr ⟨as, c', hm, accepts_pure.mpr ⟨rfl, rfl⟩⟩⟩

end

theorem accepts_recovering {p : Parser α} {o : Option α} {c c' : Cursor} :
    (recovering p).Accepts c o c' ↔ ∃ a next, o = some a ∧ p.Accepts c a next ∧
      c' = if next.left < c.left then next else c.advance := by
  simp only [Accepts, recovering]
  constructor
  · intro h
    split at h
    · next a hr =>
      simp only [Outcome.mk.injEq, Except.ok.injEq] at h
      obtain ⟨rfl, hrec, rfl⟩ := h
      exact ⟨a, _, rfl, by rw [← hr, ← hrec], rfl⟩
    · simp at h
  · rintro ⟨a, next, rfl, hp, rfl⟩
    simp [hp]

/-! ### Runs of statements -/

/-- A run of statements, unrolled once. -/
theorem statementsUntil_eq (stop : Token → Bool) (s : Parser α) :
    statementsUntil stop s = element stop s >>= fun
      | none => pure []
      | some o => (o.toList ++ ·) <$> statementsUntil stop s := by
  show (many (element stop s) _ >>= fun os => pure (os.filterMap id)) = _
  rw [many_eq, bind_assoc]
  refine congrArg (element stop s >>= ·) (funext fun next => ?_)
  cases next with
  | none => simp only [pure_bind, List.filterMap_nil]
  | some o =>
    simp only [statementsUntil, bind_assoc, pure_bind, map_bind, map_pure]
    refine congrArg (many _ _ >>= ·) (funext fun os => congrArg pure ?_)
    cases o <;> rfl

section
variable {stop : Token → Bool} {s : Parser α} {as : List α} {c c' : Cursor} {l : Lexeme}
  {rest : List Lexeme}

theorem run_statementsUntil (stop : Token → Bool) (s : Parser α) (c : Cursor) :
    (statementsUntil stop s).run c = followedBy ((element stop s).run c) fun
      | none => pure []
      | some o => (o.toList ++ ·) <$> statementsUntil stop s :=
  congrArg (run · c) (statementsUntil_eq stop s)

theorem run_statementsUntil_stop (h : ∀ t ∈ c.token?, stop t = true) :
    (statementsUntil stop s).run c = ⟨.ok [], [], c⟩ := by
  rw [run_statementsUntil, element, run_peek_bind]
  cases ht : c.token? with
  | none => rfl
  | some t =>
    simp only [h t ht, if_true]
    rfl

theorem run_statementsUntil_semicolon (hc : c.rest = l :: rest) (hl : l.token = .semicolon)
    (hs : stop .semicolon = false) :
    (statementsUntil stop s).run c = (statementsUntil stop s).run c.advance := by
  have he : (element stop s).run c = ⟨.ok (some none), [], c.advance⟩ := by
    rw [element, run_peek_bind, Cursor.token?_of_rest hc, hl]
    simp only [hs, Bool.false_eq_true, if_false, if_true]
    rfl
  rw [run_statementsUntil, he, followedBy_of_ok rfl]
  exact congrArg (run · c.advance) (id_map (statementsUntil stop s))

theorem run_statementsUntil_statement (hc : c.rest = l :: rest) (hs : stop l.token = false)
    (hl : l.token ≠ .semicolon) : (statementsUntil stop s).run c =
      followedBy ((recovering s).run c) fun o => (o.toList ++ ·) <$> statementsUntil stop s := by
  rw [run_statementsUntil, element, run_peek_bind, Cursor.token?_of_rest hc]
  simp only [hs, Bool.false_eq_true, if_false, hl]
  rw [run_bind, followedBy_followedBy]
  simp only [pure_bind]

theorem accepts_statementsUntil_stop (h : ∀ t ∈ c.token?, stop t = true) :
    (statementsUntil stop s).Accepts c as c' ↔ as = [] ∧ c = c' := by
  rw [Accepts, run_statementsUntil_stop h]
  simp [eq_comm]

theorem accepts_statementsUntil_semicolon {line : Nat}
    (hc : c.rest = ⟨.semicolon, line⟩ :: rest) (hs : stop .semicolon = false) :
    (statementsUntil stop s).Accepts c as c' ↔ (statementsUntil stop s).Accepts c.advance as c' := by
  rw [Accepts, run_statementsUntil_semicolon hc rfl hs, Accepts]

theorem accepts_statementsUntil_statement (hc : c.rest = l :: rest) (hs : stop l.token = false)
    (hl : l.token ≠ .semicolon) :
    (statementsUntil stop s).Accepts c as c' ↔ ∃ a m bs, as = a :: bs ∧
      (recovering s).Accepts c (some a) m ∧ (statementsUntil stop s).Accepts m bs c' := by
  rw [Accepts, run_statementsUntil_statement hc hs hl, ← run_bind, ← Accepts, accepts_bind]
  constructor
  · rintro ⟨o, m, hr, hm⟩
    obtain ⟨a, -, rfl, -, -⟩ := accepts_recovering.mp hr
    obtain ⟨bs, m', hbs, hm⟩ := accepts_bind.mp hm
    obtain ⟨rfl, rfl⟩ := accepts_pure.mp hm
    exact ⟨a, m, bs, rfl, hr, hbs⟩
  · rintro ⟨a, m, bs, rfl, hr, hbs⟩
    exact ⟨some a, m, hr, accepts_bind.mpr ⟨bs, c', hbs, accepts_pure.mpr ⟨rfl, rfl⟩⟩⟩

end

end Parser

end ExprScript
