import ExprScript.Proofs.Parser.Correctness

/-!
# What stands behind the input

A parser looks at the lexemes that it reads and at the one after them.  So what it
accepts it also accepts with more lexemes behind the input, as long as it does not come
to the end, and if it does, as long as the first one of them does not go on with what
has been read.  `p.Local r Q` says this for the lexemes `r`, where `Q` is what has to be
known about `r` at the end of the input.

* `Parser.local_levels`: expressions and blocks, with any number of levels.
* `Parser.local_bareStmt`: statements, up to their terminators.
-/

namespace ExprScript

def Cursor.extend (c : Cursor) (r : List Lexeme) : Cursor :=
  ⟨c.rest ++ r, c.line, c.left + r.length, by rw [List.length_append, c.left_eq]⟩

namespace Cursor

variable {c : Cursor}

theorem token?_extend (h : c.rest ≠ []) (r : List Lexeme) : (c.extend r).token? = c.token? := by
  obtain ⟨rest, line, left, hl⟩ := c
  cases rest with
  | nil => exact absurd rfl h
  | cons l rest => rfl

theorem token?_extend_nil (h : c.rest = []) (r : List Lexeme) :
    (c.extend r).token? = r.head?.map Lexeme.token := by
  obtain ⟨rest, line, left, hl⟩ := c
  obtain rfl := h
  rfl

theorem token?_eq_none (h : c.rest = []) : c.token? = none := by
  rw [token?, h]
  rfl

theorem currentLine_extend (h : c.rest ≠ []) (r : List Lexeme) :
    (c.extend r).currentLine = c.currentLine := by
  obtain ⟨rest, line, left, hl⟩ := c
  cases rest with
  | nil => exact absurd rfl h
  | cons l rest => rfl

theorem advance_extend (h : c.rest ≠ []) (r : List Lexeme) :
    (c.extend r).advance = c.advance.extend r := by
  obtain ⟨rest, line, left, hl⟩ := c
  cases rest with
  | nil => exact absurd rfl h
  | cons l rest =>
    have hleft : left + r.length - 1 = left - 1 + r.length := by
      rw [List.length_cons] at hl
      omega
    exact Cursor.ext rfl rfl hleft

end Cursor

namespace Parser

variable {α β : Type} {r : List Lexeme} {Q : Prop}

theorem Accepts.suffix {p : Parser α} {c n : Cursor} {a : α} (h : p.Accepts c a n) :
    n.rest <:+ c.rest := by
  have hs := p.suffix c
  rwa [h] at hs

theorem Accepts.rest_eq_nil {p : Parser α} {c n : Cursor} {a : α} (h : p.Accepts c a n)
    (hc : c.rest = []) : n.rest = [] := by
  have hs := h.suffix
  rw [hc] at hs
  exact List.suffix_nil.mp hs

/-- What the parser accepts, it accepts with `r` behind the input, unless it comes to the
end and `Q` does not hold. -/
def Local (r : List Lexeme) (Q : Prop) (p : Parser α) : Prop :=
  ∀ c a n, p.Accepts c a n → (n.rest = [] → Q) → p.Accepts (c.extend r) a (n.extend r)

def Starts (p : Parser α) : Prop :=
  ∀ c a n, p.Accepts c a n → c.rest ≠ []

theorem Reads.starts {p : Parser α} (hp : p.Reads) : p.Starts := by
  intro c a n h hc
  have hlt := hp c a (by rw [h])
  rw [hc] at hlt
  exact absurd hlt (Nat.not_lt_zero _)

theorem Starts.bind {p : Parser α} (hp : p.Starts) (f : α → Parser β) : (p >>= f).Starts := by
  intro c b n h
  obtain ⟨a, m, ha, -⟩ := accepts_bind.mp h
  exact hp c a m ha

/-! ### Combinators -/

theorem Local.mono {p : Parser α} {Q' : Prop} (hp : p.Local r Q) (hQ : Q' → Q) :
    p.Local r Q' :=
  fun c a n h hend => hp c a n h fun hn => hQ (hend hn)

theorem local_pure (a : α) : (pure a : Parser α).Local r Q := by
  intro c b n h _
  obtain ⟨rfl, rfl⟩ := accepts_pure.mp h
  exact accepts_pure.mpr ⟨rfl, rfl⟩

theorem local_failAt (e : Cursor → ParseError) : (failAt e : Parser α).Local r Q :=
  fun _ _ _ h _ => absurd h not_accepts_failAt

theorem Local.bind {p : Parser α} {f : α → Parser β} (hp : p.Local r Q)
    (hf : ∀ a, (f a).Local r Q) : (p >>= f).Local r Q := by
  intro c b n h hend
  obtain ⟨a, m, ha, hb⟩ := accepts_bind.mp h
  have ha' := hp c a m ha fun hm => hend (hb.rest_eq_nil hm)
  exact accepts_bind.mpr ⟨a, m.extend r, ha', hf a m b n hb hend⟩

/-- What another parser follows that reads something does not come to the end. -/
theorem Local.bind_starts {p : Parser α} {f : α → Parser β} (hp : p.Local r False)
    (hf : ∀ a, (f a).Local r Q) (hs : ∀ a, (f a).Starts) : (p >>= f).Local r Q := by
  intro c b n h hend
  obtain ⟨a, m, ha, hb⟩ := accepts_bind.mp h
  have ha' := hp c a m ha (hs a m b n hb)
  exact accepts_bind.mpr ⟨a, m.extend r, ha', hf a m b n hb hend⟩

theorem local_peek_bind {f : Option Token → Parser α} (hf : ∀ t, (f t).Local r Q)
    (hend : Q → f (r.head?.map Lexeme.token) = f none) : (peek >>= f).Local r Q := by
  intro c a n h hn
  rw [accepts_peek_bind] at h ⊢
  by_cases hc : c.rest = []
  · rw [Cursor.token?_eq_none hc] at h
    rw [Cursor.token?_extend_nil hc, hend (hn (h.rest_eq_nil hc))]
    exact hf none c a n h hn
  · rw [Cursor.token?_extend hc]
    exact hf _ c a n h hn

/-- Where something is read, the next token is there before. -/
theorem local_peek_bind_starts {f : Option Token → Parser α} (hf : ∀ t, (f t).Local r Q)
    (hs : (peek >>= f).Starts) : (peek >>= f).Local r Q := by
  intro c a n h hn
  have hc := hs c a n h
  rw [accepts_peek_bind] at h ⊢
  rw [Cursor.token?_extend hc]
  exact hf _ c a n h hn

theorem local_currentLine_bind_starts {f : Nat → Parser α} (hf : ∀ line, (f line).Local r Q)
    (hs : (currentLine >>= f).Starts) : (currentLine >>= f).Local r Q := by
  intro c a n h hn
  have hc := hs c a n h
  rw [accepts_currentLine_bind] at h ⊢
  rw [Cursor.currentLine_extend hc]
  exact hf _ c a n h hn

theorem local_accept (expected : Expectation) (f : Token → Option α) :
    (accept expected f).Local r Q := by
  intro c a n h _
  obtain ⟨a, line⟩ := a
  obtain ⟨t, hr, ht, rfl⟩ := accepts_accept.mp h
  have hne : c.rest ≠ [] := by simp [hr]
  refine accepts_accept.mpr ⟨t, ?_, ht, Cursor.advance_extend hne r⟩
  show c.rest ++ r = _
  rw [hr]
  rfl

theorem local_expect (t : Token) : (expect t).Local r Q :=
  (local_accept _ _).bind fun _ => local_pure _

theorem starts_expect (t : Token) : (expect t).Starts :=
  ((accept_reads _ _).bind _).starts

theorem local_identifier : identifier.Local r Q :=
  (local_accept _ _).bind fun _ => local_pure _

theorem starts_identifier : identifier.Starts :=
  ((accept_reads _ _).bind _).starts

/-- An optional token is there or not, as before, or `r` does not begin with it. -/
theorem local_optional_bind {t : Token} {f : Bool → Parser α} (hf : ∀ b, (f b).Local r Q)
    (hend : Q → ¬ (f false).Starts → r.head?.map Lexeme.token ≠ some t) :
    (optional t >>= f).Local r Q := by
  intro c a n h hn
  obtain ⟨b, m, hb, ha⟩ := accepts_bind.mp h
  refine accepts_bind.mpr ⟨b, m.extend r, ?_, hf b m a n ha hn⟩
  rcases accepts_optional.mp hb with ⟨rfl, ⟨line, hr⟩, rfl⟩ | ⟨rfl, ht, rfl⟩
  · have hne : c.rest ≠ [] := by simp [hr]
    refine accepts_optional.mpr (Or.inl ⟨rfl, ⟨line, ?_⟩, Cursor.advance_extend hne r⟩)
    show c.rest ++ r = _
    rw [hr]
    rfl
  · refine accepts_optional.mpr (Or.inr ⟨rfl, ?_, rfl⟩)
    by_cases hc : c.rest = []
    · rw [Cursor.token?_extend_nil hc]
      exact hend (hn (ha.rest_eq_nil hc)) fun hs => hs c a n ha hc
    · rwa [Cursor.token?_extend hc]

theorem Local.many {p : Parser (Option α)} (hp : p.Local r Q) (h : p.Advances) :
    (many p h).Local r Q := by
  intro c as n hm hend
  induction as generalizing c with
  | nil => exact accepts_many_nil.mpr (hp c none n (accepts_many_nil.mp hm) hend)
  | cons a as ih =>
    obtain ⟨m, ha, has⟩ := accepts_many_cons.mp hm
    have ha' := hp c (some a) m ha fun hr => hend (has.rest_eq_nil hr)
    exact accepts_many_cons.mpr ⟨m.extend r, ha', ih m has⟩

theorem Local.commaSeparated {item : Parser α} (hi : item.Local r Q) (hs : item.Starts)
    (closing : Token) : (commaSeparated item closing).Local r Q := by
  have hseparator : (separator closing).Local r Q :=
    (local_accept _ _).bind fun _ => local_pure _
  have hitem : (nextItem item closing).Local r Q := by
    refine hseparator.bind fun more => ?_
    cases more with
    | false => exact local_pure none
    | true => exact hi.bind fun a => local_pure (some a)
  refine local_optional_bind (fun close => ?_) fun _ hn => absurd (hs.bind _) hn
  cases close with
  | true => exact local_pure []
  | false => exact hi.bind fun first => (hitem.many _).bind fun others => local_pure _

/-- A statement inside a block does not come to the end of the input. -/
theorem Local.recovering {p : Parser α} (hp : p.Local r False) :
    (recovering p).Local r False := by
  intro c o n h hend
  have hc : c.rest ≠ [] := fun hc => hend (h.rest_eq_nil hc)
  obtain ⟨a, next, rfl, ha, rfl⟩ := accepts_recovering.mp h
  have hnext : next.rest ≠ [] := by
    by_cases hlt : next.left < c.left
    · rw [if_pos hlt] at hend
      exact hend
    · -- nothing has been read
      intro hn
      rw [next.left_eq, c.left_eq, hn] at hlt
      exact hlt (List.length_pos_iff.mpr hc)
  refine accepts_recovering.mpr ⟨a, next.extend r, rfl, hp c a next ha hnext, ?_⟩
  have hiff : (next.extend r).left < (c.extend r).left ↔ next.left < c.left :=
    Nat.add_lt_add_iff_right
  by_cases hlt : next.left < c.left
  · rw [if_pos hlt, if_pos (hiff.mpr hlt)]
  · rw [if_neg hlt, if_neg fun h => hlt (hiff.mp h), Cursor.advance_extend hc]

theorem Local.statementsUntil {p : Parser α} (hp : p.Local r False) (stop : Token → Bool) :
    (statementsUntil stop p).Local r False := by
  have helement : (element stop p).Local r False := by
    refine local_peek_bind (fun next => ?_) False.elim
    cases next with
    | none => exact local_pure none
    | some t =>
      dsimp only
      split
      · exact local_pure none
      · split
        · intro c o n h hend
          have hc : c.rest ≠ [] := fun hc => hend (h.rest_eq_nil hc)
          obtain ⟨_, m, hm, h⟩ := accepts_bind.mp h
          obtain rfl := accepts_advance.mp hm
          refine accepts_bind.mpr ⟨(), _, accepts_advance.mpr (Cursor.advance_extend hc r), ?_⟩
          exact local_pure (some none) _ o n h hend
        · exact hp.recovering.bind fun o => local_pure (some o)
  exact (helement.many _).bind fun _ => local_pure _

/-! ### Phrases -/

section
variable {e : Precedence → Parser Expr} {b : Parser Block}

theorem local_startingWith (hx : ∀ p, (e p).Local r Q) (hb : b.Local r Q)
    (hQ : Q → Follows .lowest r) (form : StartForm) :
    (startingWith e b form).Local r Q := by
  cases form with
  | identifier => exact local_identifier.bind fun _ => local_pure _
  | integer =>
    refine (local_accept _ _).bind fun n => ?_
    dsimp only
    split
    · exact local_pure _
    · exact local_failAt _
  | boolean => exact (local_accept _ _).bind fun _ => local_pure _
  | prefixed => exact (local_accept _ _).bind fun _ => (hx _).bind fun _ => local_pure _
  | group =>
    exact (local_expect _).bind fun _ => (hx _).bind fun _ => (local_expect _).bind fun _ =>
      local_pure _
  | conditional =>
    refine (local_expect _).bind fun _ => (local_expect _).bind fun _ => (hx _).bind fun _ =>
      (local_expect _).bind fun _ => hb.bind fun _ => local_optional_bind (fun more => ?_) ?_
    · cases more with
      | false => exact local_pure _
      | true => exact hb.bind fun _ => local_pure _
    · intro hq _ helse
      obtain ⟨l, hl, ht⟩ := Option.map_eq_some_iff.mp helse
      exact (hQ hq l hl).2 ht
  | function =>
    exact (local_expect _).bind fun _ => (local_expect _).bind fun _ =>
      (local_identifier.commaSeparated starts_identifier _).bind fun _ => hb.bind fun _ =>
        local_pure _

theorem starts_firstOperand : (firstOperand e b).Starts := by
  intro c a n h hc
  rw [firstOperand, accepts_currentLine_bind, accepts_peek_bind, Cursor.token?_eq_none hc] at h
  exact not_accepts_fail h

theorem local_firstOperand (hx : ∀ p, (e p).Local r Q) (hb : b.Local r Q)
    (hQ : Q → Follows .lowest r) : (firstOperand e b).Local r Q := by
  refine local_currentLine_bind_starts (fun line => ?_) starts_firstOperand
  refine local_peek_bind_starts (fun next => ?_) fun c a n h hc => ?_
  · cases next with
    | none => exact local_failAt _
    | some t =>
      dsimp only
      split
      · intro c a n h _
        obtain ⟨_, m, -, h⟩ := accepts_bind.mp h
        exact absurd h not_accepts_fail
      · exact local_startingWith hx hb hQ _
  · rw [accepts_peek_bind, Cursor.token?_eq_none hc] at h
    exact not_accepts_fail h

theorem local_continuedBy (hx : ∀ p, (e p).Local r Q) (hs : ∀ p, (e p).Starts) (left : Expr)
    (form : ContinueForm) : (continuedBy e left form).Local r Q := by
  cases form with
  | infixed => exact (local_accept _ _).bind fun _ => (hx _).bind fun _ => local_pure _
  | call =>
    exact (local_expect _).bind fun _ => ((hx _).commaSeparated (hs _) _).bind fun _ =>
      local_pure _

theorem starts_bareStmt (hs : ∀ p, (e p).Starts) : (bareStmt e).Starts := by
  intro c s n h hc
  rw [bareStmt, accepts_peek_bind, Cursor.token?_eq_none hc] at h
  rw [accepts_currentLine_bind] at h
  exact (hs .lowest).bind _ c s n h hc

theorem local_bareStmt (hx : ∀ p, (e p).Local r Q) (hs : ∀ p, (e p).Starts) :
    (bareStmt e).Local r Q := by
  refine local_peek_bind_starts (fun next => ?_) (starts_bareStmt hs)
  split
  · exact (local_expect _).bind fun _ => local_identifier.bind fun _ =>
      (local_expect _).bind fun _ => (hx _).bind fun _ => local_pure _
  · exact (local_expect _).bind fun _ => (hx _).bind fun _ => local_pure _
  · exact local_currentLine_bind_starts (fun _ => (hx _).bind fun _ => local_pure _)
      fun c s n h => (hs .lowest).bind _ c s n h

theorem local_bracedBlock (hx : ∀ p, (e p).Local r Q) (hs : ∀ p, (e p).Starts) :
    (bracedBlock e).Local r Q := by
  have hstmt : (stmt e).Local r False := by
    rw [stmt_eq]
    exact (local_bareStmt (fun p => (hx p).mono False.elim) hs).bind fun _ =>
      local_optional_bind (fun _ => local_pure _) False.elim
  refine (local_expect _).bind fun _ =>
    (hstmt.statementsUntil _).bind_starts (fun _ => ?_) fun _ => ?_
  · exact (local_expect _).bind fun _ => local_pure _
  · exact (starts_expect _).bind _

end

/-! ### The grammar -/

theorem starts_expressionAt (limit n : Nat) (p : Precedence) : (expressionAt limit n p).Starts := by
  cases n with
  | zero => exact fun c a m h => absurd h not_accepts_failAt
  | succ n => exact starts_firstOperand.bind _

/-- **Expressions and blocks are read in the same way** whatever stands behind the input,
if no expression goes on with it. -/
theorem local_levels (hQ : Q → Follows .lowest r) (limit n : Nat) :
    (∀ p, (expressionAt limit n p).Local r Q) ∧
      (∀ p left, (continueAt limit n p left).Local r Q) ∧ (blockAt limit n).Local r Q := by
  have hnone (p : Precedence) (hq : Q) :
      continuation p (r.head?.map Lexeme.token) = continuation p none := by
    have hends : Ends p (Cursor.start r).rest := ((hQ hq).mono (Nat.zero_le _)).ends
    exact continuation_eq_none_iff.mpr hends
  induction n with
  | zero =>
    refine ⟨fun p => local_failAt _, fun p left => ?_, local_failAt _⟩
    refine local_peek_bind (fun next => ?_) fun hq => by rw [hnone p hq]
    split
    · exact local_pure _
    · exact local_failAt _
  | succ n ih =>
    obtain ⟨hx, hc, hb⟩ := ih
    have hs := starts_expressionAt limit n
    refine ⟨fun p => ?_, fun p left => ?_, local_bracedBlock hx hs⟩
    · exact (local_firstOperand hx hb hQ).bind fun left => hc p left
    · refine local_peek_bind (fun next => ?_) fun hq => by rw [hnone p hq]
      split
      · exact local_pure _
      · exact (local_continuedBy hx hs left _).bind fun longer => hc p longer

/-! ### Programs -/

theorem Accepts.stmt_lt {limit : Nat} {s : Stmt} {c n : Cursor}
    (h : (statementWithin limit).Accepts c s n) : n.left < c.left := by
  obtain ⟨m, hd, -, done, hdone⟩ := stmt_sound (levels_sound limit limit).1 h
  rw [n.left_eq, c.left_eq]
  exact Nat.lt_of_le_of_lt hdone.suffix.length_le hd.takes

theorem Accepts.programWithin_end {limit : Nat} {p : Program} {c n : Cursor}
    (h : (programWithin limit).Accepts c p n) : n.rest = [] := by
  obtain ⟨-, hend⟩ := statementsUntil_sound (levels_sound limit limit).1 rfl h
  cases hn : n.rest with
  | nil => rfl
  | cons l rest => exact absurd (hend l (by rw [hn]; rfl)) Bool.false_ne_true

end Parser

end ExprScript
