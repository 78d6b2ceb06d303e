import ExprScript.Proofs.Parser.Nesting
import ExprScript.Proofs.Syntax
import Mathlib.Algebra.GroupWithZero.Nat

/-!
# Progress and the number of errors

A run of statements never fails and ends where it should: each statement that fails is
recorded, and reading goes on at least one token later.  So the parser gets to the end
of every input.

What it reports and what it builds is paid for by the tokens it reads.  A token pays for
one error or for one node of a statement, and `Parser.Pays` keeps the account: the tokens
read, with a credit of tokens read before, pay for the errors recorded on the way and for
what is given.  A phrase that fails has one token left over, which pays for the error of
the statement around it, unless it has recorded nothing; then the first token of that
statement is still there to pay.

* `Parser.pays_levels`: the account of every phrase.
* `Parser.readsFirst_stmt`: a statement reads a lexeme before it does anything else.
* `Parser.statementsUntil_ends`: a run of statements gets to its end.
* `parsing_makes_progress`: whole programs, and each statement in them.
-/

namespace ExprScript

/-! ### The account -/

/-- The budget pays for the tokens that are left, for the errors recorded, and for the
value or the error; but a failure that has recorded nothing may have spent all. -/
def Outcome.Pays {α : Type} (o : Outcome α) (budget : Nat) (cost : α → Nat) : Prop :=
  match o.result with
  | .ok a => o.recorded.length + cost a + o.next.rest.length ≤ budget
  | .error _ => o.recorded = [] ∨ o.recorded.length + 1 + o.next.rest.length ≤ budget

namespace Parser

variable {α β : Type}

/-- With the credit, the tokens read pay for the errors recorded and for what is given. -/
def Pays (p : Parser α) (credit : Nat) (cost : α → Nat) : Prop :=
  ∀ c, (p.run c).Pays (c.rest.length + credit) cost

section
variable {p : Parser α} {k : Nat} {w cost : α → Nat} {cost' : β → Nat} {f : α → Parser β}

theorem pays_pure {a : α} (h : cost a ≤ k) : (pure a : Parser α).Pays k cost := by
  intro c
  show ([] : List ParseError).length + cost a + c.rest.length ≤ c.rest.length + k
  rw [List.length_nil]
  omega

theorem pays_failAt (e : Cursor → ParseError) : (failAt e : Parser α).Pays k cost :=
  fun _ => Or.inl rfl

theorem pays_add {o : Outcome α} {budget : Nat} (ho : o.Pays budget cost) (j : Nat) :
    o.Pays (budget + j) fun a => cost a + j := by
  cases hr : o.result with
  | ok a =>
    simp only [Outcome.Pays, hr] at ho ⊢
    omega
  | error e =>
    simp only [Outcome.Pays, hr] at ho ⊢
    exact ho.imp_right fun h => by omega

theorem pays_mono {o : Outcome α} {budget budget' : Nat} (ho : o.Pays budget cost)
    (h : budget ≤ budget') : o.Pays budget' cost := by
  cases hr : o.result with
  | ok a =>
    simp only [Outcome.Pays, hr] at ho ⊢
    exact Nat.le_trans ho h
  | error e =>
    simp only [Outcome.Pays, hr] at ho ⊢
    exact ho.imp_right fun hle => Nat.le_trans hle h

theorem Pays.add (hp : p.Pays k cost) (j : Nat) : p.Pays (k + j) fun a => cost a + j := by
  intro c
  rw [← Nat.add_assoc]
  exact pays_add (hp c) j

/-- What the first part leaves is the credit of the second part. -/
theorem pays_followedBy {o : Outcome α} {budget : Nat}
    (ho : o.Pays budget cost)
    (hf : ∀ a, o.result = .ok a → 1 ≤ cost a ∧
      ((f a).run o.next).Pays (o.next.rest.length + cost a) cost') :
    (followedBy o f).Pays budget cost' := by
  cases hr : o.result with
  | error e =>
    rw [followedBy_of_error hr]
    simpa only [Outcome.Pays, hr] using ho
  | ok a =>
    obtain ⟨hpos, hfa⟩ := hf a hr
    have hle := (f a).length_le o.next
    rw [followedBy_of_ok hr]
    simp only [Outcome.Pays, hr, List.length_append] at ho hfa ⊢
    split
    · next b hb =>
      simp only [hb] at hfa
      omega
    · next e hb =>
      simp only [hb] at hfa
      refine Or.inr ?_
      rcases hfa with hnil | hfa
      · -- the credit still has a token for a failure that has recorded nothing
        rw [hnil, List.length_nil]
        omega
      · omega

/-- The two parts of a sequence, of which the first one keeps a token back. -/
theorem Pays.bind (hp : p.Pays k cost) (hcost : ∀ a, 1 ≤ cost a)
    (hf : ∀ a, (f a).Pays (cost a) cost') : (p >>= f).Pays k cost' :=
  fun c => pays_followedBy (hp c) fun a _ => ⟨hcost a, hf a _⟩

/-- A phrase keeps one token back, whatever credit stands before it. -/
theorem Pays.andThen (hp : p.Pays 0 fun a => w a + 1)
    (hf : ∀ a, (f a).Pays (w a + 1 + k) cost') : (p >>= f).Pays k cost' := by
  have hk := hp.add k
  rw [Nat.zero_add] at hk
  exact hk.bind (fun a => by omega) hf

/-! ### Tokens -/

theorem pays_peek_bind {f : Option Token → Parser β} (hf : ∀ t, (f t).Pays k cost') :
    (peek >>= f).Pays k cost' :=
  fun c => hf c.token? c

theorem pays_currentLine_bind {f : Nat → Parser β} (hf : ∀ line, (f line).Pays k cost') :
    (currentLine >>= f).Pays k cost' :=
  fun c => hf c.currentLine c

theorem pays_advance_bind {f : Unit → Parser β} (hf : ∀ u, (f u).Pays k cost') :
    (advance >>= f).Pays k cost' :=
  fun c => pays_mono (hf () c.advance) (Nat.add_le_add_right c.advance_suffix.length_le k)

theorem pays_accept (expected : Expectation) (g : Token → Option α) :
    (accept expected g).Pays 0 fun _ => 1 := by
  intro c
  cases hc : c.rest with
  | nil => simp [Outcome.Pays, accept, hc]
  | cons l rest =>
    cases hg : g l.token with
    | none => simp [Outcome.Pays, accept, hc, hg]
    | some a =>
      simp only [Outcome.Pays, accept, hc, hg, Cursor.rest_advance hc, List.length_nil,
        List.length_cons]
      omega

theorem pays_accept_bind {expected : Expectation} {g : Token → Option α} {f : α × Nat → Parser β}
    (hf : ∀ r, (f r).Pays (k + 1) cost') : (accept expected g >>= f).Pays k cost' :=
  Pays.andThen (pays_accept expected g : (accept expected g).Pays 0 fun _ => 0 + 1) fun r => by
    rw [Nat.add_comm (0 + 1) k]
    exact hf r

theorem pays_expect_bind {t : Token} {f : Nat → Parser β}
    (hf : ∀ line, (f line).Pays (k + 1) cost') : (expect t >>= f).Pays k cost' := by
  rw [expect, bind_assoc]
  refine pays_accept_bind fun r => ?_
  rw [pure_bind]
  exact hf r.2

theorem pays_identifier : identifier.Pays 0 fun _ => 1 :=
  pays_accept_bind fun _ => pays_pure (Nat.le_refl 1)

theorem pays_optional_bind {t : Token} {f : Bool → Parser β}
    (hf : ∀ b, (f b).Pays (k + b.toNat) cost') : (optional t >>= f).Pays k cost' := by
  intro c
  rw [optional, bind_assoc, run_peek_bind]
  cases hc : c.rest with
  | nil =>
    have ht : c.token? ≠ some t := by simp [Cursor.token?, hc]
    rw [if_neg ht, pure_bind, ← hc]
    exact hf false c
  | cons l rest =>
    split
    · have hadvance : c.advance.rest.length + (k + 1) = (l :: rest).length + k := by
        rw [Cursor.rest_advance hc, List.length_cons]
        omega
      rw [← hadvance]
      exact hf true c.advance
    · rw [pure_bind, ← hc]
      exact hf false c

/-! ### Repetition -/

theorem Pays.many {p : Parser (Option α)} (h : p.Advances)
    (hp : p.Pays 1 fun o => (o.map w).getD 0 + 1) :
    (many p h).Pays 1 fun as => (as.map w).sum + 1 := by
  intro c
  -- induction on what is left to read, which each repetition makes shorter
  induction hn : c.rest.length using Nat.strongRecOn generalizing c with
  | ind n ih =>
    subst hn
    rw [many_eq, run_bind]
    refine pays_followedBy (hp c) fun o ho => ⟨Nat.le_add_left 1 _, ?_⟩
    cases o with
    | none => exact pays_pure (Nat.le_refl 1) _
    | some a =>
      have others := pays_add (ih _ (h c a ho) _ rfl) (w a)
      rw [Nat.add_assoc, Nat.add_comm 1] at others
      dsimp only
      rw [run_bind]
      refine pays_followedBy others fun as _ => ⟨by omega, pays_pure ?_ _⟩
      rw [List.map_cons, List.sum_cons]
      omega

theorem Pays.commaSeparated (hp : p.Pays 0 fun a => w a + 1) (closing : Token) :
    (commaSeparated p closing).Pays 0 fun as => (as.map w).sum + 1 := by
  have hitem : (nextItem p closing).Pays 1 fun o => (o.map w).getD 0 + 1 := by
    rw [nextItem, separator, bind_assoc]
    refine pays_accept_bind fun more => ?_
    rw [pure_bind]
    split
    · exact hp.andThen fun a => pays_pure (by simp)
    · exact pays_pure (by simp)
  refine pays_optional_bind fun close => ?_
  cases close with
  | true => exact pays_pure (by simp)
  | false =>
    refine hp.andThen fun a => ?_
    have others := (hitem.many (nextItem_advances p closing)).add (w a)
    rw [Nat.add_comm 1] at others
    refine others.bind (fun as => by omega) fun as => pays_pure ?_
    rw [List.map_cons, List.sum_cons]
    omega

theorem recovering_le (p : Parser α) (c : Cursor) :
    ((recovering p).run c).next.rest.length ≤ (p.run c).next.rest.length := by
  have hnext : ((recovering p).run c).next =
      if (p.run c).next.left < c.left then (p.run c).next else c.advance := by
    simp only [recovering]
    split <;> rfl
  rw [hnext]
  split
  · exact Nat.le_refl _
  · next h =>
    rw [Cursor.left_eq, Cursor.left_eq, Nat.not_lt] at h
    exact Nat.le_trans c.advance_suffix.length_le h

theorem recovering_of_ok {c : Cursor} {a : α} (hr : (p.run c).result = .ok a) :
    ((recovering p).run c).result = .ok (some a) ∧
      ((recovering p).run c).recorded = (p.run c).recorded := by
  simp [recovering, hr]

theorem recovering_of_error {c : Cursor} {e : ParseError} (hr : (p.run c).result = .error e) :
    ((recovering p).run c).result = .ok none ∧
      ((recovering p).run c).recorded = (p.run c).recorded ++ [e] := by
  simp [recovering, hr]

/-- **A failed statement is paid for** by what it has read, or by its first token. -/
theorem pays_recovering (hp : p.Pays 0 w) {c : Cursor} (hc : c.rest ≠ []) :
    ((recovering p).run c).Pays c.rest.length fun o => (o.map w).getD 0 := by
  have hlt := recovering_lt p hc
  have hle := recovering_le p c
  have hpc := hp c
  cases hr : (p.run c).result with
  | ok a =>
    obtain ⟨hres, hrec⟩ := recovering_of_ok hr
    simp only [Outcome.Pays, hr] at hpc
    simp only [Outcome.Pays, hres, hrec, Option.map_some, Option.getD_some]
    omega
  | error e =>
    obtain ⟨hres, hrec⟩ := recovering_of_error hr
    simp only [Outcome.Pays, hr] at hpc
    simp only [Outcome.Pays, hres, hrec, Option.map_none, Option.getD_none, List.length_append,
      List.length_singleton]
    -- what has recorded nothing has one error, and recovery reads at least one token
    rcases hpc with hnil | hpc
    · rw [hnil, List.length_nil]
      omega
    · omega

/-- The error of a failed statement is the last one that is recorded for it, and those
before it are paid for without its first token. -/
theorem Pays.failed (hp : p.Pays 0 w) {c : Cursor} (hc : c.rest ≠ []) {e : ParseError}
    (he : (p.run c).result = .error e) :
    ((recovering p).run c).result = .ok none ∧
      ((recovering p).run c).recorded = (p.run c).recorded ++ [e] ∧
      (p.run c).recorded.length + ((recovering p).run c).next.rest.length ≤
        c.advance.rest.length := by
  obtain ⟨hres, hrec⟩ := recovering_of_error he
  refine ⟨hres, hrec, ?_⟩
  have hpays := pays_recovering hp hc
  simp only [Outcome.Pays, hres, hrec, Option.map_none, Option.getD_none, List.length_append,
    List.length_singleton] at hpays
  rw [Cursor.advance_rest, List.length_tail]
  omega

theorem sum_map_filterMap_id (w : α → Nat) (os : List (Option α)) :
    ((os.filterMap id).map w).sum = (os.map fun o => (o.map w).getD 0).sum := by
  induction os with
  | nil => rfl
  | cons o os ih =>
    rw [List.map_cons, List.sum_cons, ← ih]
    cases o with
    | none => exact (Nat.zero_add _).symm
    | some a => exact List.sum_cons

theorem Pays.statementsUntil (hp : p.Pays 0 w) (stop : Token → Bool) :
    (statementsUntil stop p).Pays 1 fun as => (as.map w).sum + 1 := by
  have helement : (element stop p).Pays 1 fun o =>
      (o.map fun o' => (o'.map w).getD 0).getD 0 + 1 := by
    intro c
    rw [element, run_peek_bind]
    cases ht : c.token? with
    | none => exact pays_pure (Nat.le_refl 1) c
    | some t =>
      have hne : c.rest ≠ [] := by
        intro hnil
        simp [Cursor.token?, hnil] at ht
      dsimp only
      split
      · exact pays_pure (Nat.le_refl 1) c
      · split
        · refine pays_advance_bind (fun _ => pays_pure ?_) c
          exact Nat.le_refl 1
        · rw [run_bind]
          refine pays_followedBy (pays_add (pays_recovering hp hne) 1) fun o _ => ?_
          refine ⟨Nat.le_add_left 1 _, pays_pure ?_ _⟩
          exact Nat.le_refl ((o.map w).getD 0 + 1)
  refine (helement.many _).bind (fun _ => Nat.le_add_left 1 _) fun os => pays_pure ?_
  exact Nat.le_of_eq (congrArg (· + 1) (sum_map_filterMap_id w os))

end

/-! ### Phrases -/

section
variable {e : Precedence → Parser Expr} {b : Parser Block}

theorem pays_startingWith (he : ∀ p, (e p).Pays 0 fun a => a.innerStatements.length + 1)
    (hb : b.Pays 0 fun a => a.innerStatements.length + 1) (form : StartForm) :
    (startingWith e b form).Pays 0 fun a => a.innerStatements.length + 1 := by
  cases form with
  | identifier =>
    exact pays_identifier.bind (fun _ => Nat.le_refl 1) fun _ => pays_pure (Nat.le_refl 1)
  | integer =>
    refine pays_accept_bind fun r => ?_
    obtain ⟨text, line⟩ := r
    dsimp only
    split
    · exact pays_pure (Nat.le_refl 1)
    · exact pays_failAt _
  | boolean => exact pays_accept_bind fun _ => pays_pure (Nat.le_refl 1)
  | prefixed =>
    refine pays_accept_bind fun _ => (he _).andThen fun operand => pays_pure ?_
    rw [Expr.innerStatements]
    omega
  | group =>
    exact pays_expect_bind fun _ => (he _).andThen fun e => pays_expect_bind fun _ =>
      pays_pure (by omega)
  | conditional =>
    refine pays_expect_bind fun _ => pays_expect_bind fun _ => (he _).andThen fun condition => ?_
    refine pays_expect_bind fun _ => hb.andThen fun consequence => pays_optional_bind fun more => ?_
    cases more with
    | false =>
      refine pays_pure ?_
      simp only [Expr.innerStatements, List.length_append]
      omega
    | true =>
      refine hb.andThen fun alternative => pays_pure ?_
      simp only [Expr.innerStatements, List.length_append]
      omega
  | function =>
    refine pays_expect_bind fun _ => pays_expect_bind fun _ => ?_
    have hname : identifier.Pays 0 fun _ => 0 + 1 := pays_identifier
    refine (hname.commaSeparated _).andThen fun parameters => hb.andThen fun body => pays_pure ?_
    rw [Expr.innerStatements]
    omega

theorem pays_firstOperand (he : ∀ p, (e p).Pays 0 fun a => a.innerStatements.length + 1)
    (hb : b.Pays 0 fun a => a.innerStatements.length + 1) :
    (firstOperand e b).Pays 0 fun a => a.innerStatements.length + 1 := by
  refine pays_currentLine_bind fun line => pays_peek_bind fun next => ?_
  cases next with
  | none => exact pays_failAt _
  | some t =>
    dsimp only
    split
    · exact pays_advance_bind fun _ => pays_failAt _
    · exact pays_startingWith he hb _

/-- What continues an expression has the tokens of the expression as its credit. -/
theorem pays_continuedBy (he : ∀ p, (e p).Pays 0 fun a => a.innerStatements.length + 1)
    (left : Expr) (form : ContinueForm) :
    (continuedBy e left form).Pays (left.innerStatements.length + 1) fun a =>
      a.innerStatements.length + 1 := by
  cases form with
  | infixed =>
    refine pays_accept_bind fun _ => (he _).andThen fun right => pays_pure ?_
    simp only [Expr.innerStatements, List.length_append]
    omega
  | call =>
    refine pays_expect_bind fun _ => ((he _).commaSeparated _).andThen fun args => pays_pure ?_
    rw [Expr.innerStatements, List.length_append, Expr.innerStatementsAll_eq, List.length_flatMap]
    omega

theorem pays_stmt (he : ∀ p, (e p).Pays 0 fun a => a.innerStatements.length + 1) :
    (stmt e).Pays 0 fun s => s.withInner.length := by
  refine pays_peek_bind fun next => ?_
  split
  · have hname : identifier.Pays 0 fun _ => 0 + 1 := pays_identifier
    refine pays_expect_bind fun _ => hname.andThen fun _ => pays_expect_bind fun _ =>
      (he _).andThen fun value => pays_optional_bind fun _ => pays_pure ?_
    rw [Stmt.withInner, List.length_cons]
    omega
  · refine pays_expect_bind fun _ => (he _).andThen fun value => pays_optional_bind fun _ =>
      pays_pure ?_
    rw [Stmt.withInner, List.length_cons]
    omega
  · refine pays_currentLine_bind fun _ => (he _).andThen fun value => pays_optional_bind fun _ =>
      pays_pure ?_
    rw [Stmt.withInner, List.length_cons]
    omega

theorem pays_bracedBlock (he : ∀ p, (e p).Pays 0 fun a => a.innerStatements.length + 1) :
    (bracedBlock e).Pays 0 fun a => a.innerStatements.length + 1 := by
  refine pays_expect_bind fun _ => ?_
  refine ((pays_stmt he).statementsUntil _).bind (fun _ => Nat.le_add_left 1 _) fun ss => ?_
  refine pays_expect_bind fun _ => pays_pure ?_
  rw [Block.innerStatements, Stmt.withInnerAll_eq, List.length_flatMap]
  omega

end

/-- **The account of every phrase.** -/
theorem pays_levels (limit n : Nat) :
    (∀ p, (expressionAt limit n p).Pays 0 fun a => a.innerStatements.length + 1) ∧
      (∀ p left, (continueAt limit n p left).Pays (left.innerStatements.length + 1) fun a =>
        a.innerStatements.length + 1) ∧
      (blockAt limit n).Pays 0 fun a => a.innerStatements.length + 1 := by
  induction n with
  | zero =>
    refine ⟨fun p => pays_failAt _, fun p left => pays_peek_bind fun next => ?_, pays_failAt _⟩
    split
    · exact pays_pure (Nat.le_refl _)
    · exact pays_failAt _
  | succ n ih =>
    obtain ⟨he, hloop, hb⟩ := ih
    refine ⟨fun p => (pays_firstOperand he hb).andThen fun left => hloop p left, ?_,
      pays_bracedBlock he⟩
    refine fun p left => pays_peek_bind fun next => ?_
    split
    · exact pays_pure (Nat.le_refl _)
    · next form _ =>
      exact (pays_continuedBy he left form).bind (fun _ => Nat.le_add_left 1 _) fun longer =>
        hloop p longer

/-! ### The first lexeme -/

/-- The parser decides by the next lexeme alone what it does, and then reads it; only the
nesting limit can stop it before. -/
inductive ReadsFirst : {α : Type} → Parser α → Prop where
  | accept {α : Type} (expected : Expectation) (f : Token → Option α) :
      ReadsFirst (accept expected f)
  | advance : ReadsFirst advance
  | nestingTooDeep {α : Type} (limit : Nat) : ReadsFirst (nestingTooDeep limit : Parser α)
  | bind {α β : Type} {p : Parser α} (f : α → Parser β) : ReadsFirst p → ReadsFirst (p >>= f)
  | peek {α : Type} {f : Option Token → Parser α} :
      (∀ t, ReadsFirst (f (some t))) → ReadsFirst (peek >>= f)
  | currentLine {α : Type} {f : Nat → Parser α} :
      (∀ line, ReadsFirst (f line)) → ReadsFirst (currentLine >>= f)

theorem readsFirst_expect (t : Token) : (expect t).ReadsFirst :=
  (ReadsFirst.accept _ _).bind _

theorem readsFirst_startingWith (e : Precedence → Parser Expr) (b : Parser Block)
    (form : StartForm) : (startingWith e b form).ReadsFirst := by
  cases form with
  | identifier => exact ((ReadsFirst.accept _ _).bind _).bind _
  | integer => exact (ReadsFirst.accept _ _).bind _
  | boolean => exact (ReadsFirst.accept _ _).bind _
  | prefixed => exact (ReadsFirst.accept _ _).bind _
  | group => exact (readsFirst_expect _).bind _
  | conditional => exact (readsFirst_expect _).bind _
  | function => exact (readsFirst_expect _).bind _

theorem readsFirst_expressionAt (limit n : Nat) (p : Precedence) :
    (expressionAt limit n p).ReadsFirst := by
  cases n with
  | zero => exact .nestingTooDeep limit
  | succ n =>
    refine .bind _ (.currentLine fun line => .peek fun t => ?_)
    dsimp only
    split
    · exact .bind _ .advance
    · exact readsFirst_startingWith _ _ _

theorem readsFirst_stmt {e : Precedence → Parser Expr} (he : ∀ p, (e p).ReadsFirst) :
    (stmt e).ReadsFirst := by
  refine .peek fun t => ?_
  split
  · exact (readsFirst_expect _).bind _
  · exact (readsFirst_expect _).bind _
  · exact .currentLine fun _ => (he _).bind _

/-! ### The end of a run -/

def NeverFails (p : Parser α) : Prop :=
  ∀ c, ∃ a, (p.run c).result = .ok a

/-- A repetition ends where its part says that there is nothing more. -/
theorem NeverFails.many {p : Parser (Option α)} (hp : p.NeverFails) (h : p.Advances) (c : Cursor) :
    ∃ as c', ((many p h).run c).result = .ok as ∧ (p.run c').result = .ok none ∧
      ((many p h).run c).next = (p.run c').next := by
  -- induction on what is left to read, which each repetition makes shorter
  induction hn : c.rest.length using Nat.strongRecOn generalizing c with
  | ind n ih =>
    subst hn
    obtain ⟨o, ho⟩ := hp c
    rw [many_eq, run_bind, followedBy_of_ok ho]
    cases o with
    | none => exact ⟨[], c, rfl, ho, rfl⟩
    | some a =>
      obtain ⟨as, c', has, hc', hnext⟩ := ih _ (h c a ho) _ rfl
      refine ⟨a :: as, c', ?_, hc', ?_⟩
      · dsimp only
        rw [run_bind, followedBy_of_ok has]
        rfl
      · dsimp only
        rw [run_bind, followedBy_of_ok has, ← hnext]
        rfl

theorem recovering_neverFails (p : Parser α) : (recovering p).NeverFails := by
  intro c
  simp only [recovering]
  split
  · exact ⟨_, rfl⟩
  · exact ⟨_, rfl⟩

/-- An element is always read, and there is none only where the run has to end. -/
theorem element_cases (stop : Token → Bool) (p : Parser α) (c : Cursor) :
    (((element stop p).run c).result = .ok none ∧ ((element stop p).run c).next = c ∧
        ∀ t ∈ c.token?, stop t = true) ∨
      ∃ o, ((element stop p).run c).result = .ok (some o) := by
  rw [element, run_peek_bind]
  cases ht : c.token? with
  | none => exact Or.inl ⟨rfl, rfl, by simp⟩
  | some t =>
    dsimp only
    split
    · next hstop => exact Or.inl ⟨rfl, rfl, by simpa using hstop⟩
    · split
      · exact Or.inr ⟨none, rfl⟩
      · obtain ⟨o, ho⟩ := recovering_neverFails p c
        refine Or.inr ⟨o, ?_⟩
        rw [run_bind, followedBy_of_ok ho]
        rfl

/-- **A run of statements gets to its end**, whatever is in it. -/
theorem statementsUntil_ends (stop : Token → Bool) (p : Parser α) (c : Cursor) :
    ∃ as, ((statementsUntil stop p).run c).result = .ok as ∧
      ∀ t ∈ ((statementsUntil stop p).run c).next.token?, stop t = true := by
  have hnever : (element stop p).NeverFails := fun c =>
    (element_cases stop p c).elim (fun h => ⟨_, h.1⟩) fun ⟨_, h⟩ => ⟨_, h⟩
  obtain ⟨os, c', hos, hc', hnext⟩ := hnever.many (element_advances stop p) c
  rw [statementsUntil, run_bind, followedBy_of_ok hos]
  refine ⟨os.filterMap id, rfl, ?_⟩
  rcases element_cases stop p c' with ⟨-, hstay, hstop⟩ | ⟨o, ho⟩
  · show ∀ t ∈ ((Parser.many (element stop p) _).run c).next.token?, stop t = true
    rw [hnext, hstay]
    exact hstop
  · rw [hc'] at ho
    simp at ho

/-- A program is read to the end of input, and all of it is paid for. -/
theorem programWithin_ends (limit : Nat) (c : Cursor) :
    ∃ p errors c', (programWithin limit).run c = ⟨.ok p, errors, c'⟩ ∧ c'.rest = [] ∧
      errors.length + (Stmt.withInnerAll p).length ≤ c.rest.length := by
  have hpays := (pays_stmt (pays_levels limit limit).1).statementsUntil (fun _ => false) c
  obtain ⟨p, hp, hend⟩ := statementsUntil_ends (fun _ => false) (statementWithin limit) c
  change ((programWithin limit).run c).Pays _ _ at hpays
  change ((programWithin limit).run c).result = _ at hp
  change ∀ t ∈ ((programWithin limit).run c).next.token?, _ at hend
  generalize (programWithin limit).run c = o at hpays hp hend ⊢
  obtain ⟨result, errors, c'⟩ := o
  obtain rfl : result = .ok p := hp
  have hrest : c'.rest = [] := by
    cases hr : c'.rest with
    | nil => rfl
    | cons l rest => exact absurd (hend l.token (Cursor.token?_of_rest hr)) (by simp)
  refine ⟨p, errors, c', rfl, hrest, ?_⟩
  simp only [Outcome.Pays, hrest, List.length_nil] at hpays
  rw [Stmt.withInnerAll_eq, List.length_flatMap]
  omega

end Parser

/-- **Parsing makes progress.**  Whatever the lexemes are, all of them are read, and there
are at most as many errors and statements together as there are lexemes.  Each statement
that fails, at the top or in a block at any depth, is paid for by its own first lexeme: the
errors recorded inside it are not more than the lexemes read after that one. -/
theorem parsing_makes_progress (limit : Nat) :
    (∀ lexemes, ∃ p errors c,
      (Parser.programWithin limit).run (.start lexemes) = ⟨.ok p, errors, c⟩ ∧ c.rest = [] ∧
      parseLexemesWithin limit lexemes = ⟨p, errors⟩ ∧
      errors.length + (Stmt.withInnerAll p).length ≤ lexemes.length) ∧
    ∀ levels c e, c.rest ≠ [] →
      let o := (Parser.stmt (Parser.expressionAt limit levels)).run c
      let o' := (Parser.recovering (Parser.stmt (Parser.expressionAt limit levels))).run c
      o.result = .error e →
        o'.result = .ok none ∧ o'.recorded = o.recorded ++ [e] ∧
        o.recorded.length + o'.next.rest.length ≤ c.advance.rest.length := by
  refine ⟨fun lexemes => ?_, ?_⟩
  · obtain ⟨p, errors, c, hrun, hrest, hcount⟩ := Parser.programWithin_ends limit (.start lexemes)
    refine ⟨p, errors, c, hrun, hrest, ?_, hcount⟩
    rw [parseLexemesWithin, Reader.run, Reader.start, hrun]
    rfl
  · intro levels c e hc o o' he
    exact (Parser.pays_stmt (Parser.pays_levels limit levels).1).failed hc he

/-- In a block that is not closed, the statement in it and the one around it fail, which
leaves two errors for seven lexemes. -/
theorem parsing_makes_progress_unclosed :
    let c := Cursor.start (tokenize "if (x) \x7b let ;")
    let o := (Parser.stmt (Parser.expressionAt maxNesting maxNesting)).run c
    let o' := (Parser.recovering (Parser.stmt (Parser.expressionAt maxNesting maxNesting))).run c
    c.rest ≠ [] ∧ (∃ e, o.result = .error e ∧ o'.recorded = o.recorded ++ [e]) ∧
      o.recorded.length = 1 ∧ o.recorded.length + o'.next.rest.length ≤ 6 := by
  intro c o o'
  have hc : c.rest ≠ [] := by decide +kernel
  have hfails : o.result.isOk = false := by decide +kernel
  obtain ⟨e, he⟩ : ∃ e, o.result = .error e := by
    cases ho : o.result with
    | error e => exact ⟨e, rfl⟩
    | ok s => simp [ho, Except.isOk, Except.toBool] at hfails
  obtain ⟨-, hrec, hle⟩ := (parsing_makes_progress maxNesting).2 maxNesting c e hc he
  have hlength : c.advance.rest.length = 6 := by decide +kernel
  exact ⟨hc, ⟨e, he, hrec⟩, by decide +kernel, hlength ▸ hle⟩

end ExprScript
