import ExprScript.Proofs.Evaluation.Alike
import ExprScript.Proofs.Evaluation.Names
import ExprScript.Proofs.Grammar.Names

/-!
# Every error is a diagnosis

An error that comes out of a program is the message of a runtime error that says what went
wrong: `RuntimeError.WellFormed` lists which ones there are.  Nothing in a message speaks
of an interruption, since no interruption gets to an operator or is called: what comes
before it is handed up.  A name in a message is one that was read, so it is in the program
text, also if a function reads it that was made long before.

Errors are made in three places, by operators, by calls and where a name is read
(`PrefixOp.sound_apply`, `InfixOp.sound_apply`, `Value.callable_error`); everywhere else
they are passed on.  Functions wait in the heap with the names in their bodies, so the
invariant is about values and the heap as much as about the outcome (`Value.Sound`).

* `Evaluates.sound`: what evaluation gives and stores is sound.
* `errors_are_diagnoses`: every error of a session.
-/

namespace ExprScript

def Kind.Proper (k : Kind) : Prop :=
  k = .integer ∨ k = .boolean ∨ k = .null ∨ k = .function

/-- The errors that there are: names in them have the property, and the limit is the one for
calls. -/
inductive RuntimeError.WellFormed (P : String → Prop) (limit : Nat) : RuntimeError → Prop where
  | typeMismatch {left right : Kind} (op : InfixOp) : left.Proper → right.Proper → left ≠ right →
      WellFormed P limit (.typeMismatch left op right)
  /-- Truth values can be compared for equality only. -/
  | booleans {op : InfixOp} : op ≠ .equal → op ≠ .notEqual →
      WellFormed P limit (.unknownInfixOperator .boolean op .boolean)
  | nulls (op : InfixOp) : WellFormed P limit (.unknownInfixOperator .null op .null)
  | functions (op : InfixOp) : WellFormed P limit (.unknownInfixOperator .function op .function)
  | negation {k : Kind} : k.Proper → k ≠ .integer →
      WellFormed P limit (.unknownPrefixOperator .negate k)
  | identifierNotFound {name : String} : P name → WellFormed P limit (.identifierNotFound name)
  | notAFunction {k : Kind} : k.Proper → k ≠ .function → WellFormed P limit (.notAFunction k)
  | wrongArgumentCount {expected found : Nat} : expected ≠ found →
      WellFormed P limit (.wrongArgumentCount expected found)
  | divisionByZero : WellFormed P limit .divisionByZero
  | recursionLimitExceeded : WellFormed P limit (.recursionLimitExceeded limit)

section
variable (P : String → Prop) (limit : Nat)

/-- Errors are well-formed, and functions have such names only. -/
def Value.Sound : Value → Prop
  | .error m => ∃ e : RuntimeError, e.WellFormed P limit ∧ e.message = m
  | .function f => f.body.Names P
  | .pendingReturn v => v.Sound
  | _ => True

def Heap.Sound (h : Heap) : Prop :=
  h.Stores (Value.Sound P limit)

/-- What a task has found so far is sound; what is an operand or is called did not
interrupt. -/
def Task.Sound : Task → Prop
  | .rightOperand left _ _ => left.interrupts = false
  | .arguments callee done _ =>
    callee.interrupts = false ∧ callee.Sound P limit ∧ ∀ v ∈ done, v.Sound P limit
  | .apply callee args =>
    callee.interrupts = false ∧ callee.Sound P limit ∧ ∀ v ∈ args, v.Sound P limit
  | .stmts last _ => last.Sound P limit
  | .store _ v => v.Sound P limit
  | .value v => v.Sound P limit
  | .expr _ | .stmt _ | .program _ => True

end

section
variable {P : String → Prop} {limit : Nat}

theorem RuntimeError.WellFormed.sound {e : RuntimeError} (he : e.WellFormed P limit) :
    e.toValue.Sound P limit :=
  ⟨e, he, rfl⟩

theorem Value.Sound.unwrapReturn {v : Value} (hv : v.Sound P limit) :
    v.unwrapReturn.Sound P limit := by
  cases v with
  | pendingReturn w => exact hv
  | _ => exact hv

/-! ### Where errors are made -/

theorem Value.proper_kind {v : Value} (hv : v.interrupts = false) : v.kind.Proper := by
  cases v with
  | integer n => exact Or.inl rfl
  | boolean b => exact Or.inr (Or.inl rfl)
  | null => exact Or.inr (Or.inr (Or.inl rfl))
  | function f => exact Or.inr (Or.inr (Or.inr rfl))
  | error m => simp [interrupts] at hv
  | pendingReturn w => simp [interrupts] at hv

theorem PrefixOp.sound_apply (op : PrefixOp) {v : Value} (hv : v.interrupts = false) :
    (op.apply v).Sound P limit := by
  cases op with
  | not => trivial
  | negate =>
    have hk := Value.proper_kind hv
    cases v with
    | integer n => trivial
    | _ => exact (RuntimeError.WellFormed.negation hk (by simp [Value.kind])).sound

theorem InfixOp.sound_applyIntegers (op : InfixOp) (m n : Int64) :
    (op.applyIntegers m n).Sound P limit := by
  cases op with
  | div =>
    rw [applyIntegers]
    split
    · exact RuntimeError.WellFormed.divisionByZero.sound
    · trivial
  | _ => trivial

theorem InfixOp.sound_applyBooleans (op : InfixOp) (a b : Bool) :
    (op.applyBooleans a b).Sound P limit := by
  cases op with
  | equal | notEqual => trivial
  | _ => exact (RuntimeError.WellFormed.booleans (by simp) (by simp)).sound

theorem InfixOp.sound_apply (op : InfixOp) {v w : Value} (hv : v.interrupts = false)
    (hw : w.interrupts = false) : (op.apply v w).Sound P limit := by
  unfold apply
  split
  · exact op.sound_applyIntegers _ _
  · exact op.sound_applyBooleans _ _
  · next hints hbools =>
    split
    · next hk =>
      -- two values of one kind that are neither integers nor truth values
      cases v with
      | integer m => cases w <;> simp_all [Value.kind]
      | boolean a => cases w <;> simp_all [Value.kind]
      | null =>
        rw [← hk]
        exact (RuntimeError.WellFormed.nulls op).sound
      | function f =>
        rw [← hk]
        exact (RuntimeError.WellFormed.functions op).sound
      | error m => simp [Value.interrupts] at hv
      | pendingReturn u => simp [Value.interrupts] at hv
    · next hk =>
      exact (RuntimeError.WellFormed.typeMismatch op (Value.proper_kind hv)
        (Value.proper_kind hw) hk).sound

theorem Value.callable_error {callee : Value} {args : List Value} {e : RuntimeError}
    (hi : callee.interrupts = false) (he : callee.callable args = .error e) :
    e.WellFormed P limit := by
  have hk := Value.proper_kind hi
  cases callee with
  | function f =>
    rw [callable] at he
    split at he
    · simp at he
    · next hcount =>
      obtain rfl := Except.error.inj he
      exact .wrongArgumentCount hcount
  | _ =>
    obtain rfl := Except.error.inj he
    exact .notAFunction hk (by simp [kind])

end

/-- What is read is bound, or the name that is read is in the error. -/
theorem Heap.Sound.valueOf {P : String → Prop} {limit : Nat} {h : Heap}
    (hh : h.Sound P limit) (env : EnvId) {name : String} (hn : P name) :
    (h.valueOf env name).Sound P limit := by
  rw [Heap.valueOf]
  cases hl : h.lookup env name with
  | none => exact (RuntimeError.WellFormed.identifierNotFound hn).sound
  | some v => exact hh.of_lookup hl

/-! ### Tasks -/

namespace Task

variable {P : String → Prop} {limit : Nat} {c c' : Context} {h h' : Heap} {t t' first : Task}
  {next : Value → Task} {v : Value} {callee : Value} {args : List Value}

theorem sound_callPlan_done (hh : h.Sound P limit) (hi : callee.interrupts = false)
    (hp : callPlan limit c h callee args = .done v h') : v.Sound P limit ∧ h'.Sound P limit := by
  rw [callPlan] at hp
  cases hc : callee.callable args with
  | error e =>
    rw [hc] at hp
    obtain ⟨rfl, rfl⟩ := Plan.done.inj hp
    exact ⟨(Value.callable_error hi hc).sound, hh⟩
  | ok f =>
    rw [hc] at hp
    dsimp only at hp
    split at hp
    · simp at hp
    · obtain ⟨rfl, rfl⟩ := Plan.done.inj hp
      exact ⟨RuntimeError.WellFormed.recursionLimitExceeded.sound, hh⟩

theorem sound_done (hh : h.Sound P limit) (ht : t.Sound P limit) (hn : t.Names P)
    (hp : t.plan limit c h = .done v h') : v.Sound P limit ∧ h'.Sound P limit := by
  cases t with
  | expr e =>
    cases e with
    | integer n line =>
      obtain ⟨rfl, rfl⟩ := Plan.done.inj hp
      exact ⟨trivial, hh⟩
    | boolean b line =>
      obtain ⟨rfl, rfl⟩ := Plan.done.inj hp
      exact ⟨trivial, hh⟩
    | function parameters body line =>
      obtain ⟨rfl, rfl⟩ := Plan.done.inj hp
      exact ⟨hn.2, hh⟩
    | _ => simp [plan] at hp
  | arguments callee done todo =>
    cases todo with
    | nil => exact sound_callPlan_done hh ht.1 hp
    | cons e es => simp [plan] at hp
  | apply callee args => exact sound_callPlan_done hh ht.1 hp
  | stmt s => cases s <;> simp [plan] at hp
  | stmts last ss =>
    cases ss with
    | nil =>
      obtain ⟨rfl, rfl⟩ := Plan.done.inj hp
      exact ⟨ht, hh⟩
    | cons s ss => simp [plan] at hp
  | store name w =>
    obtain ⟨rfl, rfl⟩ := Plan.done.inj hp
    exact ⟨trivial, hh.insert c.env name ht⟩
  | value w =>
    obtain ⟨rfl, rfl⟩ := Plan.done.inj hp
    exact ⟨ht, hh⟩
  | _ => simp [plan] at hp

theorem sound_branch (v : Value) (consequence : Block) (alternative : Option Block) :
    (branch v consequence alternative).Sound P limit := by
  unfold branch
  split
  · trivial
  · cases alternative with
    | none => trivial
    | some b => trivial

/-- What comes next is done with a value that is sound and did not interrupt. -/
theorem sound_sequence (ht : t.Sound P limit) (hp : t.plan limit c h = .sequence first next) :
    first.Sound P limit ∧
      ∀ v, v.interrupts = false → v.Sound P limit → (next v).Sound P limit := by
  cases splits_of_plan hp with
  | prefixed op operand line => exact ⟨trivial, fun _ hi _ => op.sound_apply hi⟩
  | infixed left op right line => exact ⟨trivial, fun _ hi _ => hi⟩
  | conditional condition consequence alternative line =>
    exact ⟨trivial, fun v _ _ => sound_branch v consequence alternative⟩
  | call callee args line => exact ⟨trivial, fun _ hi hv => ⟨hi, hv, by simp⟩⟩
  | rightOperand left op right => exact ⟨trivial, fun _ hi _ => op.sound_apply ht hi⟩
  | argument callee done e es =>
    refine ⟨trivial, fun v _ hv => ⟨ht.1, ht.2.1, fun w hw => ?_⟩⟩
    rcases List.mem_append.mp hw with hw | hw
    · exact ht.2.2 w hw
    · rwa [List.mem_singleton.mp hw]
  | bind target e line => exact ⟨trivial, fun _ _ hv => hv⟩
  | ret e line => exact ⟨trivial, fun _ _ hv => hv⟩
  | exprStmt e line => exact ⟨trivial, fun _ _ hv => hv⟩
  | block body => exact ⟨trivial, fun _ _ hv => hv⟩
  | statement last s ss => exact ⟨trivial, fun _ _ hv => hv⟩

theorem sound_enclosed (hh : h.Sound P limit) (ht : t.Sound P limit) (hn : t.Names P)
    (hp : t.plan limit c h = .enclosed c' h' t') :
    h'.Sound P limit ∧ t'.Sound P limit ∧ t'.Names P := by
  rcases plan_enclosed hp with ⟨-, rfl, p, rfl, rfl⟩ | ⟨f, args, hcall, -, -, rfl, rfl⟩
  · exact ⟨hh, trivial, hn⟩
  · -- the names in the body are those that the function came with
    have hf : f.body.Names P ∧ ∀ v ∈ args, v.Sound P limit := by
      rcases hcall with rfl | rfl
      · exact ht.2
      · exact ht.2
    exact ⟨hh.enter f hf.2, trivial, Block.names_iff.mp hf.1⟩

end Task

/-! ### Evaluation -/

section
variable {P : String → Prop} {limit : Nat} {c : Context} {h h' : Heap} {t : Task} {v : Value}

/-- **Evaluation gives and stores sound values only.** -/
theorem Evaluates.sound (he : Evaluates Heap.Records limit c h t v h') (hh : h.Sound P limit)
    (ht : t.Sound P limit) (hn : t.Names P) : v.Sound P limit ∧ h'.Sound P limit := by
  induction he with
  | done hp => exact Task.sound_done hh ht hn hp
  | @read c h t name v hp hr =>
    rw [← hr]
    exact ⟨hh.valueOf c.env (Task.names_read hn hp), hh⟩
  | stop hp _ _ ih => exact ih hh (Task.sound_sequence ht hp).1 (Task.names_sequence hn hp).1
  | next hp _ hi _ ih₁ ih₂ =>
    obtain ⟨hfirst, hnext⟩ := Task.sound_sequence ht hp
    obtain ⟨hnfirst, hnnext⟩ := Task.names_sequence hn hp
    obtain ⟨hv, hh₁⟩ := ih₁ hh hfirst hnfirst
    exact ih₂ hh₁ (hnext _ hi hv) (hnnext _)
  | enclosed hp _ ih =>
    obtain ⟨hh₁, hbody, hnames⟩ := Task.sound_enclosed hh ht hn hp
    obtain ⟨hv, hh'⟩ := ih hh₁ hbody hnames
    exact ⟨hv.unwrapReturn, hh'⟩

end

/-! ### Sessions -/

namespace Session

variable {P : String → Prop} {s : Session}

theorem sound_evaluateSource (hs : s.heap.Sound P maxCallDepth) {source : String}
    (hn : IdentifiersHave P (tokenize source)) :
    (∀ v, (s.evaluateSource source).1 = .ok v → v.Sound P maxCallDepth) ∧
      (s.evaluateSource source).2.heap.Sound P maxCallDepth := by
  by_cases hp : (parse source).errors = []
  · have hnames : Stmt.NamesAll P (parse source).program := names_of_parse hp hn
    obtain ⟨hv, hh⟩ := ((s.config source).evaluates_outcome maxCallDepth).sound hs trivial hnames
    rw [evaluateSource_of_parse hp]
    refine ⟨fun v heq => ?_, hh⟩
    rwa [← Except.ok.inj heq]
  · rw [evaluateSource_of_errors hp]
    exact ⟨fun v heq => by simp at heq, hs⟩

theorem sound_after (hs : s.heap.Sound P maxCallDepth) {sources : List String}
    (hn : ∀ source ∈ sources, IdentifiersHave P (tokenize source)) :
    (s.after sources).heap.Sound P maxCallDepth := by
  induction sources generalizing s with
  | nil => exact hs
  | cons source sources ih =>
    obtain ⟨hsource, hsources⟩ := List.forall_mem_cons.mp hn
    exact ih (sound_evaluateSource hs hsource).2 hsources

end Session

/-- A name that is an identifier in one of some texts. -/
def OccursIn (sources : List String) (name : String) : Prop :=
  ∃ source ∈ sources, ∃ line, ⟨.identifier name, line⟩ ∈ tokenize source

/-- **Every error is a diagnosis.**  Take a session that has evaluated any texts and goes on
with another one.  If that comes to an error, then its message is that of a well-formed
runtime error, and a name in it is an identifier in one of the texts. -/
theorem errors_are_diagnoses {sources : List String} {source : String} {m : String}
    (h : ((Session.start.after sources).evaluateSource source).1 = .ok (.error m)) :
    ∃ e : RuntimeError, e.WellFormed (OccursIn (source :: sources)) maxCallDepth ∧
      e.message = m := by
  have hnames : ∀ text ∈ source :: sources,
      IdentifiersHave (OccursIn (source :: sources)) (tokenize text) :=
    fun text htext name line hmem => ⟨text, htext, line, hmem⟩
  obtain ⟨hsource, hsources⟩ := List.forall_mem_cons.mp hnames
  have hs := Session.sound_after (s := .start) (Heap.stores_empty.addGlobal) hsources
  exact (Session.sound_evaluateSource hs hsource).1 _ h

/-- What is shown of an error is all of it. -/
theorem eq_error_of_shown {answer : Except (List ParseError) Value} {m : String}
    (h : shown answer = .ok (.error, m)) : answer = .ok (.error m) := by
  cases answer with
  | error errors => simp [shown, Except.map] at h
  | ok v =>
    obtain ⟨hk, ht⟩ := Prod.mk.inj (Except.ok.inj h)
    cases v with
    | error m' => exact congrArg (Except.ok ∘ Value.error) ht
    | _ => simp [Value.kind] at hk

/-- A function reads a name that nothing binds when it is called from a later text. -/
theorem errors_are_diagnoses_closure :
    let made := "let f = fn(x) \x7b x + missing \x7d"
    ((Session.start.after [made]).evaluateSource "f(1)").1 =
        .ok (.error "identifier not found: missing") ∧
      ∃ e : RuntimeError, e.WellFormed (OccursIn ["f(1)", made]) 1000 ∧
        e.message = "identifier not found: missing" := by
  intro made
  have h : ((Session.start.after [made]).evaluateSource "f(1)").1 =
      .ok (.error "identifier not found: missing") := eq_error_of_shown (by decide +kernel)
  exact ⟨h, errors_are_diagnoses h⟩

end ExprScript
