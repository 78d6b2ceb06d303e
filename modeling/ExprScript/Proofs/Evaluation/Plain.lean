import ExprScript.Proofs.Evaluation.Reference
import ExprScript.Session

/-!
# Only plain values are stored

A session that starts afresh never binds an error or a pending return, in whatever
environment, and no pending return gets out of the call or the program that it ends.

The two hold together.  A pending return that is passed on carries a plain value
(`Value.Readable`), since what is wrapped did not interrupt; so taking off one layer is
enough, and what a call gives to its surroundings is plain or an error
(`Value.Readable.unwrapReturn_ne`).  A value is bound only after it did not interrupt,
as an argument is, so the heap stays plain.

* `Evaluates.plain`: what evaluation does to a plain heap, and what it gives.
* `Config.Reaches.plain`: the same wherever the recursion gets to.
* `session_stores_plain`: every point of a session.
-/

namespace ExprScript

/-- Only plain values are bound: integers, truth values, null and functions. -/
def Heap.StoresPlain (h : Heap) : Prop :=
  ∀ env e name v, h.environment? env = some e → e.get? name = some v → v.interrupts = false

theorem Value.readable_of_plain {v : Value} (hv : v.interrupts = false) : v.Readable := by
  cases v with
  | pendingReturn w => simp [interrupts] at hv
  | _ => trivial

/-- One layer is all that there is to take off. -/
theorem Value.Readable.unwrapReturn_ne {v : Value} (hv : v.Readable) :
    v.unwrapReturn.kind ≠ .pendingReturn := by
  cases v with
  | pendingReturn w =>
    cases w with
    | pendingReturn w' => simp [Readable, interrupts] at hv
    | _ => simp [unwrapReturn, kind]
  | _ => simp [unwrapReturn, kind]

theorem Value.Readable.unwrapReturn {v : Value} (hv : v.Readable) : v.unwrapReturn.Readable := by
  cases v with
  | pendingReturn w => exact readable_of_plain hv
  | _ => exact hv

/-! ### Heaps -/

namespace Heap

variable {h : Heap}

theorem StoresPlain.readable (hh : h.StoresPlain) : h.Readable :=
  fun env e name v he hv => Value.readable_of_plain (hh env e name v he hv)

theorem StoresPlain.insert (hh : h.StoresPlain) (env : EnvId) (name : String) {v : Value}
    (hv : v.interrupts = false) : (h.insert env name v).StoresPlain :=
  Stores.insert hh env name hv

theorem StoresPlain.enter (hh : h.StoresPlain) (f : Closure) {args : List Value}
    (ha : ∀ v ∈ args, v.interrupts = false) : (h.enter f args).2.StoresPlain :=
  Stores.enter hh f ha

theorem storesPlain_start : Session.start.heap.StoresPlain :=
  Stores.addGlobal stores_empty

end Heap

/-! ### Tasks -/

/-- What a task has found so far did not interrupt; a value that is handed on may. -/
def Task.Plain : Task → Prop
  | .rightOperand left _ _ => left.interrupts = false
  | .arguments _ done _ => ∀ v ∈ done, v.interrupts = false
  | .apply _ args => ∀ v ∈ args, v.interrupts = false
  | .stmts last _ => last.interrupts = false
  | .store _ v => v.interrupts = false
  | .value v => v.Readable
  | .expr _ | .stmt _ | .program _ => True

/-- A task that is the call of a function with its arguments, or a whole program. -/
def Task.Returns : Task → Prop
  | .arguments _ _ [] => True
  | .apply _ _ => True
  | .program _ => True
  | _ => False

namespace Task

variable {limit : Nat} {c c' : Context} {h h' : Heap} {t t' first : Task} {next : Value → Task}
  {v : Value}

theorem plain_branch (v : Value) (consequence : Block) (alternative : Option Block) :
    (branch v consequence alternative).Plain := by
  unfold branch
  split
  · rfl
  · cases alternative with
    | none => trivial
    | some b => rfl

theorem plain_done (hh : h.StoresPlain) (ht : t.Plain) (hp : t.plan limit c h = .done v h') :
    v.Readable ∧ h'.StoresPlain := by
  rcases plan_done hp with
    ⟨rfl, hv | rfl | rfl⟩ | ⟨parameters, body, -, -, rfl, rfl⟩ | ⟨name, w, rfl, rfl, rfl⟩
  · exact ⟨hv.readable, hh⟩
  · exact ⟨ht, hh⟩
  · exact ⟨Value.readable_of_plain ht, hh⟩
  · exact ⟨trivial, hh⟩
  · exact ⟨trivial, hh.insert c.env name ht⟩

/-- What comes next is done with values that did not interrupt. -/
theorem plain_sequence (ht : t.Plain) (hp : t.plan limit c h = .sequence first next) :
    first.Plain ∧ ∀ v, v.interrupts = false → (next v).Plain := by
  cases splits_of_plan hp with
  | prefixed op operand line => exact ⟨trivial, fun v _ => (op.isResult_apply v).readable⟩
  | infixed left op right line => exact ⟨trivial, fun _ hv => hv⟩
  | conditional condition consequence alternative line =>
    exact ⟨trivial, fun v _ => plain_branch v consequence alternative⟩
  | call callee args line => exact ⟨trivial, fun _ _ => by simp [Plain]⟩
  | rightOperand left op right => exact ⟨trivial, fun v _ => (op.isResult_apply left v).readable⟩
  | argument callee done e es =>
    refine ⟨trivial, fun v hv w hw => ?_⟩
    rcases List.mem_append.mp hw with hw | hw
    · exact ht w hw
    · rwa [List.mem_singleton.mp hw]
  | bind target e line => exact ⟨trivial, fun _ hv => hv⟩
  | ret e line => exact ⟨trivial, fun _ hv => hv⟩
  | exprStmt e line => exact ⟨trivial, fun _ hv => Value.readable_of_plain hv⟩
  | block body => exact ⟨rfl, fun _ hv => Value.readable_of_plain hv⟩
  | statement last s ss => exact ⟨trivial, fun _ hv => hv⟩

theorem plain_enclosed (hh : h.StoresPlain) (ht : t.Plain)
    (hp : t.plan limit c h = .enclosed c' h' t') : h'.StoresPlain ∧ t'.Plain := by
  rcases plan_enclosed hp with ⟨-, rfl, p, -, rfl⟩ | ⟨f, args, hcall, -, -, rfl, rfl⟩
  · exact ⟨hh, rfl⟩
  · have hargs : ∀ v ∈ args, v.interrupts = false := by
      rcases hcall with rfl | rfl
      · exact ht
      · exact ht
    exact ⟨hh.enter f hargs, rfl⟩

/-- A call or a program is done at once with an error, or it is what ends a return. -/
theorem Returns.plan_cases (ht : t.Returns) (limit : Nat) (c : Context) (h : Heap) :
    (∃ e : RuntimeError, t.plan limit c h = .done e.toValue h) ∨
      ∃ c' h' t', t.plan limit c h = .enclosed c' h' t' := by
  have hcall (callee : Value) (args : List Value) :
      (∃ e : RuntimeError, callPlan limit c h callee args = .done e.toValue h) ∨
        ∃ c' h' t', callPlan limit c h callee args = .enclosed c' h' t' := by
    rcases callPlan_cases limit c h callee args with he | ⟨f, -, -, hf⟩
    · exact Or.inl he
    · exact Or.inr ⟨_, _, _, hf⟩
  cases t with
  | arguments callee done todo =>
    cases todo with
    | nil => exact hcall callee done
    | cons e es => exact absurd ht not_false
  | apply callee args => exact hcall callee args
  | program p => exact Or.inr ⟨_, _, _, rfl⟩
  | _ => exact absurd ht not_false

end Task

/-! ### Evaluation -/

section
variable {limit : Nat} {c : Context} {h h' : Heap} {t : Task} {v : Value}

/-- **Evaluation keeps a heap plain**, and a pending return that it gives carries a plain
value. -/
theorem Evaluates.plain (he : Evaluates Heap.Records limit c h t v h') (hh : h.StoresPlain)
    (ht : t.Plain) : v.Readable ∧ h'.StoresPlain := by
  induction he with
  | done hp => exact Task.plain_done hh ht hp
  | read hp hr =>
    rw [← hr]
    exact ⟨hh.readable.valueOf _ _, hh⟩
  | stop hp _ _ ih => exact ih hh (Task.plain_sequence ht hp).1
  | next hp _ hi _ ih₁ ih₂ =>
    obtain ⟨hfirst, hnext⟩ := Task.plain_sequence ht hp
    exact ih₂ (ih₁ hh hfirst).2 (hnext _ hi)
  | enclosed hp _ ih =>
    obtain ⟨hh₁, hbody⟩ := Task.plain_enclosed hh ht hp
    obtain ⟨hv, hh'⟩ := ih hh₁ hbody
    exact ⟨hv.unwrapReturn, hh'⟩

/-- **No pending return escapes** from a call or a program. -/
theorem Evaluates.ne_pendingReturn (he : Evaluates Heap.Records limit c h t v h')
    (hh : h.StoresPlain) (ht : t.Plain) (hr : t.Returns) : v.kind ≠ .pendingReturn := by
  rcases hr.plan_cases limit c h with ⟨e, hp⟩ | ⟨c', h₁, t', hp⟩
  · obtain ⟨rfl, -⟩ := (evaluates_done_iff hp).mp he
    simp [RuntimeError.toValue, Value.kind]
  · obtain ⟨w, hw, rfl⟩ := (evaluates_enclosed_iff hp).mp he
    obtain ⟨hh₁, hbody⟩ := Task.plain_enclosed hh ht hp
    exact (hw.plain hh₁ hbody).1.unwrapReturn_ne

end

namespace Config

variable {limit : Nat} {x y : Config}

/-- What the evaluator makes of a task: its value, and the heap after it. -/
def outcome (limit : Nat) (x : Config) : Value × Heap :=
  (x.task.run limit x.context).run x.heap

theorem evaluates_outcome (limit : Nat) (x : Config) :
    Evaluates Heap.Records limit x.context x.heap x.task (x.outcome limit).1 (x.outcome limit).2 :=
  evaluates_run limit x.context x.heap x.task

/-- Neither the heap nor the task holds anything that interrupts. -/
structure Plain (x : Config) : Prop where
  heap : x.heap.StoresPlain
  task : x.task.Plain

theorem Needs.plain (hn : x.Needs Heap.Records limit y) (hx : x.Plain) : y.Plain := by
  cases hn with
  | first hp => exact ⟨hx.heap, (Task.plain_sequence hx.task hp).1⟩
  | next hp he hi =>
    obtain ⟨hfirst, hnext⟩ := Task.plain_sequence hx.task hp
    exact ⟨(he.plain hx.heap hfirst).2, hnext _ hi⟩
  | enclosed hp =>
    obtain ⟨hh, ht⟩ := Task.plain_enclosed hx.heap hx.task hp
    exact ⟨hh, ht⟩

theorem Reaches.plain (hr : x.Reaches Heap.Records limit y) (hx : x.Plain) : y.Plain := by
  induction hr with
  | refl => exact hx
  | tail _ hn ih => exact hn.plain ih

end Config

/-! ### Sessions -/

namespace Session

def after (s : Session) (sources : List String) : Session :=
  (s.evaluateAll sources).2

/-- What is evaluated when a session goes on with a text. -/
def config (s : Session) (source : String) : Config :=
  ⟨s.current, s.heap, .program (parse source).program⟩

theorem evaluateSource_of_parse {s : Session} {source : String}
    (hp : (parse source).errors = []) :
    s.evaluateSource source = (.ok ((s.config source).outcome maxCallDepth).1,
      { s with heap := ((s.config source).outcome maxCallDepth).2 }) := by
  have hparse : parse source = ⟨(parse source).program, []⟩ := by
    rw [← hp]
  rw [evaluateSource, run, Context.evaluateSource, hparse]
  rfl

theorem evaluateSource_of_errors {s : Session} {source : String}
    (hp : (parse source).errors ≠ []) :
    s.evaluateSource source = (.error (parse source).errors, s) := by
  have hanswer : s.current.evaluateSource source = pure (.error (parse source).errors) := by
    rw [Context.evaluateSource]
    split
    · next p hparse =>
      rw [hparse] at hp
      exact absurd rfl hp
    · next p errors _ hparse => rw [hparse]
  rw [evaluateSource, run, hanswer]
  rfl

theorem storesPlain_evaluateSource {s : Session} (hs : s.heap.StoresPlain) (source : String) :
    (s.evaluateSource source).2.heap.StoresPlain := by
  by_cases hp : (parse source).errors = []
  · rw [evaluateSource_of_parse hp]
    exact ((s.config source).evaluates_outcome maxCallDepth |>.plain hs trivial).2
  · rw [evaluateSource_of_errors hp]
    exact hs

theorem storesPlain_after {s : Session} (hs : s.heap.StoresPlain) (sources : List String) :
    (s.after sources).heap.StoresPlain := by
  induction sources generalizing s with
  | nil => exact hs
  | cons source sources ih => exact ih (storesPlain_evaluateSource hs source)

end Session

/-- **Only plain values are stored, and no pending return escapes.**  Take a session that
has evaluated any texts and goes on with another one.  What it answers is no pending
return.  Wherever evaluation gets to, and whatever has been evaluated there, only plain
values are bound in the heap; a pending return carries a plain value; and no call gives
one. -/
theorem session_stores_plain (sources : List String) (source : String) :
    (Session.start.after sources).heap.StoresPlain ∧
    (∀ v, ((Session.start.after sources).evaluateSource source).1 = .ok v →
      v.kind ≠ .pendingReturn) ∧
    ∀ y, ((Session.start.after sources).config source).Reaches Heap.Records maxCallDepth y →
      y.heap.StoresPlain ∧ (y.outcome maxCallDepth).2.StoresPlain ∧
      (∀ v, (y.outcome maxCallDepth).1 = .pendingReturn v → v.interrupts = false) ∧
      (y.task.Returns → (y.outcome maxCallDepth).1.kind ≠ .pendingReturn) := by
  have hs : (Session.start.after sources).heap.StoresPlain :=
    Session.storesPlain_after Heap.storesPlain_start sources
  generalize Session.start.after sources = s at hs ⊢
  have hx : (s.config source).Plain := ⟨hs, trivial⟩
  refine ⟨hs, fun v hv => ?_, fun y hr => ?_⟩
  · by_cases hp : (parse source).errors = []
    · rw [Session.evaluateSource_of_parse hp] at hv
      obtain rfl := Except.ok.inj hv
      exact ((s.config source).evaluates_outcome maxCallDepth).ne_pendingReturn hs trivial trivial
    · rw [Session.evaluateSource_of_errors hp] at hv
      simp at hv
  · have hy := hr.plain hx
    have he := y.evaluates_outcome maxCallDepth
    obtain ⟨hv, hh⟩ := he.plain hy.heap hy.task
    refine ⟨hy.heap, hh, fun v hret => ?_, he.ne_pendingReturn hy.heap hy.task⟩
    rw [hret] at hv
    exact hv

end ExprScript
