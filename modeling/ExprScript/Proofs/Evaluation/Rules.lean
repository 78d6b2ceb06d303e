import ExprScript.Proofs.Evaluation.Plan

/-!
# The rules of evaluation

`Evaluates reads limit c h t v h'` says that, by the rules, the task `t` has the
value `v` and leaves the heap `h'`.  A derivation is a finite tree, so what is
derived is reached after finitely many steps.  How a name is read is left open
(`reads`): there is more than one way to describe it.

`Config.Needs` is the recursion behind the rules: what has to be evaluated for a
task to be evaluated.  It is well-founded, since the only thing that is not smaller
than the task it is needed for is the body of a function, and that is one call
deeper (`Config.needs_wellFounded`).  So evaluation is an induction along it, and
no bound on the number of steps is put in from outside.

* `Evaluates.unique`: there is at most one outcome.
* `exists_evaluates`: there is an outcome, if names can be read.
* `Evaluates.run_eq`: the outcome is that of the evaluator, if names are read as it
  reads them.
* `evaluates_run`: the evaluator obeys the rules.
* `Config.reaches_iff_walk`: how far the recursion goes can be followed by computation.
-/

namespace ExprScript

abbrev Reading := Heap → EnvId → String → Value → Prop

/-- The outcome of a task by the rules. -/
inductive Evaluates (reads : Reading) (limit : Nat) : Context → Heap → Task → Value → Heap → Prop where
  | done {c : Context} {h h' : Heap} {t : Task} {v : Value} :
      t.plan limit c h = .done v h' → Evaluates reads limit c h t v h'
  | read {c : Context} {h : Heap} {t : Task} {name : String} {v : Value} :
      t.plan limit c h = .read name → reads h c.env name v → Evaluates reads limit c h t v h
  /-- An interruption of the first part is the outcome. -/
  | stop {c : Context} {h h' : Heap} {t first : Task} {next : Value → Task} {v : Value} :
      t.plan limit c h = .sequence first next → Evaluates reads limit c h first v h' →
      v.interrupts = true → Evaluates reads limit c h t v h'
  | next {c : Context} {h h₁ h' : Heap} {t first : Task} {next : Value → Task} {v w : Value} :
      t.plan limit c h = .sequence first next → Evaluates reads limit c h first v h₁ →
      v.interrupts = false → Evaluates reads limit c h₁ (next v) w h' →
      Evaluates reads limit c h t w h'
  | enclosed {c c' : Context} {h h₁ h' : Heap} {t t' : Task} {v : Value} :
      t.plan limit c h = .enclosed c' h₁ t' → Evaluates reads limit c' h₁ t' v h' →
      Evaluates reads limit c h t v.unwrapReturn h'

/-- Reading names along the recorded chain of environments, as the evaluator does. -/
def Heap.Records : Reading :=
  fun h env name v => h.valueOf env name = v

section
variable {reads : Reading} {limit : Nat} {c c' : Context} {h h' h₁ h₂ : Heap} {t t' first : Task}
  {next : Value → Task} {name : String} {v w : Value}

/-! ### Outcomes by the plan of a task -/

theorem evaluates_done_iff (hp : t.plan limit c h = .done v h₁) :
    Evaluates reads limit c h t w h' ↔ v = w ∧ h₁ = h' := by
  refine ⟨fun he => ?_, ?_⟩
  · cases he with
    | done hq => exact Plan.done.inj (hp.symm.trans hq)
    | read hq _ => simp [hp] at hq
    | stop hq _ _ => simp [hp] at hq
    | next hq _ _ _ => simp [hp] at hq
    | enclosed hq _ => simp [hp] at hq
  · rintro ⟨rfl, rfl⟩
    exact .done hp

theorem evaluates_read_iff (hp : t.plan limit c h = .read name) :
    Evaluates reads limit c h t w h' ↔ reads h c.env name w ∧ h = h' := by
  refine ⟨fun he => ?_, ?_⟩
  · cases he with
    | done hq => simp [hp] at hq
    | read hq hr =>
      obtain rfl := Plan.read.inj (hp.symm.trans hq)
      exact ⟨hr, rfl⟩
    | stop hq _ _ => simp [hp] at hq
    | next hq _ _ _ => simp [hp] at hq
    | enclosed hq _ => simp [hp] at hq
  · rintro ⟨hr, rfl⟩
    exact .read hp hr

theorem evaluates_sequence_iff (hp : t.plan limit c h = .sequence first next) :
    Evaluates reads limit c h t w h' ↔ ∃ v h₁, Evaluates reads limit c h first v h₁ ∧
      ((v.interrupts = true ∧ v = w ∧ h₁ = h') ∨
        (v.interrupts = false ∧ Evaluates reads limit c h₁ (next v) w h')) := by
  refine ⟨fun he => ?_, ?_⟩
  · cases he with
    | done hq => simp [hp] at hq
    | read hq _ => simp [hp] at hq
    | stop hq he hi =>
      obtain ⟨rfl, rfl⟩ := Plan.sequence.inj (hp.symm.trans hq)
      exact ⟨_, _, he, Or.inl ⟨hi, rfl, rfl⟩⟩
    | next hq he hi hn =>
      obtain ⟨rfl, rfl⟩ := Plan.sequence.inj (hp.symm.trans hq)
      exact ⟨_, _, he, Or.inr ⟨hi, hn⟩⟩
    | enclosed hq _ => simp [hp] at hq
  · rintro ⟨v, h₁, he, ⟨hi, rfl, rfl⟩ | ⟨hi, hn⟩⟩
    · exact .stop hp he hi
    · exact .next hp he hi hn

theorem evaluates_enclosed_iff (hp : t.plan limit c h = .enclosed c' h₁ t') :
    Evaluates reads limit c h t w h' ↔
      ∃ v, Evaluates reads limit c' h₁ t' v h' ∧ v.unwrapReturn = w := by
  refine ⟨fun he => ?_, ?_⟩
  · cases he with
    | done hq => simp [hp] at hq
    | read hq _ => simp [hp] at hq
    | stop hq _ _ => simp [hp] at hq
    | next hq _ _ _ => simp [hp] at hq
    | enclosed hq he =>
      obtain ⟨rfl, rfl, rfl⟩ := Plan.enclosed.inj (hp.symm.trans hq)
      exact ⟨_, he, rfl⟩
  · rintro ⟨v, he, rfl⟩
    exact .enclosed hp he

/-- **There is at most one outcome.** -/
theorem Evaluates.unique
    (hf : ∀ h env name v w, reads h env name v → reads h env name w → v = w)
    (hv : Evaluates reads limit c h t v h₁) (hw : Evaluates reads limit c h t w h₂) :
    v = w ∧ h₁ = h₂ := by
  induction hv generalizing w h₂ with
  | done hp => exact (evaluates_done_iff hp).mp hw
  | read hp hr =>
    obtain ⟨hr', rfl⟩ := (evaluates_read_iff hp).mp hw
    exact ⟨hf _ _ _ _ _ hr hr', rfl⟩
  | stop hp _ hi ih =>
    obtain ⟨u, h₃, he, ⟨hi', rfl, rfl⟩ | ⟨hi', -⟩⟩ := (evaluates_sequence_iff hp).mp hw
    · exact ih he
    · obtain ⟨rfl, -⟩ := ih he
      simp [hi] at hi'
  | next hp _ hi _ ih₁ ih₂ =>
    obtain ⟨u, h₃, he, ⟨hi', -, -⟩ | ⟨hi', hn⟩⟩ := (evaluates_sequence_iff hp).mp hw
    · obtain ⟨rfl, -⟩ := ih₁ he
      simp [hi] at hi'
    · obtain ⟨rfl, rfl⟩ := ih₁ he
      exact ih₂ hn
  | enclosed hp _ ih =>
    obtain ⟨u, he, rfl⟩ := (evaluates_enclosed_iff hp).mp hw
    obtain ⟨rfl, rfl⟩ := ih he
    exact ⟨rfl, rfl⟩

end

/-! ### The recursion -/

/-- What is to be evaluated: a task in a context and a heap. -/
structure Config where
  context : Context
  heap : Heap
  task : Task

namespace Config

/-- What has to be evaluated for something to be evaluated. -/
inductive Needs (reads : Reading) (limit : Nat) : Config → Config → Prop where
  | first {c : Context} {h : Heap} {t first : Task} {next : Value → Task} :
      t.plan limit c h = .sequence first next → Needs reads limit ⟨c, h, t⟩ ⟨c, h, first⟩
  | next {c : Context} {h h' : Heap} {t first : Task} {next : Value → Task} {v : Value} :
      t.plan limit c h = .sequence first next → Evaluates reads limit c h first v h' →
      v.interrupts = false → Needs reads limit ⟨c, h, t⟩ ⟨c, h', next v⟩
  | enclosed {c c' : Context} {h h' : Heap} {t t' : Task} :
      t.plan limit c h = .enclosed c' h' t' → Needs reads limit ⟨c, h, t⟩ ⟨c', h', t'⟩

variable {reads : Reading} {limit : Nat} {x y : Config}

/-- The calls that may still be inside each other, and what is left of the tree. -/
noncomputable def measure (limit : Nat) (x : Config) : Nat × Nat :=
  (limit - x.context.depth, x.task.size)

/-- What is needed is in the same context and smaller, or one call deeper. -/
theorem Needs.cases (h : Needs reads limit x y) :
    (y.context = x.context ∧ y.task.size < x.task.size) ∨
      (x.context.depth < limit ∧ y.context.depth = x.context.depth + 1) := by
  cases h with
  | first hp => exact Or.inl ⟨rfl, (Task.plan_sequence hp).1⟩
  | next hp _ _ => exact Or.inl ⟨rfl, (Task.plan_sequence hp).2 _⟩
  | enclosed hp =>
    rcases Task.plan_enclosed hp with ⟨rfl, -, p, rfl, rfl⟩ | ⟨f, args, -, hd, rfl, -, -⟩
    · exact Or.inl ⟨rfl, Nat.lt_succ_self _⟩
    · exact Or.inr ⟨hd, rfl⟩

/-- **The recursion behind the rules is well-founded.** -/
theorem needs_wellFounded (reads : Reading) (limit : Nat) :
    WellFounded fun y x => Needs reads limit x y := by
  have hwf := InvImage.wf (measure limit) (Prod.lex Nat.lt_wfRel Nat.lt_wfRel).wf
  refine Subrelation.wf (fun {y x} h => ?_) hwf
  show Prod.Lex _ _ (limit - y.context.depth, y.task.size) (limit - x.context.depth, x.task.size)
  rcases h.cases with ⟨hc, hs⟩ | ⟨hl, hd⟩
  · rw [hc]
    exact .right _ hs
  · exact .left _ _ (show limit - y.context.depth < limit - x.context.depth by omega)

/-- What the recursion gets to, however far it goes. -/
inductive Reaches (reads : Reading) (limit : Nat) (x : Config) : Config → Prop where
  | refl : Reaches reads limit x x
  | tail {y z : Config} :
      Reaches reads limit x y → Needs reads limit y z → Reaches reads limit x z

/-- No body is evaluated deeper than the limit allows. -/
theorem Reaches.depth_le (h : Reaches reads limit x y) :
    y.context = x.context ∨ (x.context.depth < y.context.depth ∧ y.context.depth ≤ limit) := by
  induction h with
  | refl => exact Or.inl rfl
  | tail _ hn ih =>
    rcases hn.cases with ⟨hc, -⟩ | ⟨hl, hd⟩
    · rw [hc]
      exact ih
    · rcases ih with hc | ih
      · rw [hc] at hl hd
        omega
      · omega

end Config

section
variable {reads : Reading} {limit : Nat} {P : Config → Prop} {x : Config}

/-- **There is an outcome**, if names can be read wherever the recursion gets to. -/
theorem exists_evaluates (hP : ∀ x y, P x → x.Needs reads limit y → P y)
    (hr : ∀ x name, P x → ∃ v, reads x.heap x.context.env name v) (hx : P x) :
    ∃ v h', Evaluates reads limit x.context x.heap x.task v h' := by
  induction x using (Config.needs_wellFounded reads limit).induction with
  | h x ih =>
    obtain ⟨c, h, t⟩ := x
    show ∃ v h', Evaluates reads limit c h t v h'
    cases hp : t.plan limit c h with
    | done v h' => exact ⟨v, h', .done hp⟩
    | read name =>
      obtain ⟨v, hv⟩ := hr _ name hx
      exact ⟨v, h, .read hp hv⟩
    | sequence first next =>
      have hfirst : Config.Needs reads limit ⟨c, h, t⟩ ⟨c, h, first⟩ := .first hp
      obtain ⟨v, h₁, he⟩ := ih _ hfirst (hP _ _ hx hfirst)
      cases hi : v.interrupts with
      | true => exact ⟨v, h₁, .stop hp he hi⟩
      | false =>
        have hnext := Config.Needs.next hp he hi
        obtain ⟨w, h', hw⟩ := ih _ hnext (hP _ _ hx hnext)
        exact ⟨w, h', .next hp he hi hw⟩
    | enclosed c' h₁ t' =>
      have hbody : Config.Needs reads limit ⟨c, h, t⟩ ⟨c', h₁, t'⟩ := .enclosed hp
      obtain ⟨v, h', he⟩ := ih _ hbody (hP _ _ hx hbody)
      exact ⟨v.unwrapReturn, h', .enclosed hp he⟩

/-- **The outcome is that of the evaluator**, if names are read as it reads them
wherever the recursion gets to. -/
theorem Evaluates.run_eq (hP : ∀ x y, P x → x.Needs reads limit y → P y)
    (hr : ∀ x name v, P x → reads x.heap x.context.env name v → x.heap.valueOf x.context.env name = v)
    {c : Context} {h h' : Heap} {t : Task} {v : Value}
    (he : Evaluates reads limit c h t v h') (hx : P ⟨c, h, t⟩) :
    (t.run limit c).run h = (v, h') := by
  -- `P` holds of each part, since the part is needed for the whole
  induction he with
  | done hp => rw [Task.run_eq, hp, Task.follow]
  | read hp hv => rw [Task.run_eq, hp, Task.follow, hr _ _ _ hx hv]
  | stop hp _ hi ih =>
    rw [Task.run_eq, hp, Task.follow, ih (hP _ _ hx (.first hp))]
    exact if_pos hi
  | next hp he hi _ ih₁ ih₂ =>
    rw [Task.run_eq, hp, Task.follow, ih₁ (hP _ _ hx (.first hp))]
    simp only [hi, Bool.false_eq_true, if_false]
    exact ih₂ (hP _ _ hx (.next hp he hi))
  | enclosed hp _ ih => rw [Task.run_eq, hp, Task.follow, ih (hP _ _ hx (.enclosed hp))]

end

/-- What is derived by the rules is what the evaluator does. -/
theorem Evaluates.eq_run {limit : Nat} {c : Context} {h h' : Heap} {t : Task} {v : Value}
    (he : Evaluates Heap.Records limit c h t v h') : (t.run limit c).run h = (v, h') :=
  he.run_eq (P := fun _ => True) (fun _ _ _ _ => trivial) (fun _ _ _ _ hv => hv) trivial

/-- **The evaluator obeys the rules.** -/
theorem evaluates_run (limit : Nat) (c : Context) (h : Heap) (t : Task) :
    Evaluates Heap.Records limit c h t ((t.run limit c).run h).1 ((t.run limit c).run h).2 := by
  have hr (x : Config) (name : String) (_ : True) :
      ∃ v, Heap.Records x.heap x.context.env name v := ⟨_, rfl⟩
  obtain ⟨v, h', he⟩ := exists_evaluates (P := fun _ => True) (x := ⟨c, h, t⟩)
    (fun _ _ _ _ => trivial) hr trivial
  rw [he.eq_run]
  exact he

/-! ### Walking along the recursion -/

namespace Config

variable {limit : Nat} {x y : Config}

/-- All that is needed next, as the evaluator comes to it. -/
def parts (limit : Nat) (x : Config) : List Config :=
  match x.task.plan limit x.context x.heap with
  | .sequence first next =>
    let r := (first.run limit x.context).run x.heap
    ⟨x.context, x.heap, first⟩ :: if r.1.interrupts then [] else [⟨x.context, r.2, next r.1⟩]
  | .enclosed c h t => [⟨c, h, t⟩]
  | _ => []

theorem needs_iff_mem_parts : x.Needs Heap.Records limit y ↔ y ∈ x.parts limit := by
  obtain ⟨c, h, t⟩ := x
  rw [parts]
  constructor
  · intro hn
    cases hn with
    | first hp =>
      simp only [hp]
      exact List.mem_cons_self
    | next hp he hi =>
      simp only [hp, he.eq_run, hi, Bool.false_eq_true, if_false]
      exact List.mem_cons_of_mem _ List.mem_cons_self
    | enclosed hp =>
      simp only [hp]
      exact List.mem_cons_self
  · intro hy
    dsimp only at hy
    cases hp : t.plan limit c h with
    | done v h' => simp [hp] at hy
    | read name => simp [hp] at hy
    | sequence first next =>
      simp only [hp, List.mem_cons] at hy
      rcases hy with rfl | hy
      · exact .first hp
      · cases hi : ((first.run limit c).run h).1.interrupts with
        | true => simp [hi] at hy
        | false =>
          simp only [hi, Bool.false_eq_true, if_false, List.mem_singleton] at hy
          rw [hy]
          exact .next hp (evaluates_run limit c h first) hi
    | enclosed c' h' t' =>
      simp only [hp, List.mem_singleton] at hy
      rw [hy]
      exact .enclosed hp

/-- Where some turns lead, the last of them first. -/
def walk (limit : Nat) (x : Config) : List Nat → Option Config
  | [] => some x
  | i :: turns => (x.walk limit turns).bind fun y => (y.parts limit)[i]?

/-- **What the recursion gets to is found by walking.** -/
theorem reaches_iff_walk :
    x.Reaches Heap.Records limit y ↔ ∃ turns, x.walk limit turns = some y := by
  constructor
  · intro hr
    induction hr with
    | refl => exact ⟨[], rfl⟩
    | tail _ hn ih =>
      obtain ⟨turns, hw⟩ := ih
      obtain ⟨i, hi⟩ := List.getElem?_of_mem (needs_iff_mem_parts.mp hn)
      refine ⟨i :: turns, ?_⟩
      rw [walk, hw]
      exact hi
  · rintro ⟨turns, hw⟩
    induction turns generalizing y with
    | nil =>
      obtain rfl := Option.some.inj hw
      exact .refl
    | cons i turns ih =>
      obtain ⟨z, hz, hi⟩ := Option.bind_eq_some_iff.mp hw
      exact .tail (ih hz) (needs_iff_mem_parts.mpr (List.mem_of_getElem? hi))

end Config

end ExprScript
