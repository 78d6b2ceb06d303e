import ExprScript.Proofs.Evaluation.Plain
import ExprScript.Value.Text

/-!
# Where the call limit shows

A call that would go deeper than the limit allows is refused with an error.  No construct
of the language takes an error for anything but an interruption: it is handed up by every
node and by every call around it, so an error that comes up anywhere is the outcome of the
whole (`Config.Reaches.raises`).  What is planned depends on the limit only where a call is
refused (`Task.plan_of_le`).  So two limits make a difference only if the lower one is in
the outcome.

* `Evaluates.of_le`: an outcome that is not the error of the limit is the outcome for every
  higher limit.
* `Config.Reaches.refused`: a refused call is the outcome of the whole.
* `Config.refuses_iff`: whether the next thing to do is such a call can be computed.
* `call_limit_is_transparent`: both for programs.
-/

namespace ExprScript

abbrev Value.tooDeep (limit : Nat) : Value :=
  (RuntimeError.recursionLimitExceeded limit).toValue

namespace Task

variable {limit limit' : Nat} {c : Context} {h : Heap}

theorem callPlan_of_le (hle : limit ≤ limit') (c : Context) (h : Heap) (callee : Value)
    (args : List Value) :
    callPlan limit c h callee args = .done (.tooDeep limit) h ∨
      callPlan limit' c h callee args = callPlan limit c h callee args := by
  rw [callPlan, callPlan]
  cases callee.callable args with
  | error e => exact Or.inr rfl
  | ok f =>
    dsimp only
    by_cases hd : c.depth < limit
    · rw [if_pos hd, if_pos (Nat.lt_of_lt_of_le hd hle)]
      exact Or.inr rfl
    · rw [if_neg hd]
      exact Or.inl rfl

/-- **A task is planned in the same way with a higher limit**, unless it is refused. -/
theorem plan_of_le (hle : limit ≤ limit') (c : Context) (h : Heap) (t : Task) :
    t.plan limit c h = .done (.tooDeep limit) h ∨ t.plan limit' c h = t.plan limit c h := by
  cases t with
  | expr e => cases e <;> exact Or.inr rfl
  | arguments callee done todo =>
    cases todo with
    | nil => exact callPlan_of_le hle c h callee done
    | cons e es => exact Or.inr rfl
  | apply callee args => exact callPlan_of_le hle c h callee args
  | stmt s => cases s <;> exact Or.inr rfl
  | stmts last ss => cases ss <;> exact Or.inr rfl
  | _ => exact Or.inr rfl

def call? : Task → Option (Value × List Value)
  | .apply callee args => some (callee, args)
  | .arguments callee args [] => some (callee, args)
  | _ => none

theorem call?_eq_some {t : Task} {callee : Value} {args : List Value} :
    t.call? = some (callee, args) ↔ t = .apply callee args ∨ t = .arguments callee args [] := by
  cases t with
  | arguments f done todo => cases todo <;> simp [call?]
  | apply f done => simp [call?]
  | _ => simp [call?]

end Task

section
variable {reads : Reading} {limit limit' : Nat} {c : Context} {h h' : Heap} {t : Task} {v : Value}

/-- **An outcome that is not the error of the limit is the outcome for every higher limit.** -/
theorem Evaluates.of_le (he : Evaluates reads limit c h t v h') (hle : limit ≤ limit')
    (hv : v ≠ .tooDeep limit) : Evaluates reads limit' c h t v h' := by
  -- a task that is planned to have another outcome is not refused
  have planned {c : Context} {h : Heap} {t : Task} {p : Plan} (hp : t.plan limit c h = p)
      (hne : p ≠ .done (.tooDeep limit) h) : t.plan limit' c h = p := by
    rcases Task.plan_of_le hle c h t with hr | heq
    · exact absurd (hp.symm.trans hr) hne
    · exact heq.trans hp
  -- its parts have other outcomes than that error, which would have been handed up from them
  induction he with
  | done hp => exact .done (planned hp fun heq => hv (Plan.done.inj heq).1)
  | read hp hr => exact .read (planned hp nofun) hr
  | stop hp _ hi ih => exact .stop (planned hp nofun) (ih hv) hi
  | next hp _ hi _ ih₁ ih₂ =>
    refine .next (planned hp nofun) (ih₁ fun heq => ?_) hi (ih₂ hv)
    rw [heq] at hi
    exact absurd hi nofun
  | enclosed hp _ ih =>
    refine .enclosed (planned hp nofun) (ih fun heq => hv ?_)
    rw [heq]
    rfl

end

namespace Config

variable {reads : Reading} {limit : Nat} {x y : Config}

def Raises (reads : Reading) (limit : Nat) (x : Config) (message : String) : Prop :=
  ∃ h, Evaluates reads limit x.context x.heap x.task (.error message) h

theorem Needs.raises {message : String} (hn : x.Needs reads limit y)
    (hy : y.Raises reads limit message) : x.Raises reads limit message := by
  obtain ⟨h, he⟩ := hy
  cases hn with
  | first hp => exact ⟨h, .stop hp he rfl⟩
  | next hp hfirst hi => exact ⟨h, .next hp hfirst hi he⟩
  | enclosed hp => exact ⟨h, .enclosed hp he⟩

/-- **An error that comes up anywhere is the outcome of the whole.** -/
theorem Reaches.raises {message : String} (hr : x.Reaches reads limit y)
    (hy : y.Raises reads limit message) : x.Raises reads limit message := by
  induction hr with
  | refl => exact hy
  | tail _ hn ih => exact ih (hn.raises hy)

/-- A call that is refused: it is one of a function, with as many arguments as this takes,
but there are as many calls around it as the limit allows. -/
structure Refused (limit : Nat) (x : Config) (callee : Value) (args : List Value) : Prop where
  task : x.task = .apply callee args ∨ x.task = .arguments callee args []
  callable : ∃ f, callee.callable args = .ok f
  depth : limit ≤ x.context.depth

theorem Refused.plan_eq {callee : Value} {args : List Value} (hx : x.Refused limit callee args) :
    x.task.plan limit x.context x.heap = .done (.tooDeep limit) x.heap := by
  obtain ⟨f, hf⟩ := hx.callable
  have hcall : Task.callPlan limit x.context x.heap callee args =
      .done (.tooDeep limit) x.heap := by
    rw [Task.callPlan, hf]
    dsimp only
    rw [if_neg (Nat.not_lt.mpr hx.depth)]
  rcases hx.task with ht | ht
  · rw [ht]
    exact hcall
  · rw [ht]
    exact hcall

/-- Whether what is to be done next is a call that is refused. -/
def refuses (limit : Nat) (x : Config) : Bool :=
  match x.task.call? with
  | some (callee, args) => (callee.callable args).isOk && decide (limit ≤ x.context.depth)
  | none => false

theorem refuses_iff : x.refuses limit = true ↔ ∃ callee args, x.Refused limit callee args := by
  rw [refuses]
  constructor
  · intro hx
    cases hc : x.task.call? with
    | none => simp [hc] at hx
    | some call =>
      obtain ⟨callee, args⟩ := call
      simp only [hc, Bool.and_eq_true, decide_eq_true_eq] at hx
      refine ⟨callee, args, Task.call?_eq_some.mp hc, ?_, hx.2⟩
      cases hf : callee.callable args with
      | error e => simp [hf, Except.isOk, Except.toBool] at hx
      | ok f => exact ⟨f, rfl⟩
  · rintro ⟨callee, args, ht, ⟨f, hf⟩, hd⟩
    simp [Task.call?_eq_some.mpr ht, hf, hd, Except.isOk, Except.toBool]

theorem Reaches.depth_eq {callee : Value} {args : List Value} (hr : x.Reaches reads limit y)
    (hy : y.Refused limit callee args) (hx : x.context.depth ≤ limit) :
    y.context.depth = limit := by
  refine Nat.le_antisymm ?_ hy.depth
  rcases hr.depth_le with hc | ⟨-, hd⟩
  · rw [hc]
    exact hx
  · exact hd

/-- A refused call is the outcome of the whole. -/
theorem Reaches.refused {callee : Value} {args : List Value}
    (hr : x.Reaches Heap.Records limit y) (hy : y.Refused limit callee args) :
    (x.outcome limit).1 = .tooDeep limit := by
  obtain ⟨h, he⟩ := hr.raises ⟨y.heap, .done hy.plan_eq⟩
  exact congrArg Prod.fst he.eq_run

end Config

/-- **The call limit is transparent**, whatever is bound in the heap.  If the outcome of a
program is not the error of the limit, then the value and the heap are the same with every
higher limit; and if a call is refused anywhere on the way, then the outcome is exactly that
error. -/
theorem call_limit_is_transparent {limit limit' : Nat} (hle : limit ≤ limit') (c : Context)
    (h : Heap) (p : Program) :
    (((c.evalProgramWithin limit p).run h).1 ≠ .tooDeep limit →
      (c.evalProgramWithin limit' p).run h = (c.evalProgramWithin limit p).run h) ∧
    ∀ y callee args, (⟨c, h, .program p⟩ : Config).Reaches Heap.Records limit y →
      y.Refused limit callee args → ((c.evalProgramWithin limit p).run h).1 = .tooDeep limit := by
  refine ⟨fun hv => ?_, fun y callee args hr hy => hr.refused hy⟩
  exact ((evaluates_run limit c h (.program p)).of_le hle hv).eq_run

/-- Counting down from two takes three calls inside each other: with a limit of two the third
one is reached and refused, and all limits from three on give the same. -/
theorem call_limit_is_transparent_countdown :
    let source := "let f = fn(n) \x7b if (n == 0) \x7b 7 \x7d else \x7b f(n - 1) \x7d \x7d; f(2)"
    let p := (parse source).program
    let h := Heap.empty.addGlobal.2
    let run := fun limit => ((Context.ofEnv ⟨0⟩).evalProgramWithin limit p).run h
    (run 2).1.text = "maximum recursion depth exceeded: limit=2" ∧ (run 3).1.text = "7" ∧
      3 ≤ maxCallDepth ∧ run maxCallDepth = run 3 ∧
      ∃ y callee args, (⟨.ofEnv ⟨0⟩, h, .program p⟩ : Config).Reaches Heap.Records 2 y ∧
        y.Refused 2 callee args ∧ y.context.depth = 2 ∧ (run 2).1 = .tooDeep 2 := by
  intro source p h run
  have h2 : (run 2).1.text = "maximum recursion depth exceeded: limit=2" := by decide +kernel
  have h3 : (run 3).1.text = "7" := by decide +kernel
  have hle : 3 ≤ maxCallDepth := by decide
  refine ⟨h2, h3, hle, ?_, ?_⟩
  · refine (call_limit_is_transparent hle (.ofEnv ⟨0⟩) h p).1 fun heq => ?_
    have htext := congrArg Value.text heq
    exact absurd (htext.symm.trans h3) (by decide)
  · -- from the last turn back: both bodies to the call in them, then the program to the first call
    let body := [1, 1, 0, 0, 1, 0, 0]
    have hwalk : ((⟨.ofEnv ⟨0⟩, h, .program p⟩ : Config).walk 2
        (body ++ 0 :: body ++ 0 :: [1, 1, 0, 0, 1, 0])).any (Config.refuses 2) = true := by
      decide +kernel
    obtain ⟨y, hy, hrefuses⟩ := (Option.any_eq_true _ _).mp hwalk
    obtain ⟨callee, args, hrefused⟩ := Config.refuses_iff.mp hrefuses
    have hreach := Config.reaches_iff_walk.mpr ⟨_, hy⟩
    have hdepth : y.context.depth = 2 := hreach.depth_eq hrefused (Nat.zero_le 2)
    refine ⟨y, callee, args, hreach, hrefused, hdepth, ?_⟩
    exact (call_limit_is_transparent (Nat.le_succ 2) (.ofEnv ⟨0⟩) h p).2 y callee args
      hreach hrefused

end ExprScript
