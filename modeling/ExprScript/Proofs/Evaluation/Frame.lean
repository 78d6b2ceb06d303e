import ExprScript.Proofs.Evaluation.Rules

/-!
# What evaluation leaves alone

A tree is evaluated in one environment, and of those that are there before it
changes no other: not their bindings and not the environments around them
(`Heap.ChangesOnly`).  In its own environment names may be bound anew, but none is
lost (`Environment.ExtendedBy`).  A call changes none at all (`Heap.Unchanged`),
since the environment of its body is made for it.

The environments that are there grow in number while this is proved.  What a call
needs of its body is that only the environment of the call is changed by it, and
this one is not among those that were there before (`Heap.unchanged_of_enter`).

* `Evaluates.changesOnly`: the frame of every task.
* `evaluation_changes_only`: calls and trees.
-/

namespace ExprScript

/-- The environments around are the same, and no name is lost. -/
structure Environment.ExtendedBy (e e' : Environment) : Prop where
  enclosing : e'.enclosing = e.enclosing
  names : ∀ name, (e.get? name).isSome → (e'.get? name).isSome

theorem Environment.ExtendedBy.refl (e : Environment) : e.ExtendedBy e :=
  ⟨rfl, fun _ hn => hn⟩

theorem Environment.ExtendedBy.trans {e₁ e₂ e₃ : Environment} (h : e₁.ExtendedBy e₂)
    (h' : e₂.ExtendedBy e₃) : e₁.ExtendedBy e₃ :=
  ⟨h'.enclosing.trans h.enclosing, fun name hn => h'.names name (h.names name hn)⟩

theorem Environment.extendedBy_insert (e : Environment) (name : String) (v : Value) :
    e.ExtendedBy (e.insert name v) := by
  refine ⟨rfl, fun other hn => ?_⟩
  by_cases ho : other = name
  · rw [ho, get?_insert_self]
    rfl
  · rwa [get?_insert_of_ne e ho]

namespace Heap

/-- All environments of the first heap are in the second one as they were. -/
def Unchanged (h h' : Heap) : Prop :=
  ∀ env e, h.environment? env = some e → h'.environment? env = some e

/-- All but one environment of the first heap are in the second one as they were, and
that one has lost no name. -/
structure ChangesOnly (env : EnvId) (h h' : Heap) : Prop where
  others : ∀ other e, other ≠ env → h.environment? other = some e → h'.environment? other = some e
  own : ∀ e, h.environment? env = some e → ∃ e', h'.environment? env = some e' ∧ e.ExtendedBy e'

variable {h h₁ h₂ h₃ h' : Heap} {env : EnvId}

theorem ChangesOnly.refl (env : EnvId) (h : Heap) : h.ChangesOnly env h :=
  ⟨fun _ _ _ he => he, fun e he => ⟨e, he, .refl e⟩⟩

theorem ChangesOnly.trans (h₁₂ : h₁.ChangesOnly env h₂) (h₂₃ : h₂.ChangesOnly env h₃) :
    h₁.ChangesOnly env h₃ := by
  refine ⟨fun other e hne he => h₂₃.others other e hne (h₁₂.others other e hne he), ?_⟩
  intro e he
  obtain ⟨e₂, he₂, hx⟩ := h₁₂.own e he
  obtain ⟨e₃, he₃, hx'⟩ := h₂₃.own e₂ he₂
  exact ⟨e₃, he₃, hx.trans hx'⟩

theorem Unchanged.changesOnly (hu : h.Unchanged h') (env : EnvId) : h.ChangesOnly env h' :=
  ⟨fun other e _ he => hu other e he, fun e he => ⟨e, hu env e he, .refl e⟩⟩

theorem changesOnly_insert (h : Heap) (env : EnvId) (name : String) (v : Value) :
    h.ChangesOnly env (h.insert env name v) := by
  refine ⟨fun other e hne he => ?_, fun e he => ?_⟩
  · rw [environment?_insert_of_ne h hne, he]
  · refine ⟨e.insert name v, ?_, e.extendedBy_insert name v⟩
    rw [environment?_insert_self, he]
    rfl

theorem unchanged_addClosure (h : Heap) (parameters : List Identifier) (body : Block)
    (env : EnvId) : h.Unchanged (h.addClosure parameters body env).2 := by
  intro other e he
  rwa [environment?_addClosure]

/-- The environment of a call is none of those that are there. -/
theorem ne_enter {e : Environment} (he : h.environment? env = some e) (f : Closure)
    (args : List Value) : env ≠ (h.enter f args).1 := by
  intro hn
  have hlt : env.index < h.environments.size := (Array.getElem?_eq_some_iff.mp he).1
  rw [hn] at hlt
  exact absurd hlt (Nat.lt_irrefl _)

/-- What changes only the environment of a call changes none that was there. -/
theorem unchanged_of_enter {f : Closure} {args : List Value}
    (hc : (h.enter f args).2.ChangesOnly (h.enter f args).1 h') : h.Unchanged h' := by
  intro env e he
  exact hc.others env e (ne_enter he f args) (environment?_add_of_some he _)

end Heap

section
variable {reads : Reading} {limit : Nat} {c : Context} {h h' : Heap} {v : Value}

/-- **Only the environment that a task is done in is changed.** -/
theorem Evaluates.changesOnly {t : Task} (he : Evaluates reads limit c h t v h') :
    h.ChangesOnly c.env h' := by
  induction he with
  | @done c h h' t v hp =>
    rcases Task.plan_done hp with
      ⟨rfl, -⟩ | ⟨parameters, body, -, -, -, rfl⟩ | ⟨name, w, -, -, rfl⟩
    · exact .refl _ _
    · exact (h.unchanged_addClosure parameters body c.env).changesOnly c.env
    · exact h.changesOnly_insert c.env name w
  | read _ _ => exact .refl _ _
  | stop _ _ _ ih => exact ih
  | next _ _ _ _ ih₁ ih₂ => exact ih₁.trans ih₂
  | @enclosed c c' h h₁ h' t t' v hp _ ih =>
    rcases Task.plan_enclosed hp with ⟨rfl, rfl, -⟩ | ⟨f, args, -, -, rfl, rfl, -⟩
    · exact ih
    · exact (Heap.unchanged_of_enter ih).changesOnly c.env

theorem Evaluates.unchanged {callee : Value} {args : List Value}
    (he : Evaluates reads limit c h (.apply callee args) v h') : h.Unchanged h' := by
  have hplan : (Task.apply callee args).plan limit c h = Task.callPlan limit c h callee args := rfl
  rcases Task.callPlan_cases limit c h callee args with ⟨e, hp⟩ | ⟨f, -, -, hp⟩
  · obtain ⟨-, rfl⟩ := (evaluates_done_iff (hplan.trans hp)).mp he
    exact fun _ _ he => he
  · obtain ⟨w, hw, -⟩ := (evaluates_enclosed_iff (hplan.trans hp)).mp he
    exact Heap.unchanged_of_enter hw.changesOnly

end

/-- **Calls change no environment that is there before**, and the evaluation of a tree
changes only the one it takes place in, which loses no name. -/
theorem evaluation_changes_only (limit : Nat) (c : Context) (h : Heap) :
    (∀ callee args, h.Unchanged ((c.applyFunctionWithin limit callee args).run h).2) ∧
      (∀ e, h.ChangesOnly c.env ((c.evalExpressionWithin limit e).run h).2) ∧
      (∀ s, h.ChangesOnly c.env ((c.evalStatementWithin limit s).run h).2) ∧
      (∀ b, h.ChangesOnly c.env ((c.evalBlockWithin limit b).run h).2) ∧
      ∀ p, h.ChangesOnly c.env ((c.evalProgramWithin limit p).run h).2 := by
  refine ⟨fun callee args => ?_, fun e => ?_, fun s => ?_, fun b => ?_, fun p => ?_⟩
  · exact (evaluates_run limit c h (.apply callee args)).unchanged
  · exact (evaluates_run limit c h (.expr e)).changesOnly
  · exact (evaluates_run limit c h (.stmt s)).changesOnly
  · rw [← Task.run_block]
    exact (evaluates_run limit c h (.stmts .null b.statements)).changesOnly
  · exact (evaluates_run limit c h (.program p)).changesOnly

end ExprScript
