import ExprScript.Proofs.Evaluation.Links

/-!
# Evaluation terminates

The rules, with names read by following the links between environments, give every
task an outcome, in every context and every closed heap whose links form no cycle.
Two things could go on without end.  The recursion into bodies of functions does not,
because of the depth (`Config.needs_wellFounded`); the search for a name does not,
because of the links, which is an invariant of evaluation (`Evaluates.closed`).

* `Evaluates.closed`: what is evaluated refers to the heap, and links stay as good as
  they were.
* `evaluation_terminates`: the outcome, and the depth at which bodies are evaluated.
-/

namespace ExprScript

/-- The values in a task refer to environments of the heap only. -/
def Task.Closed (h : Heap) : Task → Prop
  | .rightOperand left _ _ => left.Closed h
  | .arguments callee done _ => callee.Closed h ∧ ∀ v ∈ done, v.Closed h
  | .apply callee args => callee.Closed h ∧ ∀ v ∈ args, v.Closed h
  | .stmts last _ => last.Closed h
  | .store _ v => v.Closed h
  | .value v => v.Closed h
  | .expr _ | .stmt _ | .program _ => True

structure Config.Closed (x : Config) : Prop where
  env : x.heap.Has x.context.env
  heap : x.heap.Closed
  task : x.task.Closed x.heap

theorem Value.IsResult.closed {v : Value} (hv : v.IsResult) (h : Heap) : v.Closed h := by
  rcases hv with ⟨n, rfl⟩ | ⟨b, rfl⟩ | ⟨e, rfl⟩
  · trivial
  · trivial
  · trivial

theorem Value.Closed.unwrapReturn {h : Heap} {v : Value} (hv : v.Closed h) :
    v.unwrapReturn.Closed h := by
  cases v with
  | pendingReturn w => exact hv
  | _ => exact hv

namespace Task

variable {limit : Nat} {c c' : Context} {h h' : Heap} {t t' first : Task} {next : Value → Task}
  {v : Value}

theorem closed_branch (h : Heap) (v : Value) (consequence : Block) (alternative : Option Block) :
    (branch v consequence alternative).Closed h := by
  unfold branch
  split
  · trivial
  · cases alternative <;> trivial

theorem closed_done (hc : h.Closed) (henv : h.Has c.env) (ht : t.Closed h)
    (hp : t.plan limit c h = .done v h') : v.Closed h' ∧ h'.Closed := by
  rcases plan_done hp with
    ⟨rfl, hv | rfl | rfl⟩ | ⟨parameters, body, -, -, rfl, rfl⟩ | ⟨name, w, rfl, rfl, rfl⟩
  · exact ⟨hv.closed _, hc⟩
  · exact ⟨ht, hc⟩
  · exact ⟨ht, hc⟩
  · exact ⟨henv, hc.addClosure parameters body c.env⟩
  · exact ⟨trivial, hc.insert c.env name ht⟩

theorem closed_sequence (ht : t.Closed h) (hp : t.plan limit c h = .sequence first next) :
    first.Closed h ∧ ∀ h' v, (∀ env, h.Has env → h'.Has env) → v.Closed h' →
      (next v).Closed h' := by
  cases splits_of_plan hp with
  | prefixed op operand line => exact ⟨trivial, fun h' v _ _ => (op.isResult_apply v).closed h'⟩
  | conditional condition consequence alternative line =>
    exact ⟨trivial, fun h' v _ _ => closed_branch h' v consequence alternative⟩
  | call callee args line => exact ⟨trivial, fun _ _ _ hv => ⟨hv, by simp⟩⟩
  | rightOperand left op right =>
    exact ⟨trivial, fun h' v _ _ => (op.isResult_apply left v).closed h'⟩
  | argument callee done e es =>
    refine ⟨trivial, fun h' v hm hv => ⟨Heap.closed_mono hm ht.1, fun w hw => ?_⟩⟩
    rcases List.mem_append.mp hw with hw | hw
    · exact Heap.closed_mono hm (ht.2 w hw)
    · rwa [List.mem_singleton.mp hw]
  -- the value is all that is handed on
  | _ => exact ⟨trivial, fun _ _ _ hv => hv⟩

theorem closed_enclosed {I : Heap → Prop} (hI : Heap.LinkInvariant I) (hx : Config.Closed ⟨c, h, t⟩)
    (hi : I h) (hp : t.plan limit c h = .enclosed c' h' t') :
    Config.Closed ⟨c', h', t'⟩ ∧ I h' := by
  rcases plan_enclosed hp with ⟨rfl, rfl, p, rfl, rfl⟩ | ⟨f, args, hcall, -, rfl, rfl, rfl⟩
  · exact ⟨⟨hx.env, hx.heap, trivial⟩, hi⟩
  · have ht : h.Has f.env ∧ ∀ v ∈ args, v.Closed h := by
      rcases hcall with rfl | rfl
      · exact hx.task
      · exact hx.task
    refine ⟨⟨?_, hx.heap.enter ht.1 ht.2, trivial⟩, hI.enter h f args hx.heap ht.1 hi⟩
    exact Heap.has_iff.mpr ⟨_, Heap.environment?_add_self _ _⟩

end Task

section
variable {I : Heap → Prop} {limit : Nat}

/-- **What is evaluated refers to the heap**, and the links stay as good as they were. -/
theorem Evaluates.closed (hI : Heap.LinkInvariant I) {c : Context} {h h' : Heap} {t : Task}
    {v : Value} (he : Evaluates Heap.Follows limit c h t v h') (hx : Config.Closed ⟨c, h, t⟩)
    (hi : I h) : v.Closed h' ∧ h'.Closed ∧ I h' := by
  induction he with
  | @done c h h' t v hp =>
    obtain ⟨hv, hc⟩ := Task.closed_done hx.heap hx.env hx.task hp
    refine ⟨hv, hc, ?_⟩
    rcases Task.plan_done hp with
      ⟨rfl, -⟩ | ⟨parameters, body, -, -, -, rfl⟩ | ⟨name, w, -, -, rfl⟩
    · exact hi
    · exact hI.sameLinks h _ (fun _ => rfl) hi
    · exact hI.sameLinks h _ (h.sameLinks_insert c.env name w) hi
  | @read c h t name v hp hr =>
    obtain ⟨r, hfind, rfl⟩ := hr
    refine ⟨?_, hx.heap, hi⟩
    cases r with
    | none => trivial
    | some w => exact hfind.closed hx.heap w rfl
  | stop hp _ _ ih => exact ih ⟨hx.env, hx.heap, (Task.closed_sequence hx.task hp).1⟩ hi
  | @next c h h₁ h' t first next v w hp he _ _ ih₁ ih₂ =>
    obtain ⟨hfirst, hnext⟩ := Task.closed_sequence hx.task hp
    obtain ⟨hv, hc, hi₁⟩ := ih₁ ⟨hx.env, hx.heap, hfirst⟩ hi
    -- the first part has taken no environment out of the heap
    have hm (env : EnvId) (henv : h.Has env) : h₁.Has env := henv.of_changesOnly he.changesOnly
    exact ih₂ ⟨hm c.env hx.env, hc, hnext h₁ v hm hv⟩ hi₁
  | enclosed hp _ ih =>
    obtain ⟨hbody, hi₁⟩ := Task.closed_enclosed hI hx hi hp
    obtain ⟨hv, hc, hi'⟩ := ih hbody hi₁
    exact ⟨hv.unwrapReturn, hc, hi'⟩

theorem Config.Needs.closed (hI : Heap.LinkInvariant I) {x y : Config}
    (hn : x.Needs Heap.Follows limit y) (hx : x.Closed ∧ I x.heap) : y.Closed ∧ I y.heap := by
  obtain ⟨hx, hi⟩ := hx
  cases hn with
  | first hp => exact ⟨⟨hx.env, hx.heap, (Task.closed_sequence hx.task hp).1⟩, hi⟩
  | @next c h h₁ t first next v hp he _ =>
    obtain ⟨hfirst, hnext⟩ := Task.closed_sequence hx.task hp
    obtain ⟨hv, hc, hi₁⟩ := he.closed hI ⟨hx.env, hx.heap, hfirst⟩ hi
    have hm (env : EnvId) (henv : h.Has env) : h₁.Has env := henv.of_changesOnly he.changesOnly
    exact ⟨⟨hm c.env hx.env, hc, hnext h₁ v hm hv⟩, hi₁⟩
  | enclosed hp => exact Task.closed_enclosed hI hx hi hp

theorem Config.Reaches.closed (hI : Heap.LinkInvariant I) {x y : Config}
    (hr : x.Reaches Heap.Follows limit y) (hx : x.Closed ∧ I x.heap) : y.Closed ∧ I y.heap := by
  induction hr with
  | refl => exact hx
  | tail _ hn ih => exact hn.closed hI ih

end

/-! ### The outcome -/

theorem Heap.Follows.unique (h : Heap) (env : EnvId) (name : String) (v w : Value)
    (hv : h.Follows env name v) (hw : h.Follows env name w) : v = w := by
  obtain ⟨r, hr, rfl⟩ := hv
  obtain ⟨r', hr', rfl⟩ := hw
  rw [hr.unique hr']

section
variable {limit : Nat} {c : Context} {h h' : Heap} {t : Task} {v : Value}

theorem exists_evaluates_follows (limit : Nat) (hx : Config.Closed ⟨c, h, t⟩) (ha : h.Acyclic) :
    ∃ v h', Evaluates Heap.Follows limit c h t v h' := by
  refine exists_evaluates (P := fun x => x.Closed ∧ x.heap.Acyclic) (x := ⟨c, h, t⟩)
    (fun x y hx hn => hn.closed Heap.linkInvariant_acyclic hx) ?_ ⟨hx, ha⟩
  intro x name hx
  obtain ⟨r, hr⟩ := hx.2.exists_finds hx.1.heap hx.1.env name
  exact ⟨_, r, hr, rfl⟩

/-- Where the recorded chains are those of the links, the outcome is that of the
evaluator. -/
theorem Evaluates.run_eq_of_linked (he : Evaluates Heap.Follows limit c h t v h')
    (hx : Config.Closed ⟨c, h, t⟩) (hl : h.Linked) : (t.run limit c).run h = (v, h') := by
  refine he.run_eq (P := fun x => x.Closed ∧ x.heap.Linked)
    (fun x y hx hn => hn.closed Heap.linkInvariant_linked hx) ?_ ⟨hx, hl⟩
  rintro x name v hx ⟨r, hr, rfl⟩
  rw [Heap.valueOf, hr.lookup_eq hx.2]

/-- **Evaluation terminates**: in a closed heap whose links form no cycle every task has
one outcome, and no cycle of links is left behind.  Where the recorded chains are those
of the links, it is the outcome of the evaluator.  The recursion that gets there is
well-founded, and each body is evaluated one call deeper, so only where evaluation
starts can the depth be above the limit. -/
theorem evaluation_terminates (limit : Nat) (hx : Config.Closed ⟨c, h, t⟩) (ha : h.Acyclic) :
    (∃ v h', Evaluates Heap.Follows limit c h t v h' ∧
      (∀ w h'', Evaluates Heap.Follows limit c h t w h'' → w = v ∧ h'' = h') ∧ h'.Acyclic ∧
      (h.Linked → (t.run limit c).run h = (v, h') ∧ h'.Linked)) ∧
    (WellFounded fun y x => Config.Needs Heap.Follows limit x y) ∧
    ∀ y, Config.Reaches Heap.Follows limit ⟨c, h, t⟩ y → y.heap.Acyclic ∧
      (y.context = c ∨ (c.depth < y.context.depth ∧ y.context.depth ≤ limit)) := by
  refine ⟨?_, Config.needs_wellFounded _ _, fun y hr => ?_⟩
  · obtain ⟨v, h', he⟩ := exists_evaluates_follows limit hx ha
    have hac := (he.closed Heap.linkInvariant_acyclic hx ha).2.2
    refine ⟨v, h', he, fun w h'' hw => hw.unique Heap.Follows.unique he, hac, fun hl => ?_⟩
    exact ⟨he.run_eq_of_linked hx hl, (he.closed Heap.linkInvariant_linked hx hl).2.2⟩
  · exact ⟨(hr.closed Heap.linkInvariant_acyclic ⟨hx, ha⟩).2, hr.depth_le⟩

end

/-- A function that does nothing but call itself. -/
def Closure.runaway : Closure :=
  ⟨[], .mk [.expr (.call (.identifier ⟨"f", 1⟩) [] 1) 1] 1, ⟨0⟩, 0⟩

/-- It is bound in the environment that it was made in. -/
def Heap.runaway : Heap :=
  Heap.empty.addGlobal.2.insert ⟨0⟩ "f" (.function .runaway)

theorem Heap.closed_linked_runaway : Heap.runaway.Closed ∧ Heap.runaway.Linked := by
  have hc : Heap.empty.addGlobal.2.Closed := closed_empty.addGlobal
  have hl : Heap.empty.addGlobal.2.Linked := closed_empty.linked_addGlobal linked_empty
  have hf : (Value.function .runaway).Closed Heap.empty.addGlobal.2 := Nat.zero_lt_one
  exact ⟨hc.insert ⟨0⟩ "f" hf, linkInvariant_linked.sameLinks _ _ (sameLinks_insert _ _ _ _) hl⟩

/-- The call of a function that calls itself has an outcome, at any depth. -/
theorem evaluation_terminates_runaway :
    Config.Closed ⟨.ofEnv ⟨0⟩, .runaway, .apply (.function .runaway) []⟩ ∧ Heap.runaway.Acyclic ∧
      ∃ v h', Evaluates Heap.Follows maxCallDepth (.ofEnv ⟨0⟩) .runaway
        (.apply (.function .runaway) []) v h' ∧ h'.Acyclic ∧
        ((Context.ofEnv ⟨0⟩).applyFunction (.function .runaway) []).run .runaway = (v, h') := by
  obtain ⟨hc, hl⟩ := Heap.closed_linked_runaway
  have hx : Config.Closed ⟨.ofEnv ⟨0⟩, .runaway, .apply (.function .runaway) []⟩ :=
    ⟨Nat.zero_lt_one, hc, Nat.zero_lt_one, by simp⟩
  obtain ⟨⟨v, h', he, -, hac, hrun⟩, -⟩ := evaluation_terminates maxCallDepth hx hl.acyclic
  exact ⟨hx, hl.acyclic, v, h', he, hac, (hrun hl).1⟩

end ExprScript
