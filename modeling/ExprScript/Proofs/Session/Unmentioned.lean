import ExprScript.Proofs.Evaluation.Names
import ExprScript.Proofs.Session.Layout

/-!
# Names that are not mentioned

A name that occurs neither in a program nor in any function that the program can get to
does not matter: it may be bound or not, and to whatever value.  The functions that a
program can get to are those bound in the environments around it, in the environments of
these functions, and so on (`Heap.Reachable`); functions that are made on the way have
their trees from these or from the program.

The heap with the name bound looks like the heap without, from the environments that can
be reached, as far as all other names go.  Each such environment is paired with itself.

* `Heap.Reachable.has`: what can be reached is in the heap.
* `Heap.alike_insert_unmentioned`: the two heaps look alike.
* `unmentioned_names_do_not_matter`: every program in every context of a session.
-/

namespace ExprScript

/-- Neither the parameters nor the body of a function mention the name. -/
def Value.Unmentioned (name : String) : Value → Prop
  | .function f => (∀ id ∈ f.parameters, id.name ≠ name) ∧ f.body.Names (· ≠ name)
  | _ => True

instance (name : String) (v : Value) : Decidable (v.Unmentioned name) :=
  match v with
  | .function f =>
    inferInstanceAs (Decidable ((∀ id ∈ f.parameters, id.name ≠ name) ∧ f.body.Names (· ≠ name)))
  | .integer _ | .boolean _ | .null | .error _ | .pendingReturn _ => isTrue trivial

namespace Heap

/-- The environments that evaluation in an environment can get to: those around, and those
of the functions bound there. -/
inductive Reachable (h : Heap) (start : EnvId) : EnvId → Prop where
  | start : Reachable h start start
  | enclosing {env outer : EnvId} {e : Environment} : Reachable h start env →
      h.environment? env = some e → outer ∈ e.enclosing → Reachable h start outer
  | function {env : EnvId} {e : Environment} {name : String} {f : Closure} :
      Reachable h start env → h.environment? env = some e →
      e.get? name = some (.function f) → Reachable h start f.env

/-- No function bound in an environment that can be reached mentions the name. -/
def Unmentioned (h : Heap) (start : EnvId) (name : String) : Prop :=
  ∀ env e other v, h.Reachable start env → h.environment? env = some e →
    e.get? other = some v → v.Unmentioned name

/-- Each environment that can be reached, paired with itself. -/
def reached (h : Heap) (start : EnvId) : Naming :=
  fun a a' => a = a' ∧ h.Reachable start a

variable {h : Heap} {start env : EnvId} {name : String}

/-- A name that no function of the heap mentions. -/
theorem unmentioned_of_forall
    (hall : ∀ e ∈ h.environments.toList, ∀ b ∈ e.bindings, b.2.Unmentioned name)
    (start : EnvId) : h.Unmentioned start name := by
  intro env e other v _ he hv
  obtain ⟨before, after, hb, -⟩ := List.lookup_eq_some_iff.mp hv
  refine hall e (Array.mem_toList_iff.mpr (Array.mem_of_getElem? he)) (other, v) ?_
  rw [hb]
  exact List.mem_append_right before List.mem_cons_self

theorem Reachable.has (hr : h.Reachable start env) (hc : h.Closed) (hl : h.Linked)
    (hs : h.Has start) : h.Has env := by
  cases hr with
  | start => exact hs
  | enclosing _ he ho => exact hc.has_of_mem_enclosing hl he _ ho
  | function _ he hv => exact hc.value _ _ _ _ he hv

/-- What is bound in an environment that can be reached looks like itself, but for a name
that it does not mention. -/
theorem alike_self_of_reachable (hp : h.StoresPlain) (hu : h.Unmentioned start name)
    (hr : h.Reachable start env) {e : Environment} (he : h.environment? env = some e)
    {other : String} {v : Value} (hv : e.get? other = some v) :
    v.Alike (· ≠ name) (h.reached start) v := by
  have hplain := hp env e other v he hv
  have hnames := hu env e other v hr he hv
  cases v with
  | integer n => exact .integer n
  | boolean b => exact .boolean b
  | null => exact .null
  | function f => exact .function ⟨rfl, rfl, hnames.2, rfl, .function hr he hv⟩
  | error m => simp [Value.interrupts] at hplain
  | pendingReturn w => simp [Value.interrupts] at hplain

/-- **A heap with an unmentioned name bound looks like the heap without.** -/
theorem alike_insert_unmentioned (hc : h.Closed) (hl : h.Linked) (hp : h.StoresPlain)
    (hs : h.Has start) (hu : h.Unmentioned start name) (v : Value) :
    (h.insert start name v).Alike (· ≠ name) (h.reached start) h := by
  have hself {env : EnvId} {e : Environment} (hr : h.Reachable start env)
      (he : h.environment? env = some e) : e.Alike (· ≠ name) (h.reached start) e := by
    refine ⟨List.forall₂_same.mpr fun outer ho => ⟨rfl, .enclosing hr he ho⟩, fun other _ => ?_⟩
    cases hv : e.get? other with
    | none => exact .none
    | some w => exact .some (alike_self_of_reachable hp hu hr he hv)
  refine ⟨⟨fun a b c ha hb => ha.1.trans hb.1.symm, fun a b c hb hc => hb.1.symm.trans hc.1⟩, ?_⟩
  rintro env _ ⟨rfl, hr⟩
  obtain ⟨e, he⟩ := has_iff.mp (hr.has hc hl hs)
  by_cases henv : env = start
  · -- the binding itself is only seen by who asks for the name
    subst henv
    refine ⟨e.insert name v, e, ?_, he, (hself hr he).enclosing, fun other hn => ?_⟩
    · rw [environment?_insert_self, he, Option.map_some]
    · rw [Environment.get?_insert_of_ne e hn]
      exact (hself hr he).bindings other hn
  · exact ⟨e, e, by rw [environment?_insert_of_ne h henv, he], he, hself hr he⟩

/-- A name is looked up in the environment itself first. -/
theorem lookup_of_get? {e : Environment} {v : Value} (he : h.environment? env = some e)
    (hv : e.get? name = some v) : h.lookup env name = some v := by
  rw [lookup, chain_of_some he, List.findSome?_cons, he, Option.bind_some, hv]

end Heap

/-- **Names that are not mentioned do not matter.**  Take a session that has evaluated any
texts, in any context whose environment is in its heap, and a name that occurs neither in a
program nor in any function that can be reached from there.  Bind the name to any value
before the program is evaluated, or do not: the outcome is of the same kind and shown alike,
every other name is bound to values of the same kind that are shown alike, and the name is
still bound to the value. -/
theorem unmentioned_names_do_not_matter {sources : List String} {c : Context} {p : Program}
    {name : String} (hc : (Session.start.after sources).heap.Has c.env)
    (hp : Stmt.NamesAll (· ≠ name) p)
    (hu : (Session.start.after sources).heap.Unmentioned c.env name) (v : Value) :
    let s : Session := { Session.start.after sources with current := c }
    let without := s.run fun c => c.evalProgram p
    let bound := (s.set name v).run fun c => c.evalProgram p
    bound.1.kind = without.1.kind ∧ bound.1.text = without.1.text ∧
      (∀ other, other ≠ name → (bound.2.get? other).map (fun w => (w.kind, w.text)) =
        (without.2.get? other).map fun w => (w.kind, w.text)) ∧
      bound.2.get? name = some v := by
  have hclosed := Session.closed_after Session.closed_start sources
  have hplain := Session.storesPlain_after Heap.storesPlain_start sources
  generalize Session.start.after sources = s₀ at hc hu hclosed hplain ⊢
  intro s without bound
  have halike : (s.set name v).Alike (· ≠ name) (s.heap.reached c.env) s :=
    ⟨Heap.alike_insert_unmentioned hclosed.heap hclosed.linked hplain hc hu v,
      ⟨rfl, .start⟩, rfl⟩
  obtain ⟨R, -, hv, hs⟩ := halike.program rfl hp maxCallDepth
  refine ⟨hv.kind_eq, hv.text_eq, fun other hn => hs.heap.shown_lookup_of hs.env hn, ?_⟩
  -- a program that does not mention the name leaves it bound
  obtain ⟨e, he⟩ := Heap.has_iff.mp hc
  have hinsert : (s.set name v).heap.environment? c.env = some (e.insert name v) := by
    show (s₀.heap.insert c.env name v).environment? c.env = _
    rw [Heap.environment?_insert_self, he, Option.map_some]
  have hrun := Config.evaluates_outcome maxCallDepth ⟨c, (s.set name v).heap, .program p⟩
  obtain ⟨e', he', hkeeps⟩ := hrun.keepsBinding hp _ hinsert
  exact Heap.lookup_of_get? he' (hkeeps.trans (e.get?_insert_self name v))

/-- A closure that calls another one, each of them in an environment of its own. -/
theorem unmentioned_names_do_not_matter_closures :
    let s := Session.start.after ["let k = 2; let f = fn(n) \x7b n * k \x7d;",
      "let g = fn(h) \x7b fn(y) \x7b h(y) \x7d \x7d; let w = g(f)"]
    let p := (parse "let a = w(5); a + 1").program
    let bound := (s.set "z" (.integer 7)).run fun c => c.evalProgram p
    s.heap.Has s.current.env ∧ Stmt.NamesAll (· ≠ "z") p ∧ s.heap.Unmentioned s.current.env "z" ∧
      bound.1.kind = .integer ∧ bound.1.text = "11" ∧
      (bound.2.get? "a").map (fun v => (v.kind, v.text)) = some (.integer, "10") ∧
      bound.2.get? "z" = some (.integer 7) := by
  intro s p bound
  have hc : s.heap.Has s.current.env := (Session.closed_after Session.closed_start _).env
  have hp : Stmt.NamesAll (· ≠ "z") p := by decide +kernel
  have hu : s.heap.Unmentioned s.current.env "z" :=
    Heap.unmentioned_of_forall (by decide +kernel) _
  obtain ⟨hkind, htext, hothers, hz⟩ := unmentioned_names_do_not_matter hc hp hu (.integer 7)
  have hwithout : let without := s.run fun c => c.evalProgram p
      without.1.kind = .integer ∧ without.1.text = "11" ∧
      (without.2.get? "a").map (fun v => (v.kind, v.text)) = some (.integer, "10") := by
    decide +kernel
  exact ⟨hc, hp, hu, hkind.trans hwithout.1, htext.trans hwithout.2.1,
    (hothers "a" (by decide)).trans hwithout.2.2, hz⟩

end ExprScript
