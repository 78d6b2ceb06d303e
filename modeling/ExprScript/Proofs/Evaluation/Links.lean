import ExprScript.Proofs.Evaluation.Frame

/-!
# The links between environments

The environment right around another one is its outer link.  A name is looked up by
following these links (`Heap.Finds`); how far that goes is not bounded by anything
but the links themselves, and it ends because they form no cycle (`Heap.Acyclic`).
What an environment records is the whole chain of environments around it; in a heap
where these chains are what the links give (`Heap.Linked`), reading a name from the
chain and following the links come to the same.

Environments and functions may refer to each other in any way; all that is asked is
that they refer to environments of the heap (`Heap.Closed`).

* `Heap.Acyclic.exists_finds`, `Heap.Finds.unique`: following the links ends, in one
  way.
* `Heap.Finds.lookup_eq`: what is found is what the recorded chain gives.
* `Heap.linkInvariant_acyclic`, `Heap.linkInvariant_linked`: bindings and calls keep
  both properties.
* `Heap.Stores.insert`, `Heap.Stores.enter`: so they do with what holds of all values that
  are bound.
-/

namespace ExprScript

def Environment.outer? (e : Environment) : Option EnvId :=
  e.enclosing.head?

theorem Environment.enclosing_insertAll (e : Environment) (bs : List (String × Value)) :
    (e.insertAll bs).enclosing = e.enclosing := by
  induction bs generalizing e with
  | nil => rfl
  | cons b bs ih => exact (ih _).trans (e.enclosing_insert b.1 b.2)

theorem Environment.get?_insertAll {e : Environment} {bs : List (String × Value)} {name : String}
    {v : Value} (h : (e.insertAll bs).get? name = some v) :
    (name, v) ∈ bs ∨ e.get? name = some v := by
  induction bs generalizing e with
  | nil => exact Or.inr h
  | cons b bs ih =>
    obtain ⟨other, w⟩ := b
    rcases ih h with hb | he
    · exact Or.inl (List.mem_cons_of_mem _ hb)
    · by_cases hn : name = other
      · rw [hn, get?_insert_self] at he
        obtain rfl := Option.some.inj he
        exact Or.inl (hn ▸ List.mem_cons_self)
      · rw [get?_insert_of_ne e hn] at he
        exact Or.inr he

namespace Heap

def Has (h : Heap) (env : EnvId) : Prop :=
  env.index < h.environments.size

/-- The first environment is right around the second one. -/
def Outer (h : Heap) (outer inner : EnvId) : Prop :=
  ∃ e, h.environment? inner = some e ∧ e.outer? = some outer

/-- No environment is around itself, however far out. -/
def Acyclic (h : Heap) : Prop :=
  WellFounded h.Outer

/-- The chains that are recorded are those of the links. -/
def Linked (h : Heap) : Prop :=
  ∀ env e outer, h.environment? env = some e → e.outer? = some outer → e.enclosing = h.chain outer

/-- What a name is bound to, found by following the links. -/
inductive Finds (h : Heap) : EnvId → String → Option Value → Prop where
  | here {env : EnvId} {e : Environment} {name : String} {v : Value} :
      h.environment? env = some e → e.get? name = some v → Finds h env name (some v)
  | outer {env outer : EnvId} {e : Environment} {name : String} {r : Option Value} :
      h.environment? env = some e → e.get? name = none → e.outer? = some outer →
      Finds h outer name r → Finds h env name r
  | unbound {env : EnvId} {e : Environment} {name : String} :
      h.environment? env = some e → e.get? name = none → e.outer? = none → Finds h env name none

def Follows : Reading :=
  fun h env name v => ∃ r, h.Finds env name r ∧
    r.getD (RuntimeError.identifierNotFound name).toValue = v

end Heap

/-- A value refers to environments of the heap only. -/
def Value.Closed (h : Heap) : Value → Prop
  | .function f => h.Has f.env
  | .pendingReturn v => v.Closed h
  | _ => True

structure Heap.Closed (h : Heap) : Prop where
  outer : ∀ inner outer, h.Outer outer inner → h.Has outer
  value : ∀ env e name v, h.environment? env = some e → e.get? name = some v → v.Closed h

namespace Heap

variable {h h' : Heap} {env other : EnvId} {e : Environment} {name : String} {v : Value}

theorem has_iff : h.Has env ↔ ∃ e, h.environment? env = some e := by
  rw [Has, environment?, ← Option.isSome_iff_exists, isSome_getElem?]

theorem Has.of_changesOnly (hc : h.ChangesOnly env h') (ho : h.Has other) : h'.Has other := by
  obtain ⟨e, he⟩ := has_iff.mp ho
  by_cases hn : other = env
  · obtain ⟨e', he', -⟩ := hc.own e (hn ▸ he)
    exact has_iff.mpr ⟨e', hn ▸ he'⟩
  · exact has_iff.mpr ⟨e, hc.others other e hn he⟩

/-! ### Following the links -/

theorem Finds.unique {r r' : Option Value} (hr : h.Finds env name r) (hr' : h.Finds env name r') :
    r = r' := by
  induction hr with
  | here he hv => cases hr' <;> simp_all
  | outer he hn ho _ ih =>
    cases hr' with
    | here he' hv => simp_all
    | outer he' _ ho' hr' =>
      obtain rfl := Option.some.inj (he.symm.trans he')
      obtain rfl := Option.some.inj (ho.symm.trans ho')
      exact ih hr'
    | unbound he' _ ho' => simp_all
  | unbound he hn ho => cases hr' <;> simp_all

/-- **Following the links ends** where they form no cycle. -/
theorem Acyclic.exists_finds (ha : h.Acyclic) (hc : h.Closed) (henv : h.Has env) (name : String) :
    ∃ r, h.Finds env name r := by
  induction env using ha.induction with
  | h env ih =>
    obtain ⟨e, he⟩ := has_iff.mp henv
    cases hv : e.get? name with
    | some v => exact ⟨some v, .here he hv⟩
    | none =>
      cases ho : e.outer? with
      | none => exact ⟨none, .unbound he hv ho⟩
      | some outer =>
        have hout : h.Outer outer env := ⟨e, he, ho⟩
        obtain ⟨r, hr⟩ := ih outer hout (hc.outer env outer hout)
        exact ⟨r, .outer he hv ho hr⟩

theorem Finds.closed {r : Option Value} (hr : h.Finds env name r) (hc : h.Closed) :
    ∀ v ∈ r, v.Closed h := by
  induction hr with
  | @here env e name v he hv =>
    rintro w ⟨⟩
    exact hc.value env e name v he hv
  | outer _ _ _ _ ih => exact ih
  | unbound _ _ _ => simp

theorem chain_of_some (he : h.environment? env = some e) : h.chain env = env :: e.enclosing := by
  rw [chain, he]
  rfl

/-- **What is found is what the recorded chain gives.** -/
theorem Finds.lookup_eq {r : Option Value} (hr : h.Finds env name r) (hl : h.Linked) :
    h.lookup env name = r := by
  induction hr with
  | here he hv =>
    rw [lookup, chain_of_some he, List.findSome?_cons, he, Option.bind_some, hv]
  | @outer env outer e name r he hn ho _ ih =>
    rw [lookup, chain_of_some he, List.findSome?_cons, he, Option.bind_some, hn]
    rw [hl env e outer he ho]
    exact ih
  | unbound he hn ho =>
    rw [lookup, chain_of_some he, List.findSome?_cons, he, Option.bind_some, hn]
    rw [List.head?_eq_none_iff.mp ho]
    rfl

/-- In a heap with its chains as the links give them, the links form no cycle: the
chain of an environment is longer than that of the one around it. -/
theorem Linked.acyclic (hl : h.Linked) : h.Acyclic := by
  refine Subrelation.wf (fun {outer inner} ho => ?_) (measure fun env => (h.chain env).length).wf
  obtain ⟨e, he, heo⟩ := ho
  show (h.chain outer).length < (h.chain inner).length
  rw [chain_of_some he, hl inner e outer he heo]
  exact Nat.lt_succ_self _

/-! ### What keeps the links -/

/-- The environments of both heaps are linked in the same way. -/
def SameLinks (h h' : Heap) : Prop :=
  ∀ env, (h'.environment? env).map Environment.enclosing =
    (h.environment? env).map Environment.enclosing

theorem outer_iff {outer inner : EnvId} :
    h.Outer outer inner ↔
      ((h.environment? inner).map Environment.enclosing).bind List.head? = some outer := by
  rw [Option.bind_map, Option.bind_eq_some_iff]
  rfl

theorem sameLinks_insert (h : Heap) (env : EnvId) (name : String) (v : Value) :
    h.SameLinks (h.insert env name v) := by
  intro other
  by_cases hn : other = env
  · rw [hn, environment?_insert_self, Option.map_map]
    rfl
  · rw [environment?_insert_of_ne h hn]

theorem SameLinks.has (hs : h.SameLinks h') (henv : h.Has env) : h'.Has env := by
  obtain ⟨e, he⟩ := has_iff.mp henv
  have hmap := hs env
  rw [he, Option.map_some] at hmap
  obtain ⟨e', he', -⟩ := Option.map_eq_some_iff.mp hmap
  exact has_iff.mpr ⟨e', he'⟩

theorem SameLinks.outer (hs : h.SameLinks h') {outer inner : EnvId} (ho : h'.Outer outer inner) :
    h.Outer outer inner := by
  rw [outer_iff] at ho ⊢
  rwa [← hs inner]

theorem SameLinks.chain_eq (hs : h.SameLinks h') (env : EnvId) : h'.chain env = h.chain env := by
  rw [chain, chain, hs env]

theorem bound_insert {name' : String} {w : Value} {e' : Environment}
    (he : (h.insert env name v).environment? other = some e') (hw : e'.get? name' = some w) :
    w = v ∨ ∃ e, h.environment? other = some e ∧ e.get? name' = some w := by
  by_cases hn : other = env
  · rw [hn, environment?_insert_self] at he
    obtain ⟨e, hold, rfl⟩ := Option.map_eq_some_iff.mp he
    by_cases hname : name' = name
    · rw [hname, Environment.get?_insert_self] at hw
      exact Or.inl (Option.some.inj hw).symm
    · rw [Environment.get?_insert_of_ne e hname] at hw
      exact Or.inr ⟨e, hn ▸ hold, hw⟩
  · rw [environment?_insert_of_ne h hn] at he
    exact Or.inr ⟨e', he, hw⟩

/-- A property of the links that evaluation keeps. -/
structure LinkInvariant (I : Heap → Prop) : Prop where
  sameLinks : ∀ h h', h.SameLinks h' → I h → I h'
  enter : ∀ h f args, h.Closed → h.Has f.env → I h → I (h.enter f args).2

theorem environment?_add_eq_some {e' : Environment}
    (he : (h.add e).2.environment? other = some e') :
    h.environment? other = some e' ∨ (other = (h.add e).1 ∧ e = e') := by
  simp only [environment?, add, Array.getElem?_push] at he
  split at he
  · next hi =>
    refine Or.inr ⟨?_, Option.some.inj he⟩
    cases other
    exact congrArg EnvId.mk hi
  · exact Or.inl he

/-- The environment of a call is inside that of the function, and refers to what its
arguments refer to. -/
theorem environment?_enter_eq_some {f : Closure} {args : List Value} {e' : Environment}
    (he : (h.enter f args).2.environment? other = some e') :
    h.environment? other = some e' ∨ (other = (h.enter f args).1 ∧
      e'.enclosing = h.chain f.env ∧ ∀ name v, e'.get? name = some v → v ∈ args) := by
  rcases environment?_add_eq_some he with he | ⟨ho, rfl⟩
  · exact Or.inl he
  · refine Or.inr ⟨ho, Environment.enclosing_insertAll _ _, fun name v hv => ?_⟩
    rcases Environment.get?_insertAll hv with hb | hn
    · exact (List.of_mem_zip hb).2
    · simp [Environment.get?, Environment.empty] at hn

theorem unchanged_enter (h : Heap) (f : Closure) (args : List Value) :
    h.Unchanged (h.enter f args).2 :=
  fun _ _ he => environment?_add_of_some he _

theorem Unchanged.has (hu : h.Unchanged h') (henv : h.Has env) : h'.Has env :=
  henv.of_changesOnly (hu.changesOnly env)

theorem Unchanged.chain_eq (hu : h.Unchanged h') (henv : h.Has env) :
    h'.chain env = h.chain env := by
  obtain ⟨e, he⟩ := has_iff.mp henv
  rw [chain_of_some he, chain_of_some (hu env e he)]

theorem linkInvariant_acyclic : LinkInvariant Acyclic := by
  refine ⟨fun h h' hs ha => Subrelation.wf hs.outer ha, fun h f args hc hf ha => ?_⟩
  -- the environments that were there have only such environments around them
  have hold : ∀ env, h.Has env → Acc (h.enter f args).2.Outer env := by
    intro env
    induction env using ha.induction with
    | h env ih =>
      intro henv
      obtain ⟨e, he⟩ := has_iff.mp henv
      refine .intro env fun outer ho => ?_
      obtain ⟨e', he', heo⟩ := ho
      obtain rfl := Option.some.inj ((h.unchanged_enter f args env e he).symm.trans he')
      have hout : h.Outer outer env := ⟨e, he, heo⟩
      exact ih outer hout (hc.outer env outer hout)
  refine ⟨fun env => .intro env fun outer ho => ?_⟩
  obtain ⟨e, he, heo⟩ := ho
  rcases environment?_enter_eq_some he with he | ⟨-, henc, -⟩
  · exact hold outer (hc.outer env outer ⟨e, he, heo⟩)
  · rw [Environment.outer?, henc] at heo
    obtain rfl := Option.some.inj heo
    exact hold f.env hf

theorem linkInvariant_linked : LinkInvariant Linked := by
  refine ⟨fun h h' hs hl env e outer he heo => ?_, fun h f args hc hf hl env e outer he heo => ?_⟩
  · have hmap := hs env
    rw [he, Option.map_some] at hmap
    obtain ⟨e₀, he₀, henc⟩ := Option.map_eq_some_iff.mp hmap.symm
    rw [Environment.outer?, ← henc] at heo
    rw [hs.chain_eq, ← henc, hl env e₀ outer he₀ heo]
  · rcases environment?_enter_eq_some he with he | ⟨-, henc, -⟩
    · rw [hl env e outer he heo]
      exact ((h.unchanged_enter f args).chain_eq (hc.outer env outer ⟨e, he, heo⟩)).symm
    · rw [Environment.outer?, henc] at heo
      obtain rfl := Option.some.inj heo
      rw [henc]
      exact ((h.unchanged_enter f args).chain_eq hf).symm

/-! ### What is stored -/

/-- All values that are bound have a property. -/
def Stores (Q : Value → Prop) (h : Heap) : Prop :=
  ∀ env e name v, h.environment? env = some e → e.get? name = some v → Q v

section
variable {Q : Value → Prop}

theorem stores_empty : Heap.empty.Stores Q := by
  intro env e name v he _
  simp [environment?, empty] at he

theorem Stores.addGlobal (hh : h.Stores Q) : h.addGlobal.2.Stores Q := by
  intro env e name v he hv
  rcases environment?_add_eq_some he with he | ⟨-, rfl⟩
  · exact hh env e name v he hv
  · simp [Environment.get?, Environment.empty] at hv

theorem Stores.insert (hh : h.Stores Q) (env : EnvId) (name : String) (hv : Q v) :
    (h.insert env name v).Stores Q := by
  intro other e' name' w he hw
  rcases bound_insert he hw with rfl | ⟨e, he, hw⟩
  · exact hv
  · exact hh other e name' w he hw

theorem Stores.enter (hh : h.Stores Q) (f : Closure) {args : List Value} (ha : ∀ v ∈ args, Q v) :
    (h.enter f args).2.Stores Q := by
  intro env e name v he hv
  rcases environment?_enter_eq_some he with he | ⟨-, -, hargs⟩
  · exact hh env e name v he hv
  · exact ha v (hargs name v hv)

/-- What is found is bound in one of the scopes. -/
theorem Stores.of_lookup (hh : h.Stores Q) (hl : h.lookup env name = some v) : Q v := by
  obtain ⟨scope, -, hscope⟩ := List.exists_of_findSome?_eq_some hl
  obtain ⟨e, he, hv⟩ := Option.bind_eq_some_iff.mp hscope
  exact hh scope e name v he hv

end

/-! ### What keeps the heap closed -/

theorem closed_mono (hm : ∀ env, h.Has env → h'.Has env) {v : Value} (hv : v.Closed h) :
    v.Closed h' := by
  induction v with
  | function f => exact hm f.env hv
  | pendingReturn v ih => exact ih hv
  | _ => trivial

theorem Closed.addClosure (hc : h.Closed) (parameters : List Identifier) (body : Block)
    (env : EnvId) : (h.addClosure parameters body env).2.Closed := by
  refine ⟨hc.outer, fun other e name v he hv => ?_⟩
  have hm (env' : EnvId) (henv : h.Has env') : (h.addClosure parameters body env).2.Has env' := henv
  exact closed_mono hm (hc.value other e name v he hv)

theorem Closed.insert (hc : h.Closed) (env : EnvId) (name : String) (hv : v.Closed h) :
    (h.insert env name v).Closed := by
  have hs := h.sameLinks_insert env name v
  have hstored : (h.insert env name v).Stores (Value.Closed h) := Stores.insert hc.value env name hv
  refine ⟨fun inner outer ho => hs.has (hc.outer inner outer (hs.outer ho)), ?_⟩
  intro other e' name' w he hw
  exact closed_mono (fun env => hs.has) (hstored other e' name' w he hw)

theorem Closed.enter (hc : h.Closed) {f : Closure} (hf : h.Has f.env) {args : List Value}
    (ha : ∀ v ∈ args, v.Closed h) : (h.enter f args).2.Closed := by
  have hm {env : EnvId} (henv : h.Has env) : (h.enter f args).2.Has env :=
    (h.unchanged_enter f args).has henv
  have hstored : (h.enter f args).2.Stores (Value.Closed h) := Stores.enter hc.value f ha
  refine ⟨fun inner outer ho => ?_, fun env e name v he hv => ?_⟩
  · obtain ⟨e, he, heo⟩ := ho
    rcases environment?_enter_eq_some he with he | ⟨-, henc, -⟩
    · exact hm (hc.outer inner outer ⟨e, he, heo⟩)
    · rw [Environment.outer?, henc] at heo
      obtain rfl := Option.some.inj heo
      exact hm hf
  · exact closed_mono (fun env => hm) (hstored env e name v he hv)

/-! ### Fresh heaps -/

theorem closed_empty : Heap.empty.Closed := by
  refine ⟨fun inner outer ho => ?_, fun env e name v he _ => ?_⟩
  · obtain ⟨e, he, -⟩ := ho
    simp [environment?, empty] at he
  · simp [environment?, empty] at he

theorem linked_empty : Heap.empty.Linked := by
  intro env e outer he _
  simp [environment?, empty] at he

theorem Closed.addGlobal (hc : h.Closed) : h.addGlobal.2.Closed := by
  have hm {env : EnvId} (henv : h.Has env) : h.addGlobal.2.Has env := by
    obtain ⟨e, he⟩ := has_iff.mp henv
    exact has_iff.mpr ⟨e, environment?_add_of_some he _⟩
  have hstored : h.addGlobal.2.Stores (Value.Closed h) := Stores.addGlobal hc.value
  refine ⟨fun inner outer ho => ?_, fun env e name v he hv => ?_⟩
  · obtain ⟨e, he, heo⟩ := ho
    rcases environment?_add_eq_some he with he | ⟨-, rfl⟩
    · exact hm (hc.outer inner outer ⟨e, he, heo⟩)
    · simp [Environment.outer?, Environment.empty] at heo
  · exact closed_mono (fun env => hm) (hstored env e name v he hv)

theorem Closed.linked_addGlobal (hc : h.Closed) (hl : h.Linked) : h.addGlobal.2.Linked := by
  have hu : h.Unchanged h.addGlobal.2 := fun _ _ he => environment?_add_of_some he _
  intro env e outer he heo
  rcases environment?_add_eq_some he with he | ⟨-, rfl⟩
  · rw [hl env e outer he heo]
    exact (hu.chain_eq (hc.outer env outer ⟨e, he, heo⟩)).symm
  · simp [Environment.outer?, Environment.empty] at heo

end Heap

end ExprScript
