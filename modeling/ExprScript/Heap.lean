import ExprScript.Value

/-!
# Environments and the heap

An environment binds names to values and knows the environments around it,
innermost first.  Environments are shared: a function keeps the one it was made
in, and later bindings there are seen by the function.  So they live in a heap
and are referred to by name.  An environment is never removed, and the ones
around it never change.
-/

namespace ExprScript

/-- The bindings made in one scope, and the scopes around it. -/
structure Environment where
  bindings : List (String × Value)
  enclosing : List EnvId

namespace Environment

def empty (enclosing : List EnvId) : Environment :=
  ⟨[], enclosing⟩

/-- The bindings after a name has been bound: an older binding of the name is
replaced. -/
def bindIn (name : String) (v : Value) : List (String × Value) → List (String × Value)
  | [] => [(name, v)]
  | (other, w) :: rest =>
    if other = name then (name, v) :: rest else (other, w) :: bindIn name v rest

def insert (e : Environment) (name : String) (v : Value) : Environment :=
  { e with bindings := bindIn name v e.bindings }

/-- Binds names one after the other, so the last binding of a name holds. -/
def insertAll (e : Environment) : List (String × Value) → Environment
  | [] => e
  | (name, v) :: rest => (e.insert name v).insertAll rest

def get? (e : Environment) (name : String) : Option Value :=
  e.bindings.lookup name

theorem lookup_bindIn_self (name : String) (v : Value) (bs : List (String × Value)) :
    (bindIn name v bs).lookup name = some v := by
  induction bs with
  | nil => simp [bindIn]
  | cons b bs ih =>
    obtain ⟨other, w⟩ := b
    rw [bindIn]
    split
    · exact List.lookup_cons_self
    · next h => rw [List.lookup_cons, beq_false_of_ne (Ne.symm h), ih]

theorem lookup_bindIn_of_ne {name other : String} (h : other ≠ name) (v : Value)
    (bs : List (String × Value)) : (bindIn name v bs).lookup other = bs.lookup other := by
  induction bs with
  | nil => simp [bindIn, List.lookup_cons, beq_false_of_ne h]
  | cons b bs ih =>
    obtain ⟨first, w⟩ := b
    rw [bindIn]
    split
    · next hb => rw [List.lookup_cons, List.lookup_cons, hb, beq_false_of_ne h]
    · rw [List.lookup_cons, List.lookup_cons, ih]

theorem get?_insert_self (e : Environment) (name : String) (v : Value) :
    (e.insert name v).get? name = some v :=
  lookup_bindIn_self name v e.bindings

theorem get?_insert_of_ne (e : Environment) {name other : String} (h : other ≠ name) (v : Value) :
    (e.insert name v).get? other = e.get? other :=
  lookup_bindIn_of_ne h v e.bindings

theorem enclosing_insert (e : Environment) (name : String) (v : Value) :
    (e.insert name v).enclosing = e.enclosing := rfl

end Environment

/-- All environments made so far, and how many function values. -/
structure Heap where
  environments : Array Environment
  closures : Nat

namespace Heap

def empty : Heap :=
  ⟨#[], 0⟩

def environment? (h : Heap) (env : EnvId) : Option Environment :=
  h.environments[env.index]?

/-- The scopes that a name is looked up in, innermost first. -/
def chain (h : Heap) (env : EnvId) : List EnvId :=
  env :: ((h.environment? env).map Environment.enclosing).getD []

/-- The value of a name as seen from an environment: the innermost binding. -/
def lookup (h : Heap) (env : EnvId) (name : String) : Option Value :=
  (h.chain env).findSome? fun scope => (h.environment? scope).bind fun e => e.get? name

def insert (h : Heap) (env : EnvId) (name : String) (v : Value) : Heap :=
  { h with environments := h.environments.modify env.index fun e => e.insert name v }

def add (h : Heap) (e : Environment) : EnvId × Heap :=
  (⟨h.environments.size⟩, { h with environments := h.environments.push e })

def addGlobal (h : Heap) : EnvId × Heap :=
  h.add (.empty [])

def addInside (h : Heap) (outer : EnvId) (bindings : List (String × Value)) : EnvId × Heap :=
  h.add ((Environment.empty (h.chain outer)).insertAll bindings)

/-- Makes a function value, different from all before it. -/
def addClosure (h : Heap) (parameters : List Identifier) (body : Block) (env : EnvId) :
    Closure × Heap :=
  (⟨parameters, body, env, h.closures⟩, { h with closures := h.closures + 1 })

theorem environment?_insert_self (h : Heap) (env : EnvId) (name : String) (v : Value) :
    (h.insert env name v).environment? env =
      (h.environment? env).map fun e => e.insert name v := by
  simp [insert, environment?, Array.getElem?_modify]

/-- Binding a name touches no other environment. -/
theorem environment?_insert_of_ne (h : Heap) {env other : EnvId} (hne : other ≠ env)
    (name : String) (v : Value) :
    (h.insert env name v).environment? other = h.environment? other := by
  have : env.index ≠ other.index := fun hi => hne (by cases env; cases other; simp_all)
  simp [insert, environment?, Array.getElem?_modify, this]

theorem environment?_add_self (h : Heap) (e : Environment) :
    (h.add e).2.environment? (h.add e).1 = some e := by
  simp [add, environment?]

/-- Adding an environment touches none that is there. -/
theorem environment?_add_of_some {h : Heap} {env : EnvId} {old : Environment}
    (ho : h.environment? env = some old) (e : Environment) :
    (h.add e).2.environment? env = some old := by
  have hlt : env.index < h.environments.size := (Array.getElem?_eq_some_iff.mp ho).1
  rw [← ho]
  simp [add, environment?, Array.getElem?_push_lt hlt, hlt]

/-- A function value is different from all before it, and making it touches no
environment. -/
theorem environment?_addClosure (h : Heap) (parameters : List Identifier) (body : Block)
    (env other : EnvId) :
    (h.addClosure parameters body env).2.environment? other = h.environment? other := rfl

end Heap

end ExprScript
