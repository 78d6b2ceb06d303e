import ExprScript.Proofs.Evaluation.Frame
import ExprScript.Proofs.Syntax

/-!
# The names in a task

`t.Names P` says that the names in what is left of a tree to evaluate have the property
`P`.  The parts of a task have no other names than the task, so a property of its names is
one of all names that are read or bound in its context.  The bodies of functions are not
among the parts: they are evaluated in environments of their own.

* `Task.names_sequence`, `Task.names_read`: the names of the parts, and of what is read.
* `Evaluates.keepsBinding`: a name that is not in a task keeps its binding.
-/

namespace ExprScript

/-- The names in what is left of a tree to evaluate have a property. -/
def Task.Names (P : String → Prop) : Task → Prop
  | .expr e => e.Names P
  | .rightOperand _ _ e => e.Names P
  | .arguments _ _ es => Expr.NamesAll P es
  | .apply _ _ => True
  | .stmt s => s.Names P
  | .stmts _ ss => Stmt.NamesAll P ss
  | .store name _ => P name
  | .program p => Stmt.NamesAll P p
  | .value _ => True

namespace Task

variable {P : String → Prop} {limit : Nat} {c : Context} {h : Heap} {t first : Task}
  {next : Value → Task} {name : String}

theorem names_branch (v : Value) {consequence : Block} {alternative : Option Block}
    (hc : consequence.Names P) (ha : Block.NamesOption P alternative) :
    (branch v consequence alternative).Names P := by
  unfold branch
  split
  · exact Block.names_iff.mp hc
  · cases alternative with
    | none => trivial
    | some b => exact Block.names_iff.mp ha

theorem names_sequence (ht : t.Names P) (hp : t.plan limit c h = .sequence first next) :
    first.Names P ∧ ∀ v, (next v).Names P := by
  cases splits_of_plan hp with
  | prefixed op operand line => exact ⟨ht, fun _ => trivial⟩
  | infixed left op right line => exact ⟨ht.1, fun _ => ht.2⟩
  | conditional condition consequence alternative line =>
    exact ⟨ht.1, fun v => names_branch v ht.2.1 ht.2.2⟩
  | call callee args line => exact ⟨ht.1, fun _ => ht.2⟩
  | rightOperand left op right => exact ⟨ht, fun _ => trivial⟩
  | argument callee done e es => exact ⟨ht.1, fun _ => ht.2⟩
  | bind target e line => exact ⟨ht.2, fun _ => ht.1⟩
  | ret e line => exact ⟨ht, fun _ => trivial⟩
  | exprStmt e line => exact ⟨ht, fun _ => trivial⟩
  | block body => exact ⟨Block.names_iff.mp ht, fun _ => trivial⟩
  | statement last s ss => exact ⟨ht.1, fun _ => ht.2⟩

theorem names_read (ht : t.Names P) (hp : t.plan limit c h = .read name) : P name := by
  obtain ⟨id, rfl, rfl⟩ := plan_read hp
  exact ht

end Task

/-! ### Bindings of other names -/

namespace Heap

variable {env : EnvId} {name : String} {h h₁ h' : Heap}

/-- An environment of the first heap binds the name in the second one as it did. -/
def KeepsBinding (env : EnvId) (name : String) (h h' : Heap) : Prop :=
  ∀ e, h.environment? env = some e →
    ∃ e', h'.environment? env = some e' ∧ e'.get? name = e.get? name

theorem KeepsBinding.trans (hk : KeepsBinding env name h h₁)
    (hk' : KeepsBinding env name h₁ h') : KeepsBinding env name h h' := by
  intro e he
  obtain ⟨e₁, he₁, hb⟩ := hk e he
  obtain ⟨e', he', hb'⟩ := hk' e₁ he₁
  exact ⟨e', he', hb'.trans hb⟩

theorem Unchanged.keepsBinding (hu : h.Unchanged h') : KeepsBinding env name h h' :=
  fun e he => ⟨e, hu env e he, rfl⟩

theorem keepsBinding_insert {other : String} (hn : other ≠ name) (v : Value) :
    KeepsBinding env name h (h.insert env other v) := by
  intro e he
  refine ⟨e.insert other v, ?_, Environment.get?_insert_of_ne e hn.symm v⟩
  rw [environment?_insert_self, he, Option.map_some]

end Heap

/-- **A name that is not in a task keeps its binding** in the environment that the task is
done in.  The bodies of functions may bind it: they do so in environments of their own. -/
theorem Evaluates.keepsBinding {reads : Reading} {limit : Nat} {c : Context} {h h' : Heap}
    {t : Task} {v : Value} {name : String} (he : Evaluates reads limit c h t v h')
    (ht : t.Names (· ≠ name)) : Heap.KeepsBinding c.env name h h' := by
  induction he with
  | @done c h h' t v hp =>
    rcases Task.plan_done hp with
      ⟨rfl, -⟩ | ⟨parameters, body, -, -, -, rfl⟩ | ⟨other, w, rfl, -, rfl⟩
    · exact fun e he => ⟨e, he, rfl⟩
    · exact (h.unchanged_addClosure parameters body c.env).keepsBinding
    · exact Heap.keepsBinding_insert ht w
  | read _ _ => exact fun e he => ⟨e, he, rfl⟩
  | stop hp _ _ ih => exact ih (Task.names_sequence ht hp).1
  | next hp _ _ _ ih₁ ih₂ =>
    obtain ⟨hfirst, hnext⟩ := Task.names_sequence ht hp
    exact (ih₁ hfirst).trans (ih₂ (hnext _))
  | enclosed hp hbody ih =>
    rcases Task.plan_enclosed hp with ⟨rfl, rfl, p, rfl, rfl⟩ | ⟨f, args, -, -, rfl, rfl, -⟩
    · exact ih ht
    · exact (Heap.unchanged_of_enter hbody.changesOnly).keepsBinding

end ExprScript
