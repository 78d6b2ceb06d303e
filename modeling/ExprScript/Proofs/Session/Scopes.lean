import ExprScript.Proofs.Session.Layout

/-!
# Scopes follow the text

The environment of a call is inside the one in which the function was made, not inside that of
the caller.  So how many environments are around each other is told by the text: where function
literals are nested to a depth of `n`, there are at most `n` environments on the way from any
environment out to the global one (`scope_chains_follow_nesting`).  How deep the recursion is
and where functions are passed to or kept makes no difference.

The invariant ties every function value to the nesting in its body: the chain of its environment
and the nesting that is still in the body together are not more than `n` (`Value.Fits`).  A
literal gives such a value where the task that it is a part of has room for it
(`Config.Fits.room`), and a call uses one level of nesting for one more environment.

* `Evaluates.fits`: evaluation keeps the invariant.
* `Heap.OuterChain`: the way out, along the links.
* `scope_chains_follow_nesting`: every point of a session.
-/

namespace ExprScript

/-! ### Nesting of functions -/

mutual

def Expr.functionDepth : Expr → Nat
  | .identifier _ => 0
  | .integer _ _ => 0
  | .boolean _ _ => 0
  | .prefixed _ operand _ => operand.functionDepth
  | .infixed left _ right _ => max left.functionDepth right.functionDepth
  | .conditional condition consequence none _ =>
    max condition.functionDepth consequence.functionDepth
  | .conditional condition consequence (some alternative) _ =>
    max condition.functionDepth (max consequence.functionDepth alternative.functionDepth)
  | .function _ body _ => body.functionDepth + 1
  | .call callee arguments _ => max callee.functionDepth (Expr.functionDepthAll arguments)

def Expr.functionDepthAll : List Expr → Nat
  | [] => 0
  | e :: es => max e.functionDepth (Expr.functionDepthAll es)

def Stmt.functionDepth : Stmt → Nat
  | .bind _ value _ => value.functionDepth
  | .ret value _ => value.functionDepth
  | .expr value _ => value.functionDepth
  | .block body => body.functionDepth

def Stmt.functionDepthAll : List Stmt → Nat
  | [] => 0
  | s :: ss => max s.functionDepth (Stmt.functionDepthAll ss)

def Block.functionDepth : Block → Nat
  | .mk statements _ => Stmt.functionDepthAll statements

end

theorem Block.functionDepth_eq (b : Block) :
    b.functionDepth = Stmt.functionDepthAll b.statements := by
  cases b
  rfl

namespace Task

def functionDepth : Task → Nat
  | .expr e => e.functionDepth
  | .rightOperand _ _ e => e.functionDepth
  | .arguments _ _ es => Expr.functionDepthAll es
  | .apply _ _ => 0
  | .stmt s => s.functionDepth
  | .stmts _ ss => Stmt.functionDepthAll ss
  | .store _ _ => 0
  | .program p => Stmt.functionDepthAll p
  | .value _ => 0

theorem functionDepth_branch_le (v : Value) (condition : Expr) (consequence : Block)
    (alternative : Option Block) (line : Nat) :
    (branch v consequence alternative).functionDepth ≤
      (Expr.conditional condition consequence alternative line).functionDepth := by
  have hc := consequence.functionDepth_eq
  cases alternative with
  | none =>
    unfold branch
    split
    · simp only [functionDepth, Expr.functionDepth]
      omega
    · exact Nat.zero_le _
  | some b =>
    have hb := b.functionDepth_eq
    unfold branch
    split
    · simp only [functionDepth, Expr.functionDepth]
      omega
    · simp only [functionDepth, Expr.functionDepth]
      omega

theorem Splits.functionDepth_le {t first : Task} {next : Value → Task} (hs : t.Splits first next) :
    first.functionDepth ≤ t.functionDepth ∧ ∀ v, (next v).functionDepth ≤ t.functionDepth := by
  cases hs with
  | prefixed op operand line => exact ⟨Nat.le_refl _, fun _ => Nat.zero_le _⟩
  | infixed left op right line => exact ⟨Nat.le_max_left _ _, fun _ => Nat.le_max_right _ _⟩
  | conditional condition consequence alternative line =>
    refine ⟨?_, fun v => functionDepth_branch_le v condition consequence alternative line⟩
    cases alternative with
    | none => exact Nat.le_max_left _ _
    | some b => exact Nat.le_max_left _ _
  | call callee args line => exact ⟨Nat.le_max_left _ _, fun _ => Nat.le_max_right _ _⟩
  | rightOperand left op right => exact ⟨Nat.le_refl _, fun _ => Nat.zero_le _⟩
  | argument callee done e es => exact ⟨Nat.le_max_left _ _, fun _ => Nat.le_max_right _ _⟩
  | bind target e line => exact ⟨Nat.le_refl _, fun _ => Nat.zero_le _⟩
  | ret e line => exact ⟨Nat.le_refl _, fun _ => Nat.zero_le _⟩
  | exprStmt e line => exact ⟨Nat.le_refl _, fun _ => Nat.zero_le _⟩
  | block body => exact ⟨Nat.le_of_eq body.functionDepth_eq.symm, fun _ => Nat.zero_le _⟩
  | statement last s ss => exact ⟨Nat.le_max_left _ _, fun _ => Nat.le_max_right _ _⟩

end Task

/-! ### Room for functions -/

/-- A function's environments and the nesting in its body are together not more than `n`. -/
def Value.Fits (h : Heap) (n : Nat) : Value → Prop
  | .function f => h.Has f.env ∧ (h.chain f.env).length + f.body.functionDepth ≤ n
  | .pendingReturn v => v.Fits h n
  | _ => True

/-- No environment has more than `n` around it, and all functions fit. -/
structure Heap.Fits (h : Heap) (n : Nat) : Prop where
  enclosing : ∀ env e, h.environment? env = some e → e.enclosing.length ≤ n
  value : ∀ env e name v, h.environment? env = some e → e.get? name = some v → v.Fits h n

def Task.Fits (h : Heap) (n : Nat) : Task → Prop
  | .rightOperand left _ _ => left.Fits h n
  | .arguments callee done _ => callee.Fits h n ∧ ∀ v ∈ done, v.Fits h n
  | .apply callee args => callee.Fits h n ∧ ∀ v ∈ args, v.Fits h n
  | .stmts last _ => last.Fits h n
  | .store _ v => v.Fits h n
  | .value v => v.Fits h n
  | .expr _ | .stmt _ | .program _ => True

/-- There is room for the functions that will be made, and all that there are fit. -/
structure Config.Fits (n : Nat) (x : Config) : Prop where
  env : x.heap.Has x.context.env
  heap : x.heap.Fits n
  task : x.task.Fits x.heap n
  room : (x.heap.chain x.context.env).length + x.task.functionDepth ≤ n + 1

section
variable {n limit : Nat} {c c' : Context} {h h' : Heap} {t t' first : Task} {next : Value → Task}
  {v : Value}

theorem Value.IsResult.fits (hv : v.IsResult) (h : Heap) (n : Nat) : v.Fits h n := by
  rcases hv with ⟨m, rfl⟩ | ⟨b, rfl⟩ | ⟨e, rfl⟩
  · trivial
  · trivial
  · trivial

theorem Value.Fits.unwrapReturn (hv : v.Fits h n) : v.unwrapReturn.Fits h n := by
  cases v with
  | pendingReturn w => exact hv
  | _ => exact hv

namespace Heap

/-- All environments of the first heap are in the second one, with the same chains. -/
def KeepsChains (h h' : Heap) : Prop :=
  ∀ env, h.Has env → h'.Has env ∧ h'.chain env = h.chain env

theorem ChangesOnly.keepsChains {env : EnvId} (hc : h.ChangesOnly env h') : h.KeepsChains h' := by
  intro other ho
  refine ⟨ho.of_changesOnly hc, ?_⟩
  obtain ⟨e, he⟩ := has_iff.mp ho
  by_cases hn : other = env
  · subst hn
    obtain ⟨e', he', hx⟩ := hc.own e he
    rw [chain_of_some he, chain_of_some he', hx.enclosing]
  · rw [chain_of_some he, chain_of_some (hc.others other e hn he)]

theorem KeepsChains.fits (hk : h.KeepsChains h') (hv : v.Fits h n) : v.Fits h' n := by
  induction v with
  | function f =>
    obtain ⟨henv, hroom⟩ := hv
    obtain ⟨henv', hchain⟩ := hk f.env henv
    exact ⟨henv', by rwa [hchain]⟩
  | pendingReturn v ih => exact ih hv
  | _ => trivial

theorem SameLinks.exists_environment {env : EnvId} {e' : Environment} (hs : h.SameLinks h')
    (he : h'.environment? env = some e') :
    ∃ e, h.environment? env = some e ∧ e.enclosing = e'.enclosing := by
  have hmap := hs env
  rw [he, Option.map_some] at hmap
  exact Option.map_eq_some_iff.mp hmap.symm

theorem Fits.insert (hh : h.Fits n) (env : EnvId) (name : String) (hv : v.Fits h n) :
    (h.insert env name v).Fits n := by
  have hk := (h.changesOnly_insert env name v).keepsChains
  have hstored : (h.insert env name v).Stores (·.Fits h n) := Stores.insert hh.value env name hv
  refine ⟨fun other e' he => ?_, fun other e' name' w he hw => ?_⟩
  · obtain ⟨e, he, henc⟩ := (h.sameLinks_insert env name v).exists_environment he
    rw [← henc]
    exact hh.enclosing other e he
  · exact hk.fits (hstored other e' name' w he hw)

theorem Fits.addClosure (hh : h.Fits n) (parameters : List Identifier) (body : Block)
    (env : EnvId) : (h.addClosure parameters body env).2.Fits n := by
  have hk : h.KeepsChains (h.addClosure parameters body env).2 := fun _ ho => ⟨ho, rfl⟩
  exact ⟨hh.enclosing, fun other e name v he hv => hk.fits (hh.value other e name v he hv)⟩

theorem chain_enter (h : Heap) (f : Closure) (args : List Value) :
    (h.enter f args).2.chain (h.enter f args).1 = (h.enter f args).1 :: h.chain f.env := by
  have he : (h.enter f args).2.environment? (h.enter f args).1 = some _ :=
    environment?_add_self _ _
  rw [chain_of_some he, Environment.enclosing_insertAll]
  rfl

/-- A call makes an environment with one more around it than that of the function has. -/
theorem Fits.enter (hh : h.Fits n) {f : Closure} (hf : (Value.function f).Fits h n)
    {args : List Value} (ha : ∀ v ∈ args, v.Fits h n) : (h.enter f args).2.Fits n := by
  have hk := ((h.unchanged_enter f args).changesOnly f.env).keepsChains
  have hstored : (h.enter f args).2.Stores (·.Fits h n) := Stores.enter hh.value f ha
  refine ⟨fun env e he => ?_, fun env e name v he hv => hk.fits (hstored env e name v he hv)⟩
  rcases environment?_enter_eq_some he with he | ⟨-, henc, -⟩
  · exact hh.enclosing env e he
  · rw [henc]
    exact Nat.le_trans (Nat.le_add_right _ _) hf.2

theorem Fits.chain_le (hh : h.Fits n) {env : EnvId} (henv : h.Has env) :
    (h.chain env).length ≤ n + 1 := by
  obtain ⟨e, he⟩ := has_iff.mp henv
  rw [chain_of_some he]
  exact Nat.succ_le_succ (hh.enclosing env e he)

theorem Finds.bound {env : EnvId} {name : String} {r : Option Value} (hr : h.Finds env name r) :
    ∀ v ∈ r, ∃ env' e, h.environment? env' = some e ∧ e.get? name = some v := by
  induction hr with
  | @here env e name v he hv =>
    rintro w ⟨⟩
    exact ⟨env, e, he, hv⟩
  | outer _ _ _ _ ih => exact ih
  | unbound _ _ _ => simp

end Heap

/-! ### Evaluation -/

namespace Task

theorem fits_branch (h : Heap) (n : Nat) (v : Value) (consequence : Block)
    (alternative : Option Block) : (branch v consequence alternative).Fits h n := by
  unfold branch
  split
  · trivial
  · cases alternative <;> trivial

theorem fits_done (hx : Config.Fits n ⟨c, h, t⟩) (hp : t.plan limit c h = .done v h') :
    v.Fits h' n ∧ h'.Fits n := by
  rcases plan_done hp with ⟨rfl, hv | rfl | rfl⟩ | ⟨parameters, body, line, rfl, rfl, rfl⟩ |
    ⟨name, w, rfl, rfl, rfl⟩
  · exact ⟨hv.fits _ n, hx.heap⟩
  · exact ⟨hx.task, hx.heap⟩
  · exact ⟨hx.task, hx.heap⟩
  · -- there is room for the literal, whose body is nested one level less
    exact ⟨⟨hx.env, Nat.le_of_succ_le_succ hx.room⟩, hx.heap.addClosure parameters body c.env⟩
  · exact ⟨trivial, hx.heap.insert c.env name hx.task⟩

theorem fits_sequence (ht : t.Fits h n) (hp : t.plan limit c h = .sequence first next) :
    first.Fits h n ∧ ∀ h' v, h.KeepsChains h' → v.Fits h' n → (next v).Fits h' n := by
  cases splits_of_plan hp with
  | prefixed op operand line => exact ⟨trivial, fun h' v _ _ => (op.isResult_apply v).fits h' n⟩
  | conditional condition consequence alternative line =>
    exact ⟨trivial, fun h' v _ _ => fits_branch h' n v consequence alternative⟩
  | call callee args line => exact ⟨trivial, fun _ _ _ hv => ⟨hv, by simp⟩⟩
  | rightOperand left op right =>
    exact ⟨trivial, fun h' v _ _ => (op.isResult_apply left v).fits h' n⟩
  | argument callee done e es =>
    refine ⟨trivial, fun h' v hk hv => ⟨hk.fits ht.1, fun w hw => ?_⟩⟩
    rcases List.mem_append.mp hw with hw | hw
    · exact hk.fits (ht.2 w hw)
    · rwa [List.mem_singleton.mp hw]
  -- the value is all that is handed on
  | _ => exact ⟨trivial, fun _ _ _ hv => hv⟩

/-- In the body of a function there is one environment more and one level of nesting less. -/
theorem fits_enclosed (hx : Config.Fits n ⟨c, h, t⟩)
    (hp : t.plan limit c h = .enclosed c' h' t') : Config.Fits n ⟨c', h', t'⟩ := by
  rcases plan_enclosed hp with ⟨rfl, rfl, p, rfl, rfl⟩ | ⟨f, args, hcall, -, rfl, rfl, rfl⟩
  · exact ⟨hx.env, hx.heap, trivial, hx.room⟩
  · have ht : (Value.function f).Fits h n ∧ ∀ v ∈ args, v.Fits h n := by
      rcases hcall with rfl | rfl
      · exact hx.task
      · exact hx.task
    have henv : (h.enter f args).2.Has (h.enter f args).1 :=
      Heap.has_iff.mpr ⟨_, Heap.environment?_add_self _ _⟩
    refine ⟨henv, hx.heap.enter ht.1 ht.2, trivial, ?_⟩
    rw [h.chain_enter, functionDepth, ← Block.functionDepth_eq, List.length_cons,
      Nat.add_right_comm]
    exact Nat.succ_le_succ ht.1.2

end Task

theorem Config.Fits.firstTask (hx : Config.Fits n ⟨c, h, t⟩)
    (hp : t.plan limit c h = .sequence first next) : Config.Fits n ⟨c, h, first⟩ := by
  have hle := (Task.splits_of_plan hp).functionDepth_le.1
  exact ⟨hx.env, hx.heap, (Task.fits_sequence hx.task hp).1,
    Nat.le_trans (Nat.add_le_add_left hle _) hx.room⟩

theorem Config.Fits.nextTask (hx : Config.Fits n ⟨c, h, t⟩)
    (hp : t.plan limit c h = .sequence first next) (hk : h.KeepsChains h') (hv : v.Fits h' n)
    (hh : h'.Fits n) : Config.Fits n ⟨c, h', next v⟩ := by
  have hle := (Task.splits_of_plan hp).functionDepth_le.2 v
  obtain ⟨henv, hchain⟩ := hk c.env hx.env
  refine ⟨henv, hh, (Task.fits_sequence hx.task hp).2 h' v hk hv, ?_⟩
  rw [show h'.chain c.env = _ from hchain]
  exact Nat.le_trans (Nat.add_le_add_left hle _) hx.room

/-- **Evaluation keeps room for functions**, and what it gives fits. -/
theorem Evaluates.fits (he : Evaluates Heap.Follows limit c h t v h')
    (hx : Config.Fits n ⟨c, h, t⟩) : v.Fits h' n ∧ h'.Fits n := by
  induction he with
  | done hp => exact Task.fits_done hx hp
  | @read c h t name v hp hr =>
    obtain ⟨r, hfind, rfl⟩ := hr
    refine ⟨?_, hx.heap⟩
    cases r with
    | none => trivial
    | some w =>
      obtain ⟨env, e, he, hw⟩ := hfind.bound w rfl
      exact hx.heap.value env e name w he hw
  | stop hp _ _ ih => exact ih (hx.firstTask hp)
  | next hp he _ _ ih₁ ih₂ =>
    obtain ⟨hv, hh⟩ := ih₁ (hx.firstTask hp)
    exact ih₂ (hx.nextTask hp he.changesOnly.keepsChains hv hh)
  | enclosed hp _ ih =>
    obtain ⟨hv, hh⟩ := ih (Task.fits_enclosed hx hp)
    exact ⟨hv.unwrapReturn, hh⟩

theorem Config.Needs.fits {x y : Config} (hn : x.Needs Heap.Follows limit y) (hx : x.Fits n) :
    y.Fits n := by
  cases hn with
  | first hp => exact hx.firstTask hp
  | next hp he _ =>
    obtain ⟨hv, hh⟩ := he.fits (hx.firstTask hp)
    exact hx.nextTask hp he.changesOnly.keepsChains hv hh
  | enclosed hp => exact Task.fits_enclosed hx hp

theorem Config.Reaches.fits {x y : Config} (hr : x.Reaches Heap.Follows limit y) (hx : x.Fits n) :
    y.Fits n := by
  induction hr with
  | refl => exact hx
  | tail _ hn ih => exact hn.fits ih

end

/-! ### The way out -/

namespace Heap

variable {h : Heap} {global env : EnvId}

/-- The environments on the way from one out to the global one, along the links. -/
inductive OuterChain (h : Heap) (global : EnvId) : EnvId → List EnvId → Prop where
  | global {e : Environment} : h.environment? global = some e → e.outer? = none →
      OuterChain h global global [global]
  | inside {env outer : EnvId} {e : Environment} {scopes : List EnvId} :
      h.environment? env = some e → e.outer? = some outer → OuterChain h global outer scopes →
      OuterChain h global env (env :: scopes)

/-- Only the global environment is inside no other one. -/
def Rooted (global : EnvId) (h : Heap) : Prop :=
  ∀ env e, h.environment? env = some e → e.outer? = none → env = global

theorem linkInvariant_rooted (global : EnvId) : LinkInvariant (Rooted global) := by
  refine ⟨fun h h' hs hr env e' he ho => ?_, fun h f args _ _ hr env e he ho => ?_⟩
  · obtain ⟨e, he, henc⟩ := hs.exists_environment he
    exact hr env e he (by rw [Environment.outer?, henc]; exact ho)
  · rcases environment?_enter_eq_some he with he | ⟨-, henc, -⟩
    · exact hr env e he ho
    · rw [Environment.outer?, henc] at ho
      simp [chain] at ho

theorem LinkInvariant.and {I J : Heap → Prop} (hI : LinkInvariant I) (hJ : LinkInvariant J) :
    LinkInvariant fun h => I h ∧ J h :=
  ⟨fun h h' hs hij => ⟨hI.sameLinks h h' hs hij.1, hJ.sameLinks h h' hs hij.2⟩,
    fun h f args hc hf hij => ⟨hI.enter h f args hc hf hij.1, hJ.enter h f args hc hf hij.2⟩⟩

/-- The recorded chain is the way out. -/
theorem outerChain_chain (hc : h.Closed) (hl : h.Linked) (hr : h.Rooted global) (henv : h.Has env) :
    h.OuterChain global env (h.chain env) := by
  induction env using hl.acyclic.induction with
  | h env ih =>
    obtain ⟨e, he⟩ := has_iff.mp henv
    rw [chain_of_some he]
    cases ho : e.outer? with
    | none =>
      obtain rfl := hr env e he ho
      rw [List.head?_eq_none_iff.mp ho]
      exact .global he ho
    | some outer =>
      have hout : h.Outer outer env := ⟨e, he, ho⟩
      rw [hl env e outer he ho]
      exact .inside he ho (ih outer hout (hc.outer env outer hout))

end Heap

/-! ### Sessions -/

namespace Session

/-- A session in its global environment, with room for functions nested to a depth of `n`. -/
structure Fits (n : Nat) (s : Session) : Prop where
  closed : s.Closed
  rooted : s.heap.Rooted s.current.env
  heap : s.heap.Fits n
  env : s.heap.chain s.current.env = [s.current.env]

theorem fits_start (n : Nat) : start.Fits n := by
  have hglobal {env : EnvId} {e : Environment} (he : start.heap.environment? env = some e) :
      env = start.current.env ∧ e = .empty [] := by
    rcases Heap.environment?_add_eq_some he with he | ⟨henv, rfl⟩
    · simp [Heap.environment?, Heap.empty] at he
    · exact ⟨henv, rfl⟩
  refine ⟨closed_start, fun env e he _ => (hglobal he).1, ⟨fun env e he => ?_, ?_⟩, rfl⟩
  · rw [(hglobal he).2]
    exact Nat.zero_le n
  · intro env e name v he hv
    rw [(hglobal he).2] at hv
    simp [Environment.get?, Environment.empty] at hv

variable {n : Nat} {s : Session} {source : String}

/-- There is room for a text in which functions are nested to a depth of `n`. -/
theorem Fits.config (hs : s.Fits n) (hn : Stmt.functionDepthAll (parse source).program ≤ n) :
    (s.config source).Fits n := by
  refine ⟨hs.closed.env, hs.heap, trivial, ?_⟩
  show (s.heap.chain s.current.env).length + Stmt.functionDepthAll (parse source).program ≤ n + 1
  rw [hs.env, List.length_singleton, Nat.add_comm]
  exact Nat.succ_le_succ hn

theorem Fits.evaluateSource (hs : s.Fits n)
    (hn : (parse source).errors = [] → Stmt.functionDepthAll (parse source).program ≤ n) :
    (s.evaluateSource source).2.Fits n := by
  have hclosed := hs.closed.evaluateSource source
  by_cases hp : (parse source).errors = []
  · have hx : (s.config source).Closed := ⟨hs.closed.env, hs.closed.heap, trivial⟩
    obtain ⟨v, h', he⟩ := exists_evaluates_follows maxCallDepth hx hs.closed.linked.acyclic
    have hrun : ((s.config source).outcome maxCallDepth).2 = h' :=
      congrArg Prod.snd (he.run_eq_of_linked hx hs.closed.linked)
    rw [evaluateSource_of_parse hp, hrun] at hclosed ⊢
    have hrooted := (he.closed (Heap.linkInvariant_rooted s.current.env) hx hs.rooted).2.2
    obtain ⟨-, hchain⟩ := he.changesOnly.keepsChains s.current.env hs.closed.env
    exact ⟨hclosed, hrooted, (he.fits (hs.config (hn hp))).2, hchain.trans hs.env⟩
  · rw [evaluateSource_of_errors hp]
    exact hs

theorem fits_after {sources : List String} (hs : s.Fits n) (hn : ∀ source ∈ sources,
    (parse source).errors = [] → Stmt.functionDepthAll (parse source).program ≤ n) :
    (s.after sources).Fits n := by
  induction sources generalizing s with
  | nil => exact hs
  | cons source sources ih =>
    exact ih (hs.evaluateSource (hn source List.mem_cons_self))
      fun source' h => hn source' (List.mem_cons_of_mem _ h)

end Session

/-- From every environment the links lead out to the global one, past at most `k`
environments, itself and the global one included. -/
def Heap.ChainsWithin (h : Heap) (global : EnvId) (k : Nat) : Prop :=
  ∀ env, h.Has env → ∃ scopes, h.OuterChain global env scopes ∧ scopes.length ≤ k

/-- **Chains of environments follow the nesting of the text.**  Where function literals are
nested to a depth of at most `n` in all texts that a session has evaluated, the way out from
every environment that was ever made leads past at most `n + 1`, and the same holds wherever
evaluation of a further text gets to. -/
theorem scope_chains_follow_nesting {n : Nat} {sources : List String} {source : String}
    (h : ∀ text ∈ source :: sources, (parse text).errors = [] →
      Stmt.functionDepthAll (parse text).program ≤ n) :
    let s := Session.start.after sources
    s.heap.ChainsWithin s.current.env (n + 1) ∧
    ((parse source).errors = [] → ∀ y, (s.config source).Reaches Heap.Follows maxCallDepth y →
      y.heap.ChainsWithin s.current.env (n + 1)) := by
  intro s
  have hs : s.Fits n := Session.fits_after (Session.fits_start n) fun text ht =>
    h text (List.mem_cons_of_mem _ ht)
  refine ⟨fun env henv => ?_, fun hp y hy env henv => ?_⟩
  · exact ⟨_, Heap.outerChain_chain hs.closed.heap hs.closed.linked hs.rooted henv,
      hs.heap.chain_le henv⟩
  · have hx : (s.config source).Closed := ⟨hs.closed.env, hs.closed.heap, trivial⟩
    obtain ⟨hclosed, hlinked, hrooted⟩ := hy.closed
      (Heap.linkInvariant_linked.and (Heap.linkInvariant_rooted s.current.env))
      ⟨hx, hs.closed.linked, hs.rooted⟩
    have hfits := hy.fits (hs.config (h source List.mem_cons_self hp))
    exact ⟨_, Heap.outerChain_chain hclosed.heap hlinked hrooted henv, hfits.heap.chain_le henv⟩

/-- A recursive function is called five times and a function that gives a function once; no way
out leads past more than three environments. -/
theorem scope_chains_follow_nesting_recursion :
    let sources := ["let add = fn(x) { fn(y) { x + y } }; let inc = add(1)",
      "let fib = fn(n) { if (n < 2) { n } else { fib(n - 1) + fib(n - 2) } }; inc(fib(3))"]
    let s := Session.start.after sources
    s.heap.environments.size = 8 ∧ s.heap.ChainsWithin s.current.env 3 := by
  intro sources s
  obtain ⟨h, hsize⟩ : (∀ text ∈ "inc(1)" :: sources, (parse text).errors = [] →
      Stmt.functionDepthAll (parse text).program ≤ 2) ∧ s.heap.environments.size = 8 := by
    decide +kernel
  exact ⟨hsize, (scope_chains_follow_nesting h).1⟩

end ExprScript
