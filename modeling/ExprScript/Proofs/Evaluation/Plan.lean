import ExprScript.Eval

/-!
# Evaluation taken apart

A `Task` is what there can be to do in one context: a tree to evaluate, or the
rest of one whose first parts have been evaluated.  `Task.plan` says how a task is
done.  Either it is done at once, or a name is read, or one task comes first and
another one follows with its value, or a task is done whose pending return ends
here.

All that evaluation does is said by `Task.plan` and one equation.

* `Task.run_eq`: the evaluator does every task as it is planned.
* `Task.plan_done`: all that can be done to the heap.
* `Task.splits_of_plan`, `Task.plan_enclosed`: all the tasks that a task is planned with.
* `Task.plan_sequence`: they are smaller, but for the body of a function, which is one
  call deeper.
-/

namespace ExprScript

/-- What there is to do in one context. -/
inductive Task where
  | expr (e : Expr)
  /-- The right operand, then the operator. -/
  | rightOperand (left : Value) (op : InfixOp) (right : Expr)
  /-- The arguments that are left, then the call. -/
  | arguments (callee : Value) (done : List Value) (todo : List Expr)
  | apply (callee : Value) (arguments : List Value)
  | stmt (s : Stmt)
  /-- Statements, after one with the given value. -/
  | stmts (last : Value) (ss : List Stmt)
  | store (name : String) (v : Value)
  | program (p : Program)
  | value (v : Value)

/-- How a task is done. -/
inductive Plan where
  | done (v : Value) (h : Heap)
  | read (name : String)
  /-- One task, then another one unless the value of the first one interrupts. -/
  | sequence (first : Task) (next : Value → Task)
  /-- A task whose pending return ends here. -/
  | enclosed (c : Context) (h : Heap) (t : Task)

/-- The heap with the environment of a call, in which the parameters are bound. -/
def Heap.enter (h : Heap) (f : Closure) (args : List Value) : EnvId × Heap :=
  h.addInside f.env ((f.parameters.map Identifier.name).zip args)

namespace Task

def branch (condition : Value) (consequence : Block) (alternative : Option Block) : Task :=
  if condition.isTruthy then
    .stmts .null consequence.statements
  else
    match alternative with
    | some b => .stmts .null b.statements
    | none => .value .null

def callPlan (limit : Nat) (c : Context) (h : Heap) (callee : Value) (args : List Value) :
    Plan :=
  match callee.callable args with
  | .error e => .done e.toValue h
  | .ok f =>
    if c.depth < limit then
      let r := h.enter f args
      .enclosed ⟨r.1, c.depth + 1⟩ r.2 (.stmts .null f.body.statements)
    else
      .done (RuntimeError.recursionLimitExceeded limit).toValue h

def plan (limit : Nat) (c : Context) (h : Heap) : Task → Plan
  | .expr (.identifier id) => .read id.name
  | .expr (.integer n _) => .done (.integer n) h
  | .expr (.boolean b _) => .done (.boolean b) h
  | .expr (.prefixed op operand _) => .sequence (.expr operand) fun v => .value (op.apply v)
  | .expr (.infixed left op right _) => .sequence (.expr left) fun l => .rightOperand l op right
  | .expr (.conditional condition consequence alternative _) =>
    .sequence (.expr condition) fun v => branch v consequence alternative
  | .expr (.function parameters body _) =>
    let r := h.addClosure parameters body c.env
    .done (.function r.1) r.2
  | .expr (.call callee args _) => .sequence (.expr callee) fun f => .arguments f [] args
  | .rightOperand left op right => .sequence (.expr right) fun r => .value (op.apply left r)
  | .arguments callee done [] => callPlan limit c h callee done
  | .arguments callee done (e :: es) =>
    .sequence (.expr e) fun v => .arguments callee (done ++ [v]) es
  | .apply callee args => callPlan limit c h callee args
  | .stmt (.bind target e _) => .sequence (.expr e) fun v => .store target.name v
  | .stmt (.ret e _) => .sequence (.expr e) fun v => .value (.pendingReturn v)
  | .stmt (.expr e _) => .sequence (.expr e) .value
  | .stmt (.block body) => .sequence (.stmts .null body.statements) .value
  | .stmts last [] => .done last h
  | .stmts _ (s :: ss) => .sequence (.stmt s) fun v => .stmts v ss
  | .store name v => .done .null (h.insert c.env name v)
  | .program p => .enclosed c h (.stmts .null p)
  | .value v => .done v h

/-! ### The evaluator -/

def run (limit : Nat) (c : Context) : Task → Eval Value
  | .expr e => c.evalExpressionWithin limit e
  | .rightOperand left op right => do
    let r ← c.evalExpressionWithin limit right
    r.andThen fun r => return op.apply left r
  | .arguments callee done todo => do
    match ← evalArguments (c.applyFunctionWithin limit) c.env todo with
    | .error v => return v
    | .ok values => c.applyFunctionWithin limit callee (done ++ values)
  | .apply callee args => c.applyFunctionWithin limit callee args
  | .stmt s => c.evalStatementWithin limit s
  | .stmts last ss => evalStmts (c.applyFunctionWithin limit) c.env last ss
  | .store name v => do
    modify fun h => h.insert c.env name v
    return .null
  | .program p => c.evalProgramWithin limit p
  | .value v => return v

/-- The evaluator on a task that is planned in the given way, if it does the tasks
of the plan. -/
def follow (limit : Nat) (c : Context) (h : Heap) : Plan → Value × Heap
  | .done v h' => (v, h')
  | .read name => (h.valueOf c.env name, h)
  | .sequence first next =>
    let r := (first.run limit c).run h
    if r.1.interrupts then r else ((next r.1).run limit c).run r.2
  | .enclosed c' h' t =>
    let r := (t.run limit c').run h'
    (r.1.unwrapReturn, r.2)

theorem run_andThen (x : Eval Value) (next : Value → Eval Value) (h : Heap) :
    (x >>= fun v => v.andThen next).run h =
      if (x.run h).1.interrupts then x.run h else (next (x.run h).1).run (x.run h).2 := by
  show ((x.run h).1.andThen next).run (x.run h).2 = _
  rw [Value.andThen]
  split
  · rfl
  · rfl

theorem run_block (limit : Nat) (c : Context) (b : Block) :
    (Task.stmts .null b.statements).run limit c = c.evalBlockWithin limit b := by
  cases b
  rfl

theorem run_callPlan (limit : Nat) (c : Context) (h : Heap) (callee : Value)
    (args : List Value) : (c.applyFunctionWithin limit callee args).run h =
      follow limit c h (callPlan limit c h callee args) := by
  rw [Context.applyFunctionWithin, callPlan]
  by_cases hd : c.depth < limit
  · obtain ⟨n, hn⟩ : ∃ n, limit - c.depth = n + 1 := ⟨limit - c.depth - 1, by omega⟩
    have hn' : limit - (c.depth + 1) = n := by omega
    rw [hn, applyWithin]
    cases callee.callable args with
    | error e => rfl
    | ok f =>
      obtain ⟨parameters, ⟨ss, line⟩, env, id⟩ := f
      -- the call inside has what is left of the limit there
      have happly (env : EnvId) : applyWithin limit n =
          Context.applyFunctionWithin limit ⟨env, c.depth + 1⟩ := by
        funext callee args
        rw [Context.applyFunctionWithin, hn']
      simp only [hd, if_true, follow, run, ← happly]
      rfl
  · have hn : limit - c.depth = 0 := by omega
    rw [hn, applyWithin]
    cases callee.callable args with
    | error e => rfl
    | ok f => simp only [hd, if_false]; rfl

/-- An interruption among the arguments is the value of the call. -/
theorem run_arguments_cons (limit : Nat) (c : Context) (callee : Value) (done : List Value)
    (e : Expr) (es : List Expr) : (Task.arguments callee done (e :: es)).run limit c =
      (c.evalExpressionWithin limit e >>= fun v =>
        v.andThen fun v => (Task.arguments callee (done ++ [v]) es).run limit c) := by
  simp only [run, evalArguments, bind_assoc, Context.evalExpressionWithin]
  refine bind_congr fun v => ?_
  rw [Value.andThen]
  split
  · rfl
  · simp only [bind_assoc, pure_bind]
    refine bind_congr fun vs => ?_
    cases vs with
    | error w => rfl
    | ok vs => simp only [Except.map, List.append_assoc, List.singleton_append]

/-- **The evaluator does every task as it is planned.** -/
theorem run_eq (limit : Nat) (c : Context) (h : Heap) (t : Task) :
    (t.run limit c).run h = follow limit c h (t.plan limit c h) := by
  cases t with
  | expr e =>
    cases e with
    | identifier id => rfl
    | integer n line => rfl
    | boolean b line => rfl
    | prefixed op operand line => exact run_andThen _ _ h
    | infixed left op right line => exact run_andThen _ _ h
    | conditional condition consequence alternative line =>
      cases alternative with
      | none =>
        refine (run_andThen _ _ h).trans ?_
        simp only [follow, plan, branch, apply_ite (run limit c), run_block]
        rfl
      | some b =>
        refine (run_andThen _ _ h).trans ?_
        simp only [follow, plan, branch, apply_ite (run limit c), run_block]
        rfl
    | function parameters body line => rfl
    | call callee args line => exact run_andThen _ _ h
  | rightOperand left op right => exact run_andThen _ _ h
  | arguments callee done todo =>
    cases todo with
    | nil =>
      rw [plan, ← run_callPlan, run]
      simp only [evalArguments, pure_bind, List.append_nil]
    | cons e es =>
      rw [run_arguments_cons]
      exact run_andThen _ _ h
  | apply callee args => exact run_callPlan ..
  | stmt s =>
    cases s with
    | bind target e line => exact run_andThen _ _ h
    | ret e line => exact run_andThen _ _ h
    | expr e line => exact (ite_self _).symm
    | block body =>
      cases body
      exact (ite_self _).symm
  | stmts last ss =>
    cases ss with
    | nil => rfl
    | cons s ss => exact run_andThen _ _ h
  | store name v => rfl
  | program p => rfl
  | value v => rfl

section
variable {limit : Nat} {c c' : Context} {h h' : Heap} {t t' first : Task} {next : Value → Task}
  {callee v : Value} {args : List Value} {name : String}

/-! ### What plans there are -/

/-- A call gives an error, or it is that of a function and goes one level deeper. -/
theorem callPlan_cases (limit : Nat) (c : Context) (h : Heap) (callee : Value)
    (args : List Value) :
    (∃ e : RuntimeError, callPlan limit c h callee args = .done e.toValue h) ∨
      ∃ f, callee = .function f ∧ c.depth < limit ∧ callPlan limit c h callee args =
        .enclosed ⟨(h.enter f args).1, c.depth + 1⟩ (h.enter f args).2
          (.stmts .null f.body.statements) := by
  rw [callPlan]
  cases hc : callee.callable args with
  | error e => exact Or.inl ⟨e, rfl⟩
  | ok f =>
    by_cases hd : c.depth < limit
    · simp only [hd, if_true]
      cases callee with
      | function g =>
        rw [Value.callable] at hc
        split at hc
        · exact Or.inr ⟨f, by rw [Except.ok.inj hc], trivial, rfl⟩
        · simp at hc
      | _ => simp [Value.callable] at hc
    · simp only [hd, if_false]
      exact Or.inl ⟨_, rfl⟩

theorem callPlan_done (hp : callPlan limit c h callee args = .done v h') :
    h' = h ∧ v.IsResult := by
  rcases callPlan_cases limit c h callee args with ⟨e, he⟩ | ⟨f, -, -, he⟩
  · obtain ⟨rfl, rfl⟩ := Plan.done.inj (he.symm.trans hp)
    exact ⟨rfl, Or.inr (Or.inr ⟨e, rfl⟩)⟩
  · rw [he] at hp
    simp at hp

theorem callPlan_enclosed (hp : callPlan limit c h callee args = .enclosed c' h' t') :
    ∃ f, callee = .function f ∧ c.depth < limit ∧ c' = ⟨(h.enter f args).1, c.depth + 1⟩ ∧
      h' = (h.enter f args).2 ∧ t' = .stmts .null f.body.statements := by
  rcases callPlan_cases limit c h callee args with ⟨e, he⟩ | ⟨f, hf, hd, he⟩
  · rw [he] at hp
    simp at hp
  · obtain ⟨rfl, rfl, rfl⟩ := Plan.enclosed.inj (he.symm.trans hp)
    exact ⟨f, hf, hd, rfl, rfl, rfl⟩

theorem callPlan_ne_sequence : callPlan limit c h callee args ≠ .sequence first next := by
  rcases callPlan_cases limit c h callee args with ⟨e, he⟩ | ⟨f, -, -, he⟩
  · simp [he]
  · simp [he]

theorem callPlan_ne_read : callPlan limit c h callee args ≠ .read name := by
  rcases callPlan_cases limit c h callee args with ⟨e, he⟩ | ⟨f, -, -, he⟩
  · simp [he]
  · simp [he]

theorem plan_read (hp : t.plan limit c h = .read name) :
    ∃ id : Identifier, t = .expr (.identifier id) ∧ id.name = name := by
  cases t with
  | expr e =>
    cases e with
    | identifier id => exact ⟨id, rfl, Plan.read.inj hp⟩
    | _ => simp [plan] at hp
  | arguments callee done todo =>
    cases todo with
    | nil => exact absurd hp callPlan_ne_read
    | cons e es => simp [plan] at hp
  | apply callee args => exact absurd hp callPlan_ne_read
  | stmt s => cases s <;> simp [plan] at hp
  | stmts last ss => cases ss <;> simp [plan] at hp
  | _ => simp [plan] at hp

/-- All that is done at once: a value is given that is there or refers to nothing, a
function value is made, or a name is bound in the environment of the context. -/
theorem plan_done (hp : t.plan limit c h = .done v h') :
    (h' = h ∧ (v.IsResult ∨ t = .value v ∨ t = .stmts v [])) ∨
      (∃ parameters body line, t = .expr (.function parameters body line) ∧
        v = .function (h.addClosure parameters body c.env).1 ∧
        h' = (h.addClosure parameters body c.env).2) ∨
      ∃ name w, t = .store name w ∧ v = .null ∧ h' = h.insert c.env name w := by
  have hcall {callee : Value} {args : List Value}
      (hp : callPlan limit c h callee args = .done v h') :
      h' = h ∧ (v.IsResult ∨ t = .value v ∨ t = .stmts v []) := by
    obtain ⟨hh, hv⟩ := callPlan_done hp
    exact ⟨hh, Or.inl hv⟩
  cases t with
  | expr e =>
    cases e with
    | integer n line =>
      obtain ⟨rfl, rfl⟩ := Plan.done.inj hp
      exact Or.inl ⟨rfl, Or.inl (Or.inl ⟨n, rfl⟩)⟩
    | boolean b line =>
      obtain ⟨rfl, rfl⟩ := Plan.done.inj hp
      exact Or.inl ⟨rfl, Or.inl (Or.inr (Or.inl ⟨b, rfl⟩))⟩
    | function parameters body line =>
      obtain ⟨rfl, rfl⟩ := Plan.done.inj hp
      exact Or.inr (Or.inl ⟨parameters, body, line, rfl, rfl, rfl⟩)
    | _ => simp [plan] at hp
  | arguments callee done todo =>
    cases todo with
    | nil => exact Or.inl (hcall hp)
    | cons e es => simp [plan] at hp
  | apply callee args => exact Or.inl (hcall hp)
  | stmt s => cases s <;> simp [plan] at hp
  | stmts last ss =>
    cases ss with
    | nil =>
      obtain ⟨rfl, rfl⟩ := Plan.done.inj hp
      exact Or.inl ⟨rfl, Or.inr (Or.inr rfl)⟩
    | cons s ss => simp [plan] at hp
  | store name w =>
    obtain ⟨rfl, rfl⟩ := Plan.done.inj hp
    exact Or.inr (Or.inr ⟨name, w, rfl, rfl, rfl⟩)
  | value w =>
    obtain ⟨rfl, rfl⟩ := Plan.done.inj hp
    exact Or.inl ⟨rfl, Or.inr (Or.inl rfl)⟩
  | _ => simp [plan] at hp

/-- The statements of a program are evaluated where it is, those of a function one
level deeper. -/
theorem plan_enclosed (hp : t.plan limit c h = .enclosed c' h' t') :
    (c' = c ∧ h' = h ∧ ∃ p, t = .program p ∧ t' = .stmts .null p) ∨
      ∃ f args, (t = .apply (.function f) args ∨ t = .arguments (.function f) args []) ∧
        c.depth < limit ∧ c' = ⟨(h.enter f args).1, c.depth + 1⟩ ∧
        h' = (h.enter f args).2 ∧ t' = .stmts .null f.body.statements := by
  cases t with
  | expr e => cases e <;> simp [plan] at hp
  | arguments callee done todo =>
    cases todo with
    | nil =>
      obtain ⟨f, rfl, hf⟩ := callPlan_enclosed hp
      exact Or.inr ⟨f, done, Or.inr rfl, hf⟩
    | cons e es => simp [plan] at hp
  | apply callee args =>
    obtain ⟨f, rfl, hf⟩ := callPlan_enclosed hp
    exact Or.inr ⟨f, args, Or.inl rfl, hf⟩
  | stmt s => cases s <;> simp [plan] at hp
  | stmts last ss => cases ss <;> simp [plan] at hp
  | program p =>
    obtain ⟨rfl, rfl, rfl⟩ := Plan.enclosed.inj hp
    exact Or.inl ⟨rfl, rfl, p, rfl, rfl⟩
  | _ => simp [plan] at hp

/-- A task is done by another one first, and then by one that its value gives. -/
inductive Splits : Task → Task → (Value → Task) → Prop where
  | prefixed (op : PrefixOp) (operand : Expr) (line : Nat) :
      Splits (.expr (.prefixed op operand line)) (.expr operand) fun v => .value (op.apply v)
  | infixed (left : Expr) (op : InfixOp) (right : Expr) (line : Nat) :
      Splits (.expr (.infixed left op right line)) (.expr left) fun l => .rightOperand l op right
  | conditional (condition : Expr) (consequence : Block) (alternative : Option Block) (line : Nat) :
      Splits (.expr (.conditional condition consequence alternative line)) (.expr condition)
        fun v => branch v consequence alternative
  | call (callee : Expr) (args : List Expr) (line : Nat) :
      Splits (.expr (.call callee args line)) (.expr callee) fun f => .arguments f [] args
  | rightOperand (left : Value) (op : InfixOp) (right : Expr) :
      Splits (.rightOperand left op right) (.expr right) fun r => .value (op.apply left r)
  | argument (callee : Value) (done : List Value) (e : Expr) (es : List Expr) :
      Splits (.arguments callee done (e :: es)) (.expr e)
        fun v => .arguments callee (done ++ [v]) es
  | bind (target : Identifier) (e : Expr) (line : Nat) :
      Splits (.stmt (.bind target e line)) (.expr e) fun v => .store target.name v
  | ret (e : Expr) (line : Nat) :
      Splits (.stmt (.ret e line)) (.expr e) fun v => .value (.pendingReturn v)
  | exprStmt (e : Expr) (line : Nat) : Splits (.stmt (.expr e line)) (.expr e) .value
  | block (body : Block) : Splits (.stmt (.block body)) (.stmts .null body.statements) .value
  | statement (last : Value) (s : Stmt) (ss : List Stmt) :
      Splits (.stmts last (s :: ss)) (.stmt s) fun v => .stmts v ss

/-- All the ways in which one task is planned to follow another one. -/
theorem splits_of_plan (hp : t.plan limit c h = .sequence first next) : t.Splits first next := by
  cases t with
  | expr e =>
    cases e with
    | prefixed op operand line =>
      obtain ⟨rfl, rfl⟩ := Plan.sequence.inj hp
      exact .prefixed op operand line
    | infixed left op right line =>
      obtain ⟨rfl, rfl⟩ := Plan.sequence.inj hp
      exact .infixed left op right line
    | conditional condition consequence alternative line =>
      obtain ⟨rfl, rfl⟩ := Plan.sequence.inj hp
      exact .conditional condition consequence alternative line
    | call callee args line =>
      obtain ⟨rfl, rfl⟩ := Plan.sequence.inj hp
      exact .call callee args line
    | _ => simp [plan] at hp
  | rightOperand left op right =>
    obtain ⟨rfl, rfl⟩ := Plan.sequence.inj hp
    exact .rightOperand left op right
  | arguments callee done todo =>
    cases todo with
    | nil => exact absurd hp callPlan_ne_sequence
    | cons e es =>
      obtain ⟨rfl, rfl⟩ := Plan.sequence.inj hp
      exact .argument callee done e es
  | apply callee args => exact absurd hp callPlan_ne_sequence
  | stmt s =>
    cases s with
    | bind target e line =>
      obtain ⟨rfl, rfl⟩ := Plan.sequence.inj hp
      exact .bind target e line
    | ret e line =>
      obtain ⟨rfl, rfl⟩ := Plan.sequence.inj hp
      exact .ret e line
    | expr e line =>
      obtain ⟨rfl, rfl⟩ := Plan.sequence.inj hp
      exact .exprStmt e line
    | block body =>
      obtain ⟨rfl, rfl⟩ := Plan.sequence.inj hp
      exact .block body
  | stmts last ss =>
    cases ss with
    | nil => simp [plan] at hp
    | cons s ss =>
      obtain ⟨rfl, rfl⟩ := Plan.sequence.inj hp
      exact .statement last s ss
  | _ => simp [plan] at hp

/-! ### Sizes -/

/-- How much of a tree is left to evaluate. -/
noncomputable def size : Task → Nat
  | .expr e => sizeOf e
  | .rightOperand _ _ e => sizeOf e + 1
  | .arguments _ _ es => sizeOf es + 1
  | .apply _ _ => 0
  | .stmt s => sizeOf s
  | .stmts _ ss => sizeOf ss
  | .store _ _ => 0
  | .program p => sizeOf p + 1
  | .value _ => 0

theorem sizeOf_pos (e : Expr) : 0 < sizeOf e := by
  cases e <;> simp only [Expr.identifier.sizeOf_spec, Expr.integer.sizeOf_spec,
    Expr.boolean.sizeOf_spec, Expr.prefixed.sizeOf_spec, Expr.infixed.sizeOf_spec,
    Expr.conditional.sizeOf_spec, Expr.function.sizeOf_spec, Expr.call.sizeOf_spec] <;> omega

theorem sizeOf_statements_lt (b : Block) : sizeOf b.statements < sizeOf b := by
  obtain ⟨ss, line⟩ := b
  simp only [Block.statements, Block.mk.sizeOf_spec]
  omega

theorem size_branch_lt (v : Value) (condition : Expr) (consequence : Block)
    (alternative : Option Block) (line : Nat) :
    (branch v consequence alternative).size <
      sizeOf (Expr.conditional condition consequence alternative line) := by
  have hc := sizeOf_statements_lt consequence
  rw [Expr.conditional.sizeOf_spec]
  unfold branch
  split
  · simp only [size]
    omega
  · cases alternative with
    | none =>
      simp only [size]
      omega
    | some b =>
      have hb := sizeOf_statements_lt b
      simp only [size, Option.some.sizeOf_spec]
      omega

theorem plan_sequence (hp : t.plan limit c h = .sequence first next) :
    first.size < t.size ∧ ∀ v, (next v).size < t.size := by
  cases splits_of_plan hp with
  | prefixed op operand line =>
    simp only [size, Expr.prefixed.sizeOf_spec]
    exact ⟨by omega, fun _ => by omega⟩
  | infixed left op right line =>
    simp only [size, Expr.infixed.sizeOf_spec]
    have := sizeOf_pos left
    exact ⟨by omega, fun _ => by omega⟩
  | conditional condition consequence alternative line =>
    refine ⟨?_, fun v => size_branch_lt v condition consequence alternative line⟩
    simp only [size, Expr.conditional.sizeOf_spec]
    omega
  | call callee args line =>
    simp only [size, Expr.call.sizeOf_spec]
    have := sizeOf_pos callee
    exact ⟨by omega, fun _ => by omega⟩
  | rightOperand left op right => exact ⟨Nat.lt_succ_self _, fun _ => Nat.succ_pos _⟩
  | argument callee done e es =>
    simp only [size, List.cons.sizeOf_spec]
    exact ⟨by omega, fun _ => by omega⟩
  | bind target e line =>
    simp only [size, Stmt.bind.sizeOf_spec]
    exact ⟨by omega, fun _ => by omega⟩
  | ret e line =>
    simp only [size, Stmt.ret.sizeOf_spec]
    exact ⟨by omega, fun _ => by omega⟩
  | exprStmt e line =>
    simp only [size, Stmt.expr.sizeOf_spec]
    exact ⟨by omega, fun _ => by omega⟩
  | block body =>
    have := sizeOf_statements_lt body
    simp only [size, Stmt.block.sizeOf_spec]
    exact ⟨by omega, fun _ => by omega⟩
  | statement last s ss =>
    simp only [size, List.cons.sizeOf_spec]
    exact ⟨by omega, fun _ => by omega⟩

end

end Task

end ExprScript
