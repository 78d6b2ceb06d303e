import ExprScript.Proofs.Evaluation.Links

/-!
# Interruptions as exits

Evaluation passes errors and pending returns on as values.  Here is an evaluator
that does not: its values are plain, and an error or a return is an exit, which
leaves everything up to the nearest call or to the program (`Reference`).  Parts are
put in sequence by the monad alone, so nothing asks a value whether it interrupts.
Since it computes with plain values only, by their type, no error and no pending
return is ever an operand, a condition, a function to call, an argument or the value
of a binding.

A heap may hold errors and pending returns that were bound from outside
(`Heap.Readable`); reading one is an exit.

* `Refines.andThen`: an `andThen` is a bind.
* `evaluation_eq_reference`: both evaluators have the same outcome and leave the same
  heap, in which nothing but plain values has been bound.
-/

namespace ExprScript

abbrev Plain := { v : Value // v.interrupts = false }

/-- Why evaluation leaves what it is in. -/
inductive Exit where
  | raised (message : String)
  | returned (v : Plain)

/-- A computation on the heap that may exit; the heap is kept then. -/
abbrev Reference (α : Type) := ExceptT Exit (StateM Heap) α

/-- What reading a value comes to: itself, or the exit that it stands for. -/
def Value.read : Value → Except Exit Plain
  | .integer n => .ok ⟨.integer n, rfl⟩
  | .boolean b => .ok ⟨.boolean b, rfl⟩
  | .null => .ok ⟨.null, rfl⟩
  | .function f => .ok ⟨.function f, rfl⟩
  | .error m => .error (.raised m)
  | .pendingReturn v =>
    match v.read with
    | .ok p => .error (.returned p)
    | .error e => .error e

def Value.ofOutcome : Except Exit Plain → Value
  | .ok p => p.1
  | .error (.raised m) => .error m
  | .error (.returned p) => .pendingReturn p.1

namespace Reference

/-- Goes on with a value, if it is plain. -/
def give (v : Value) : Reference Plain :=
  ExceptT.mk (pure v.read)

/-- Makes a return the value of what it leaves. -/
def ending (x : Reference Plain) : Reference Plain :=
  tryCatch x fun
    | .returned p => return p
    | .raised m => throw (.raised m)

mutual

def expr (apply : Plain → List Plain → Reference Plain) (env : EnvId) : Expr → Reference Plain
  | .identifier id => do give ((← get).valueOf env id.name)
  | .integer n _ => return ⟨.integer n, rfl⟩
  | .boolean b _ => return ⟨.boolean b, rfl⟩
  | .prefixed op operand _ => do
    let v ← expr apply env operand
    give (op.apply v)
  | .infixed left op right _ => do
    let l ← expr apply env left
    let r ← expr apply env right
    give (op.apply l r)
  | .conditional condition consequence none _ => do
    let v ← expr apply env condition
    if v.1.isTruthy then block apply env consequence else return ⟨.null, rfl⟩
  | .conditional condition consequence (some alternative) _ => do
    let v ← expr apply env condition
    if v.1.isTruthy then block apply env consequence else block apply env alternative
  | .function parameters body _ => do
    let f ← modifyGet fun h => h.addClosure parameters body env
    return ⟨.function f, rfl⟩
  | .call callee args _ => do
    let f ← expr apply env callee
    let vs ← exprs apply env args
    apply f vs

def exprs (apply : Plain → List Plain → Reference Plain) (env : EnvId) :
    List Expr → Reference (List Plain)
  | [] => return []
  | e :: es => do
    let v ← expr apply env e
    let vs ← exprs apply env es
    return v :: vs

def stmt (apply : Plain → List Plain → Reference Plain) (env : EnvId) : Stmt → Reference Plain
  | .bind target e _ => do
    let v ← expr apply env e
    modify fun h => h.insert env target.name v
    return ⟨.null, rfl⟩
  | .ret e _ => do
    let v ← expr apply env e
    throw (.returned v)
  | .expr e _ => expr apply env e
  | .block body => block apply env body

def stmts (apply : Plain → List Plain → Reference Plain) (env : EnvId) (last : Plain) :
    List Stmt → Reference Plain
  | [] => return last
  | s :: ss => do
    let v ← stmt apply env s
    stmts apply env v ss

def block (apply : Plain → List Plain → Reference Plain) (env : EnvId) : Block → Reference Plain
  | .mk ss _ => stmts apply env ⟨.null, rfl⟩ ss

end

def applyWithin (limit : Nat) : Nat → Plain → List Plain → Reference Plain
  | calls, callee, args =>
    match callee.1.callable (args.map Subtype.val) with
    | .error e => throw (.raised e.message)
    | .ok f =>
      match calls with
      | 0 => throw (.raised (RuntimeError.recursionLimitExceeded limit).message)
      | calls + 1 => do
        let env ← modifyGet fun h => h.enter f (args.map Subtype.val)
        ending (block (applyWithin limit calls) env f.body)

def applyFunction (limit : Nat) (c : Context) (callee : Plain) (args : List Plain) :
    Reference Plain :=
  applyWithin limit (limit - c.depth) callee args

def program (limit : Nat) (c : Context) (p : Program) : Reference Plain :=
  ending (stmts (applyFunction limit c) c.env ⟨.null, rfl⟩ p)

def outcome (x : Reference Plain) (h : Heap) : Value × Heap :=
  (Value.ofOutcome (x.run.run h).1, (x.run.run h).2)

theorem run_ending (x : Reference Plain) (h : Heap) :
    (ending x).run.run h =
      match x.run.run h with
      | (.ok p, h') => (.ok p, h')
      | (.error (.returned p), h') => (.ok p, h')
      | (.error (.raised m), h') => (.error (.raised m), h') := by
  cases hx : x.run.run h with
  | mk r h' =>
    have hrun : (ending x).run.run h = (ending (ExceptT.mk (pure r))).run.run h' := by
      show ((ending (ExceptT.mk (pure (x.run.run h).1))).run.run (x.run.run h).2) = _
      rw [hx]
    rw [hrun]
    cases r with
    | ok p => rfl
    | error e =>
      cases e with
      | raised m => rfl
      | returned p => rfl

theorem run_bind {α β : Type} (x : Reference α) (f : α → Reference β) (h : Heap) :
    (x >>= f).run.run h =
      match x.run.run h with
      | (.ok a, h') => (f a).run.run h'
      | (.error e, h') => (.error e, h') := by
  show (x.run >>= ExceptT.bindCont f).run h = _
  rw [StateT.run_bind]
  show (ExceptT.bindCont f (x.run.run h).1).run (x.run.run h).2 = _
  obtain ⟨a | e, h'⟩ := x.run.run h
  · rfl
  · rfl

end Reference

/-! ### Heaps that can be read -/

/-- A plain value, an error, or a pending return of a plain value. -/
def Value.Readable : Value → Prop
  | .pendingReturn v => v.interrupts = false
  | _ => True

theorem Value.read_of_plain {v : Value} (hv : v.interrupts = false) : v.read = .ok ⟨v, hv⟩ := by
  cases v with
  | error m => simp [interrupts] at hv
  | pendingReturn w => simp [interrupts] at hv
  | _ => rfl

theorem Value.ofOutcome_read {v : Value} (hv : v.Readable) : ofOutcome v.read = v := by
  cases v with
  | pendingReturn w =>
    rw [read, read_of_plain hv]
    rfl
  | _ => rfl

namespace Heap

/-- Every value that is bound can be read. -/
def Readable (h : Heap) : Prop :=
  ∀ env e name v, h.environment? env = some e → e.get? name = some v → v.Readable

/-- What interrupts and is bound in the second heap is bound so in the first one. -/
def AddsPlain (h h' : Heap) : Prop :=
  ∀ env e' name v, h'.environment? env = some e' → e'.get? name = some v → v.interrupts = true →
    ∃ e, h.environment? env = some e ∧ e.get? name = some v

variable {h h₁ h₂ h' : Heap}

theorem AddsPlain.refl (h : Heap) : h.AddsPlain h :=
  fun _ e _ _ he hv _ => ⟨e, he, hv⟩

theorem AddsPlain.trans (h₁₂ : h.AddsPlain h₁) (h₂₃ : h₁.AddsPlain h₂) : h.AddsPlain h₂ := by
  intro env e name v he hv hi
  obtain ⟨e₁, he₁, hv₁⟩ := h₂₃ env e name v he hv hi
  exact h₁₂ env e₁ name v he₁ hv₁ hi

theorem Readable.of_addsPlain (hr : h.Readable) (ha : h.AddsPlain h') : h'.Readable := by
  intro env e name v he hv
  cases hi : v.interrupts with
  | true =>
    obtain ⟨e₀, he₀, hv₀⟩ := ha env e name v he hv hi
    exact hr env e₀ name v he₀ hv₀
  | false =>
    cases v with
    | pendingReturn w => simp [Value.interrupts] at hi
    | _ => trivial

theorem addsPlain_insert (h : Heap) (env : EnvId) (name : String) {v : Value}
    (hv : v.interrupts = false) : h.AddsPlain (h.insert env name v) := by
  intro other e' name' w he hw hi
  rcases bound_insert he hw with rfl | hbound
  · simp [hv] at hi
  · exact hbound

theorem addsPlain_enter (h : Heap) (f : Closure) (args : List Plain) :
    h.AddsPlain (h.enter f (args.map Subtype.val)).2 := by
  intro env e name v he hv hi
  rcases environment?_enter_eq_some he with he | ⟨-, -, hargs⟩
  · exact ⟨e, he, hv⟩
  · obtain ⟨p, -, rfl⟩ := List.mem_map.mp (hargs name v hv)
    simp [p.2] at hi

theorem Readable.valueOf (hr : h.Readable) (env : EnvId) (name : String) :
    (h.valueOf env name).Readable := by
  rw [Heap.valueOf]
  cases hl : h.lookup env name with
  | none => trivial
  | some v => exact Stores.of_lookup hr hl

end Heap

/-! ### The simulation -/

/-- From a readable heap, the first computation does what the second one does, with its
result written as told. -/
def RefinesAs {α β : Type} (write : Except Exit α → β) (x : Eval β) (y : Reference α) : Prop :=
  ∀ h : Heap, h.Readable →
    x.run h = (write (y.run.run h).1, (y.run.run h).2) ∧ h.AddsPlain (y.run.run h).2

/-- The computation of a value does what the reference does. -/
abbrev Refines : Eval Value → Reference Plain → Prop :=
  RefinesAs Value.ofOutcome

def Value.ofOutcomes : Except Exit (List Plain) → Except Value (List Value)
  | .ok ps => .ok (ps.map Subtype.val)
  | .error e => .error (ofOutcome (.error e))

section
variable {α β γ δ : Type} {write : Except Exit α → β} {write' : Except Exit γ → δ}

/-- **A sequence refines a bind**, if what follows hands exits up. -/
theorem RefinesAs.bind {x : Eval β} {y : Reference α} {f : β → Eval δ} {g : α → Reference γ}
    (hx : RefinesAs write x y) (hf : ∀ a, RefinesAs write' (f (write (.ok a))) (g a))
    (he : ∀ e, f (write (.error e)) = pure (write' (.error e))) :
    RefinesAs write' (x >>= f) (y >>= g) := by
  intro h hr
  obtain ⟨hrun, ha⟩ := hx h hr
  rw [StateT.run_bind, hrun, Reference.run_bind]
  show (f (write (y.run.run h).1)).run (y.run.run h).2 = _ ∧ _
  cases hy : y.run.run h with
  | mk r h' =>
    rw [hy] at ha
    cases r with
    | error e =>
      rw [he]
      exact ⟨rfl, ha⟩
    | ok a =>
      obtain ⟨hrun', ha'⟩ := hf a h' (hr.of_addsPlain ha)
      exact ⟨hrun', ha.trans ha'⟩

theorem RefinesAs.pure (a : α) : RefinesAs write (Pure.pure (write (.ok a))) (Pure.pure a) :=
  fun h _ => ⟨rfl, .refl h⟩

end

theorem Value.andThen_of_plain {v : Value} (hv : v.interrupts = false)
    (next : Value → Eval Value) : v.andThen next = next v := by
  rw [andThen, hv]
  rfl

theorem Value.andThen_error (e : Exit) (next : Value → Eval Value) :
    (ofOutcome (.error e)).andThen next = pure (ofOutcome (.error e)) := by
  cases e with
  | raised m => rfl
  | returned p => rfl

/-- **An `andThen` is a bind.** -/
theorem Refines.andThen {x : Eval Value} {y : Reference Plain} {next : Value → Eval Value}
    {g : Plain → Reference Plain} (hx : Refines x y) (hg : ∀ p : Plain, Refines (next p.1) (g p)) :
    Refines (x >>= fun v => v.andThen next) (y >>= g) := by
  refine RefinesAs.bind hx (fun p => ?_) fun e => Value.andThen_error e next
  show Refines (p.1.andThen next) (g p)
  rw [Value.andThen_of_plain p.2]
  exact hg p

/-- A value that can be read is given. -/
theorem refines_give {v : Value} (hv : v.Readable) : Refines (pure v) (Reference.give v) := by
  intro h _
  refine ⟨?_, .refl h⟩
  show (v, h) = (Value.ofOutcome v.read, h)
  rw [Value.ofOutcome_read hv]

theorem Value.IsResult.readable {v : Value} (hv : v.IsResult) : v.Readable := by
  rcases hv with ⟨n, rfl⟩ | ⟨b, rfl⟩ | ⟨e, rfl⟩
  · trivial
  · trivial
  · trivial

theorem Refines.ending {x : Eval Value} {y : Reference Plain} (hx : Refines x y) :
    Refines (x >>= fun v => pure v.unwrapReturn) (Reference.ending y) := by
  intro h hr
  obtain ⟨hrun, ha⟩ := hx h hr
  rw [StateT.run_bind, hrun, Reference.run_ending]
  cases hy : y.run.run h with
  | mk r h' =>
    rw [hy] at ha
    cases r with
    | ok p =>
      have hp : p.1.unwrapReturn = p.1 := by
        obtain ⟨v, hv⟩ := p
        cases v with
        | pendingReturn w => simp [Value.interrupts] at hv
        | _ => rfl
      refine ⟨?_, ha⟩
      show (p.1.unwrapReturn, h') = (p.1, h')
      rw [hp]
    | error e =>
      cases e with
      | raised m => exact ⟨rfl, ha⟩
      | returned p => exact ⟨rfl, ha⟩

/-! ### Trees -/

def RefinesCalls (apply : Value → List Value → Eval Value)
    (apply' : Plain → List Plain → Reference Plain) : Prop :=
  ∀ (callee : Plain) (args : List Plain),
    Refines (apply callee.1 (args.map Subtype.val)) (apply' callee args)

section
variable {apply : Value → List Value → Eval Value} {apply' : Plain → List Plain → Reference Plain}

mutual

theorem expr_refines (ha : RefinesCalls apply apply') (env : EnvId) :
    ∀ e : Expr, Refines (evalExpr apply env e) (Reference.expr apply' env e)
  | .identifier id => fun h hr => refines_give (hr.valueOf env id.name) h hr
  | .integer n _ => RefinesAs.pure (⟨.integer n, rfl⟩ : Plain)
  | .boolean b _ => RefinesAs.pure (⟨.boolean b, rfl⟩ : Plain)
  | .prefixed op operand _ =>
    (expr_refines ha env operand).andThen fun v => refines_give (op.isResult_apply v.1).readable
  | .infixed left op right _ =>
    (expr_refines ha env left).andThen fun l =>
      (expr_refines ha env right).andThen fun r =>
        refines_give (op.isResult_apply l.1 r.1).readable
  | .conditional condition consequence none _ =>
    (expr_refines ha env condition).andThen fun v => by
      cases v.1.isTruthy with
      | true => exact block_refines ha env consequence
      | false => exact RefinesAs.pure (⟨.null, rfl⟩ : Plain)
  | .conditional condition consequence (some alternative) _ =>
    (expr_refines ha env condition).andThen fun v => by
      cases v.1.isTruthy with
      | true => exact block_refines ha env consequence
      | false => exact block_refines ha env alternative
  | .function parameters body _ => fun h _ => ⟨rfl, fun _ e _ _ he hv _ => ⟨e, he, hv⟩⟩
  | .call callee args _ =>
    (expr_refines ha env callee).andThen fun f =>
      (exprs_refines ha env args).bind (fun vs => ha f vs) fun _ => rfl

theorem exprs_refines (ha : RefinesCalls apply apply') (env : EnvId) :
    ∀ es : List Expr, RefinesAs Value.ofOutcomes (evalArguments apply env es)
      (Reference.exprs apply' env es)
  | [] => RefinesAs.pure []
  | e :: es => by
    refine (expr_refines ha env e).bind (fun p => ?_) fun i => ?_
    · have hp : ¬ (Value.ofOutcome (.ok p)).interrupts = true := by
        rw [Value.ofOutcome, p.2]
        exact Bool.false_ne_true
      rw [if_neg hp]
      exact (exprs_refines ha env es).bind (fun vs => RefinesAs.pure (p :: vs)) fun _ => rfl
    · cases i with
      | raised m => rfl
      | returned p => rfl

theorem stmt_refines (ha : RefinesCalls apply apply') (env : EnvId) :
    ∀ s : Stmt, Refines (evalStmt apply env s) (Reference.stmt apply' env s)
  | .bind target e _ =>
    (expr_refines ha env e).andThen fun v h _ => ⟨rfl, h.addsPlain_insert env target.name v.2⟩
  | .ret e _ => (expr_refines ha env e).andThen fun _ h _ => ⟨rfl, .refl h⟩
  | .expr e _ => expr_refines ha env e
  | .block body => block_refines ha env body

theorem stmts_refines (ha : RefinesCalls apply apply') (env : EnvId) :
    ∀ (last : Plain) (ss : List Stmt),
      Refines (evalStmts apply env last.1 ss) (Reference.stmts apply' env last ss)
  | last, [] => RefinesAs.pure last
  | _, s :: ss => (stmt_refines ha env s).andThen fun v => stmts_refines ha env v ss

theorem block_refines (ha : RefinesCalls apply apply') (env : EnvId) :
    ∀ b : Block, Refines (evalBlock apply env b) (Reference.block apply' env b)
  | .mk ss _ => stmts_refines ha env ⟨.null, rfl⟩ ss

end

end

/-! ### Calls and programs -/

theorem refinesCalls_applyWithin (limit calls : Nat) :
    RefinesCalls (applyWithin limit calls) (Reference.applyWithin limit calls) := by
  induction calls with
  | zero =>
    intro callee args
    rw [applyWithin, Reference.applyWithin]
    cases callee.1.callable (args.map Subtype.val) with
    | error e => exact fun h _ => ⟨rfl, .refl h⟩
    | ok f => exact fun h _ => ⟨rfl, .refl h⟩
  | succ calls ih =>
    intro callee args
    rw [applyWithin, Reference.applyWithin]
    cases callee.1.callable (args.map Subtype.val) with
    | error e => exact fun h _ => ⟨rfl, .refl h⟩
    | ok f =>
      intro h hr
      have ha := h.addsPlain_enter f args
      obtain ⟨hrun, ha'⟩ := (block_refines ih (h.enter f (args.map Subtype.val)).1 f.body).ending
        (h.enter f (args.map Subtype.val)).2 (hr.of_addsPlain ha)
      exact ⟨hrun, ha.trans ha'⟩

/-- Both evaluators have the same outcome on a heap, and only plain values are bound. -/
structure Reference.Agrees (x : Eval Value) (y : Reference Plain) (h : Heap) : Prop where
  run_eq : x.run h = y.outcome h
  addsPlain : h.AddsPlain (x.run h).2

theorem Refines.agrees {x : Eval Value} {y : Reference Plain} (hx : Refines x y) {h : Heap}
    (hr : h.Readable) : Reference.Agrees x y h := by
  obtain ⟨hrun, ha⟩ := hx h hr
  refine ⟨hrun, ?_⟩
  rw [hrun]
  exact ha

/-- **Passing interruptions on as values is the same as exits**: on every heap that can be
read, for every limit, context and tree. -/
theorem evaluation_eq_reference (limit : Nat) (c : Context) {h : Heap} (hr : h.Readable) :
    (∀ e, Reference.Agrees (c.evalExpressionWithin limit e)
      (Reference.expr (Reference.applyFunction limit c) c.env e) h) ∧
    (∀ s, Reference.Agrees (c.evalStatementWithin limit s)
      (Reference.stmt (Reference.applyFunction limit c) c.env s) h) ∧
    (∀ b, Reference.Agrees (c.evalBlockWithin limit b)
      (Reference.block (Reference.applyFunction limit c) c.env b) h) ∧
    (∀ p, Reference.Agrees (c.evalProgramWithin limit p) (Reference.program limit c p) h) ∧
    ∀ (callee : Plain) (args : List Plain),
      Reference.Agrees (c.applyFunctionWithin limit callee.1 (args.map Subtype.val))
        (Reference.applyFunction limit c callee args) h := by
  have ha := refinesCalls_applyWithin limit (limit - c.depth)
  refine ⟨fun e => ?_, fun s => ?_, fun b => ?_, fun p => ?_, fun callee args => ?_⟩
  · exact (expr_refines ha c.env e).agrees hr
  · exact (stmt_refines ha c.env s).agrees hr
  · exact (block_refines ha c.env b).agrees hr
  · exact (stmts_refines ha c.env ⟨.null, rfl⟩ p).ending.agrees hr
  · exact (ha callee args).agrees hr

/-- A heap in which a pending return and an error have been bound from outside. -/
def Heap.interrupted : Heap :=
  (Heap.empty.addGlobal.2.insert ⟨0⟩ "r" (.pendingReturn (.integer 7))).insert ⟨0⟩ "e"
    (.error "stopped")

theorem Heap.readable_interrupted : Heap.interrupted.Readable := by
  intro env e name v he hv
  rcases bound_insert he hv with rfl | ⟨e₁, he₁, hv₁⟩
  · trivial
  · rcases bound_insert he₁ hv₁ with rfl | ⟨e₂, he₂, hv₂⟩
    · rfl
    · rcases environment?_add_eq_some he₂ with he₃ | ⟨-, rfl⟩
      · simp [environment?, empty] at he₃
      · simp [Environment.get?, Environment.empty] at hv₂

/-- Of `r + e` the pending return is the outcome. -/
theorem evaluation_eq_reference_interrupted :
    Heap.interrupted.Readable ∧
      Reference.Agrees
        ((Context.ofEnv ⟨0⟩).evalExpressionWithin maxCallDepth
          (.infixed (.identifier ⟨"r", 1⟩) .add (.identifier ⟨"e", 1⟩) 1))
        (Reference.expr (Reference.applyFunction maxCallDepth (.ofEnv ⟨0⟩)) ⟨0⟩
          (.infixed (.identifier ⟨"r", 1⟩) .add (.identifier ⟨"e", 1⟩) 1)) .interrupted :=
  ⟨Heap.readable_interrupted,
    (evaluation_eq_reference maxCallDepth (.ofEnv ⟨0⟩) Heap.readable_interrupted).1 _⟩

end ExprScript
