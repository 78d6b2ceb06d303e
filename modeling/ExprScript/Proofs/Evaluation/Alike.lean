import ExprScript.Proofs.Evaluation.Plain
import ExprScript.Proofs.Syntax
import ExprScript.Value.Text
import Mathlib.Data.List.Forall2
import Mathlib.Order.Basic

/-!
# Heaps that look alike

Two runs that do the same need not have the same heap: their environments have other
names, there may be environments in one of them that the other one has not made, and
their functions may have been written on other lines.  `h.Alike P R h'` says that the
heaps look alike from the environments that the relation `R` pairs.  `R` is one-to-one;
paired environments bind the names with the property `P` to values that look alike, and
are inside paired environments.  Functions look alike when their environments are
paired and their trees are the same up to line numbers.  What is not paired does not
matter, nor do names without the property, so the trees may not contain these.

* `Task.plan_alike`: tasks that look alike are planned alike.
* `Evaluates.alike`: they have outcomes that look alike; environments that were made on
  the way are paired too.
* `Value.Alike.kind_eq`, `Value.Alike.text_eq`: values that look alike are shown alike.
* `Session.Alike.evaluateSource`: sessions that look alike answer alike.
-/

namespace ExprScript

/-- Which environment of one heap stands for which one of another heap. -/
abbrev Naming := EnvId → EnvId → Prop

section
variable (P : String → Prop) (R : Naming)

structure Closure.Alike (f g : Closure) : Prop where
  parameters : f.parameters.map Identifier.name = g.parameters.map Identifier.name
  body : f.body.unlined = g.body.unlined
  names : f.body.Names P
  env : R f.env g.env

/-- Values that differ at most in functions, which look alike. -/
inductive Value.Alike : Value → Value → Prop where
  | integer (n : Int64) : Alike (.integer n) (.integer n)
  | boolean (b : Bool) : Alike (.boolean b) (.boolean b)
  | null : Alike .null .null
  | error (message : String) : Alike (.error message) (.error message)
  | function {f g : Closure} : f.Alike P R g → Alike (.function f) (.function g)
  | pendingReturn {v w : Value} : Alike v w → Alike (.pendingReturn v) (.pendingReturn w)

structure Environment.Alike (e e' : Environment) : Prop where
  enclosing : List.Forall₂ R e.enclosing e'.enclosing
  bindings : ∀ name, P name → Option.Rel (Value.Alike P R) (e.get? name) (e'.get? name)

structure Heap.Alike (h h' : Heap) : Prop where
  oneToOne : Relator.BiUnique R
  environment : ∀ a a', R a a' → ∃ e e', h.environment? a = some e ∧
    h'.environment? a' = some e' ∧ e.Alike P R e'

inductive Task.Alike : Task → Task → Prop where
  | expr {e e' : Expr} : e.unlined = e'.unlined → e.Names P → Alike (.expr e) (.expr e')
  | rightOperand {v v' : Value} {e e' : Expr} (op : InfixOp) : v.Alike P R v' →
      e.unlined = e'.unlined → e.Names P → Alike (.rightOperand v op e) (.rightOperand v' op e')
  | arguments {f f' : Value} {vs vs' : List Value} {es es' : List Expr} : f.Alike P R f' →
      List.Forall₂ (Value.Alike P R) vs vs' → Expr.unlinedAll es = Expr.unlinedAll es' →
      Expr.NamesAll P es → Alike (.arguments f vs es) (.arguments f' vs' es')
  | apply {f f' : Value} {vs vs' : List Value} : f.Alike P R f' →
      List.Forall₂ (Value.Alike P R) vs vs' → Alike (.apply f vs) (.apply f' vs')
  | stmt {s s' : Stmt} : s.unlined = s'.unlined → s.Names P → Alike (.stmt s) (.stmt s')
  | stmts {v v' : Value} {ss ss' : List Stmt} : v.Alike P R v' →
      Stmt.unlinedAll ss = Stmt.unlinedAll ss' → Stmt.NamesAll P ss →
      Alike (.stmts v ss) (.stmts v' ss')
  | store {v v' : Value} (name : String) : v.Alike P R v' → Alike (.store name v) (.store name v')
  | program {p p' : Program} : Stmt.unlinedAll p = Stmt.unlinedAll p' → Stmt.NamesAll P p →
      Alike (.program p) (.program p')
  | value {v v' : Value} : v.Alike P R v' → Alike (.value v) (.value v')

end

variable {P : String → Prop} {R R' : Naming} {v v' w w' : Value} {vs vs' : List Value}
  {e e' : Environment} {h h' : Heap} {a a' : EnvId} {name : String}

/-! ### Values -/

namespace Value

theorem Alike.mono (hR : R ≤ R') (hv : v.Alike P R w) : v.Alike P R' w := by
  induction hv with
  | integer n => exact .integer n
  | boolean b => exact .boolean b
  | null => exact .null
  | error m => exact .error m
  | function hf => exact .function ⟨hf.parameters, hf.body, hf.names, hR _ _ hf.env⟩
  | pendingReturn _ ih => exact .pendingReturn ih

theorem Alike.kind_eq (hv : v.Alike P R w) : v.kind = w.kind := by
  cases hv <;> rfl

theorem Alike.interrupts_eq (hv : v.Alike P R w) : v.interrupts = w.interrupts := by
  cases hv <;> rfl

theorem Alike.isTruthy_eq (hv : v.Alike P R w) : v.isTruthy = w.isTruthy := by
  cases hv <;> rfl

theorem Alike.text_eq (hv : v.Alike P R w) : v.text = w.text := by
  induction hv with
  | @function f g hf =>
    show f.text = g.text
    rw [Closure.text, Closure.text, parametersText, parametersText, hf.parameters,
      Block.text_eq_of_unlined hf.body]
  | pendingReturn _ ih => exact ih
  | _ => rfl

theorem Alike.unwrapReturn (hv : v.Alike P R w) : v.unwrapReturn.Alike P R w.unwrapReturn := by
  cases hv with
  | pendingReturn hv => exact hv
  | integer n => exact .integer n
  | boolean b => exact .boolean b
  | null => exact .null
  | error m => exact .error m
  | function hf => exact .function hf

/-- What operators give refers to nothing. -/
theorem IsResult.alike (hv : v.IsResult) : v.Alike P R v := by
  rcases hv with ⟨n, rfl⟩ | ⟨b, rfl⟩ | ⟨e, rfl⟩
  · exact .integer n
  · exact .boolean b
  · exact .error _

theorem Alike.prefixApply (op : PrefixOp) (hv : v.Alike P R w) :
    (op.apply v).Alike P R (op.apply w) := by
  have heq : op.apply v = op.apply w := by
    cases op with
    | not => rw [PrefixOp.apply, PrefixOp.apply, hv.isTruthy_eq]
    | negate => cases hv <;> rfl
  rw [heq]
  exact (op.isResult_apply w).alike

theorem Alike.infixApply (op : InfixOp) (hv : v.Alike P R v') (hw : w.Alike P R w') :
    (op.apply v w).Alike P R (op.apply v' w') := by
  have heq : op.apply v w = op.apply v' w' := by
    cases hv <;> cases hw <;> rfl
  rw [heq]
  exact (op.isResult_apply v' w').alike

theorem forall₂_mono (hR : R ≤ R') (hv : List.Forall₂ (Value.Alike P R) vs vs') :
    List.Forall₂ (Value.Alike P R') vs vs' :=
  hv.imp fun _ _ hv => hv.mono hR

theorem Alike.callable (hv : v.Alike P R w) (hvs : List.Forall₂ (Value.Alike P R) vs vs') :
    (∃ e, v.callable vs = .error e ∧ w.callable vs' = .error e) ∨
      ∃ f g, v.callable vs = .ok f ∧ w.callable vs' = .ok g ∧ f.Alike P R g := by
  cases hv with
  | @function f g hf =>
    have hlen : f.parameters.length = g.parameters.length := by
      simpa using congrArg List.length hf.parameters
    simp only [Value.callable, hlen, hvs.length_eq]
    split
    · exact Or.inr ⟨f, g, rfl, rfl, hf⟩
    · exact Or.inl ⟨_, rfl, rfl⟩
  | _ => exact Or.inl ⟨_, rfl, rfl⟩

end Value

/-! ### Environments -/

namespace Environment

theorem Alike.mono (hR : R ≤ R') (he : e.Alike P R e') : e.Alike P R' e' := by
  refine ⟨he.enclosing.imp fun _ _ ha => hR _ _ ha, fun name hn => ?_⟩
  have hv := he.bindings name hn
  generalize e.get? name = r, e'.get? name = r' at hv
  cases hv with
  | some hv => exact .some (hv.mono hR)
  | none => exact .none

theorem Alike.insert (he : e.Alike P R e') (name : String) (hv : v.Alike P R w) :
    (e.insert name v).Alike P R (e'.insert name w) := by
  refine ⟨he.enclosing, fun other hn => ?_⟩
  by_cases ho : other = name
  · rw [ho, get?_insert_self, get?_insert_self]
    exact .some hv
  · rw [get?_insert_of_ne e ho, get?_insert_of_ne e' ho]
    exact he.bindings other hn

theorem Alike.insertAll (he : e.Alike P R e') (names : List String)
    (hv : List.Forall₂ (Value.Alike P R) vs vs') :
    (e.insertAll (names.zip vs)).Alike P R (e'.insertAll (names.zip vs')) := by
  induction hv generalizing e e' names with
  | nil =>
    rw [List.zip_nil_right]
    exact he
  | cons hw _ ih =>
    cases names with
    | nil => exact he
    | cons name names => exact ih (he.insert name hw) names

end Environment

/-! ### Heaps -/

namespace Heap

theorem Alike.chain (hh : h.Alike P R h') (ha : R a a') :
    List.Forall₂ R (h.chain a) (h'.chain a') := by
  obtain ⟨e, e', he, he', hee⟩ := hh.environment a a' ha
  rw [chain_of_some he, chain_of_some he']
  exact .cons ha hee.enclosing

theorem Alike.lookup (hh : h.Alike P R h') (ha : R a a') (hn : P name) :
    Option.Rel (Value.Alike P R) (h.lookup a name) (h'.lookup a' name) := by
  rw [Heap.lookup, Heap.lookup]
  -- along the two chains, which are paired
  have hchain := hh.chain ha
  generalize h.chain a = chain, h'.chain a' = chain' at hchain
  induction hchain with
  | nil => exact .none
  | @cons b b' bs bs' hb _ ih =>
    obtain ⟨e, e', he, he', hee⟩ := hh.environment b b' hb
    rw [List.findSome?_cons, List.findSome?_cons, he, he', Option.bind_some, Option.bind_some]
    have hv := hee.bindings name hn
    generalize e.get? name = r, e'.get? name = r' at hv
    cases hv with
    | some hv => exact .some hv
    | none => exact ih

/-- A name with the property is bound to values that are shown alike. -/
theorem Alike.shown_lookup_of (hh : h.Alike P R h') (ha : R a a') (hn : P name) :
    (h.lookup a name).map (fun v => (v.kind, v.text)) =
      (h'.lookup a' name).map fun v => (v.kind, v.text) := by
  have hv := hh.lookup ha hn
  generalize h.lookup a name = o, h'.lookup a' name = o' at hv ⊢
  cases hv with
  | none => rfl
  | some hv => exact congrArg some (Prod.ext hv.kind_eq hv.text_eq)

/-- Names are bound to values that are shown alike. -/
theorem Alike.shown_lookup (hh : h.Alike (fun _ => True) R h') (ha : R a a') (name : String) :
    (h.lookup a name).map (fun v => (v.kind, v.text)) =
      (h'.lookup a' name).map fun v => (v.kind, v.text) :=
  hh.shown_lookup_of ha trivial

theorem Alike.valueOf (hh : h.Alike P R h') (ha : R a a') (hn : P name) :
    (h.valueOf a name).Alike P R (h'.valueOf a' name) := by
  rw [Heap.valueOf, Heap.valueOf]
  have hv := hh.lookup ha hn
  generalize h.lookup a name = r, h'.lookup a' name = r' at hv
  cases hv with
  | some hv => exact hv
  | none => exact .error _

theorem Alike.insert (hh : h.Alike P R h') (ha : R a a') (name : String) (hv : v.Alike P R w) :
    (h.insert a name v).Alike P R (h'.insert a' name w) := by
  refine ⟨hh.oneToOne, fun b b' hb => ?_⟩
  obtain ⟨e, e', he, he', hee⟩ := hh.environment b b' hb
  by_cases hba : b = a
  · obtain rfl : b' = a' := hh.oneToOne.2 hb (hba ▸ ha)
    subst hba
    refine ⟨e.insert name v, e'.insert name w, ?_, ?_, hee.insert name hv⟩
    · rw [environment?_insert_self, he, Option.map_some]
    · rw [environment?_insert_self, he', Option.map_some]
  · -- one-to-one: what is paired with another environment is another one
    have hba' : b' ≠ a' := fun hn => hba (hh.oneToOne.1 (hn ▸ hb) ha)
    exact ⟨e, e', by rw [environment?_insert_of_ne h hba, he],
      by rw [environment?_insert_of_ne h' hba', he'], hee⟩

theorem Alike.addClosure (hh : h.Alike P R h') (ps ps' : List Identifier) (b b' : Block)
    (a a' : EnvId) : (h.addClosure ps b a).2.Alike P R (h'.addClosure ps' b' a').2 :=
  ⟨hh.oneToOne, hh.environment⟩

/-- Only what is paired matters, so a heap that has kept its environments looks as before. -/
theorem Alike.of_unchanged {h₁ : Heap} (hh : h.Alike P R h') (hu : h.Unchanged h₁) :
    h₁.Alike P R h' := by
  refine ⟨hh.oneToOne, fun a a' ha => ?_⟩
  obtain ⟨e, e', he, he', hee⟩ := hh.environment a a' ha
  exact ⟨e, e', hu a e he, he', hee⟩

/-- The pairing after an environment has been added to both heaps. -/
def addedTo (h h' : Heap) (R : Naming) : Naming :=
  fun a a' => R a a' ∨ (a.index = h.environments.size ∧ a'.index = h'.environments.size)

theorem Alike.lt_size (hh : h.Alike P R h') (ha : R a a') :
    a.index < h.environments.size ∧ a'.index < h'.environments.size := by
  obtain ⟨e, e', he, he', -⟩ := hh.environment a a' ha
  exact ⟨(Array.getElem?_eq_some_iff.mp he).1, (Array.getElem?_eq_some_iff.mp he').1⟩

theorem Alike.oneToOne_addedTo (hh : h.Alike P R h') : Relator.BiUnique (addedTo h h' R) := by
  constructor
  · rintro a b c (ha | ⟨ha, hc⟩) (hb | ⟨hb, hc'⟩)
    · exact hh.oneToOne.1 ha hb
    · exact absurd hc' (Nat.ne_of_lt (hh.lt_size ha).2)
    · exact absurd hc (Nat.ne_of_lt (hh.lt_size hb).2)
    · cases a
      cases b
      exact congrArg EnvId.mk (ha.trans hb.symm)
  · rintro a b c (hb | ⟨ha, hb⟩) (hc | ⟨ha', hc⟩)
    · exact hh.oneToOne.2 hb hc
    · exact absurd ha' (Nat.ne_of_lt (hh.lt_size hb).1)
    · exact absurd ha (Nat.ne_of_lt (hh.lt_size hc).1)
    · cases b
      cases c
      exact congrArg EnvId.mk (hb.trans hc.symm)

theorem Alike.add (hh : h.Alike P R h') (he : e.Alike P R e') :
    R ≤ addedTo h h' R ∧ (h.add e).2.Alike P (addedTo h h' R) (h'.add e').2 ∧
      addedTo h h' R (h.add e).1 (h'.add e').1 := by
  have hle : R ≤ addedTo h h' R := fun a a' ha => Or.inl ha
  refine ⟨hle, ⟨hh.oneToOne_addedTo, fun a a' ha => ?_⟩, Or.inr ⟨rfl, rfl⟩⟩
  rcases ha with ha | ⟨ha, ha'⟩
  · obtain ⟨d, d', hd, hd', hdd⟩ := hh.environment a a' ha
    exact ⟨d, d', environment?_add_of_some hd e, environment?_add_of_some hd' e', hdd.mono hle⟩
  · obtain rfl : a = (h.add e).1 := by
      cases a
      exact congrArg EnvId.mk ha
    obtain rfl : a' = (h'.add e').1 := by
      cases a'
      exact congrArg EnvId.mk ha'
    exact ⟨e, e', environment?_add_self h e, environment?_add_self h' e', he.mono hle⟩

theorem Alike.enter (hh : h.Alike P R h') {f g : Closure} (hf : f.Alike P R g)
    (hvs : List.Forall₂ (Value.Alike P R) vs vs') :
    ∃ R', R ≤ R' ∧ (h.enter f vs).2.Alike P R' (h'.enter g vs').2 ∧
      R' (h.enter f vs).1 (h'.enter g vs').1 := by
  have hempty : (Environment.empty (h.chain f.env)).Alike P R (.empty (h'.chain g.env)) :=
    ⟨hh.chain hf.env, fun name _ => .none⟩
  rw [Heap.enter, Heap.enter, hf.parameters]
  exact ⟨_, hh.add (hempty.insertAll _ hvs)⟩

end Heap

/-! ### Plans -/

inductive Plan.Alike (P : String → Prop) (R : Naming) : Plan → Plan → Prop where
  | done {v v' : Value} {h h' : Heap} : v.Alike P R v' → h.Alike P R h' →
      Alike P R (.done v h) (.done v' h')
  | read {name : String} : P name → Alike P R (.read name) (.read name)
  | sequence {first first' : Task} {next next' : Value → Task} : first.Alike P R first' →
      (∀ R' v v', R ≤ R' → v.Alike P R' v' → (next v).Alike P R' (next' v')) →
      Alike P R (.sequence first next) (.sequence first' next')
  | enclosed {c c' : Context} {h h' : Heap} {t t' : Task} (R' : Naming) : R ≤ R' →
      h.Alike P R' h' → R' c.env c'.env → c.depth = c'.depth → t.Alike P R' t' →
      Alike P R (.enclosed c h t) (.enclosed c' h' t')

namespace Task

variable {limit : Nat} {c c' : Context} {t t' : Task}

theorem alike_branch {b b' : Block} {o o' : Option Block} (hv : v.Alike P R v')
    (hb : b.unlined = b'.unlined) (hbn : b.Names P)
    (ho : Block.unlinedOption o = Block.unlinedOption o') (hon : Block.NamesOption P o) :
    (branch v b o).Alike P R (branch v' b' o') := by
  have statements {b b' : Block} (hb : b.unlined = b'.unlined) (hbn : b.Names P) :
      Task.Alike P R (.stmts .null b.statements) (.stmts .null b'.statements) := by
    refine .stmts .null ?_ (Block.names_iff.mp hbn)
    rw [← Block.unlined_statements, hb, Block.unlined_statements]
  unfold branch
  rw [hv.isTruthy_eq]
  split
  · exact statements hb hbn
  · cases o with
    | none =>
      cases o' with
      | none => exact .value .null
      | some b' => simp [Block.unlinedOption] at ho
    | some b =>
      cases o' with
      | none => simp [Block.unlinedOption] at ho
      | some b' => exact statements (Option.some.inj ho) hon

theorem callPlan_alike (hh : h.Alike P R h') (hd : c.depth = c'.depth) (hv : v.Alike P R v')
    (hvs : List.Forall₂ (Value.Alike P R) vs vs') :
    (callPlan limit c h v vs).Alike P R (callPlan limit c' h' v' vs') := by
  rw [callPlan, callPlan, ← hd]
  rcases hv.callable hvs with ⟨e, he, he'⟩ | ⟨f, g, hf, hg, hfg⟩
  · rw [he, he']
    exact .done (.error _) hh
  · rw [hf, hg]
    dsimp only
    split
    · obtain ⟨R', hR, hh', henv⟩ := hh.enter hfg hvs
      refine .enclosed R' hR hh' henv (congrArg (· + 1) rfl) ?_
      refine .stmts .null ?_ (Block.names_iff.mp hfg.names)
      rw [← Block.unlined_statements, hfg.body, Block.unlined_statements]
    · exact .done (.error _) hh

/-- **Tasks that look alike are planned alike.** -/
theorem plan_alike (hh : h.Alike P R h') (hc : R c.env c'.env) (hd : c.depth = c'.depth)
    (ht : t.Alike P R t') : (t.plan limit c h).Alike P R (t'.plan limit c' h') := by
  cases ht with
  | @expr e e' he hn =>
    cases e with
    | identifier id =>
      cases e' with
      | identifier id' =>
        simp only [Expr.unlined, Identifier.unlined, Expr.identifier.injEq,
          Identifier.mk.injEq] at he
        rw [plan, plan, ← he.1]
        exact .read hn
      | _ => simp [Expr.unlined] at he
    | integer n line =>
      cases e' with
      | integer n' line' =>
        simp only [Expr.unlined, Expr.integer.injEq] at he
        rw [he.1]
        exact .done (.integer n') hh
      | _ => simp [Expr.unlined] at he
    | boolean b line =>
      cases e' with
      | boolean b' line' =>
        simp only [Expr.unlined, Expr.boolean.injEq] at he
        rw [he.1]
        exact .done (.boolean b') hh
      | _ => simp [Expr.unlined] at he
    | prefixed op operand line =>
      cases e' with
      | prefixed op' operand' line' =>
        simp only [Expr.unlined, Expr.prefixed.injEq] at he
        obtain ⟨rfl, ho, -⟩ := he
        exact .sequence (.expr ho hn) fun _ v v' _ hv => .value (hv.prefixApply op)
      | _ => simp [Expr.unlined] at he
    | infixed left op right line =>
      cases e' with
      | infixed left' op' right' line' =>
        simp only [Expr.unlined, Expr.infixed.injEq] at he
        obtain ⟨hl, rfl, hr, -⟩ := he
        exact .sequence (.expr hl hn.1) fun _ v v' _ hv => .rightOperand op hv hr hn.2
      | _ => simp [Expr.unlined] at he
    | conditional condition consequence alternative line =>
      cases e' with
      | conditional condition' consequence' alternative' line' =>
        simp only [Expr.unlined, Expr.conditional.injEq] at he
        obtain ⟨hcond, hcons, halt, -⟩ := he
        exact .sequence (.expr hcond hn.1) fun _ v v' _ hv =>
          alike_branch hv hcons hn.2.1 halt hn.2.2
      | _ => simp [Expr.unlined] at he
    | function parameters body line =>
      cases e' with
      | function parameters' body' line' =>
        simp only [Expr.unlined, Expr.function.injEq] at he
        obtain ⟨hps, hbody, -⟩ := he
        refine .done (.function ⟨map_name_of_unlined hps, hbody, hn.2, hc⟩) ?_
        exact hh.addClosure parameters parameters' body body' c.env c'.env
      | _ => simp [Expr.unlined] at he
    | call callee args line =>
      cases e' with
      | call callee' args' line' =>
        simp only [Expr.unlined, Expr.call.injEq] at he
        obtain ⟨hf, hargs, -⟩ := he
        exact .sequence (.expr hf hn.1) fun _ v v' _ hv => .arguments hv .nil hargs hn.2
      | _ => simp [Expr.unlined] at he
  | rightOperand op hv he hn =>
    exact .sequence (.expr he hn) fun R' w w' hR hw => .value ((hv.mono hR).infixApply op hw)
  | @arguments f f' vs vs' es es' hf hvs hes hn =>
    cases es with
    | nil =>
      cases es' with
      | nil => exact callPlan_alike hh hd hf hvs
      | cons e' es' => simp [Expr.unlinedAll] at hes
    | cons e es =>
      cases es' with
      | nil => simp [Expr.unlinedAll] at hes
      | cons e' es' =>
        simp only [Expr.unlinedAll, List.cons.injEq] at hes
        refine .sequence (.expr hes.1 hn.1) fun R' w w' hR hw => ?_
        exact .arguments (hf.mono hR)
          (List.rel_append (Value.forall₂_mono hR hvs) (.cons hw .nil)) hes.2 hn.2
  | apply hf hvs => exact callPlan_alike hh hd hf hvs
  | @stmt s s' hs hn =>
    cases s with
    | bind target e line =>
      cases s' with
      | bind target' e' line' =>
        simp only [Stmt.unlined, Stmt.bind.injEq] at hs
        have htarget : target.name = target'.name := (Identifier.mk.inj hs.1).1
        rw [plan, plan, htarget]
        exact .sequence (.expr hs.2.1 hn.2) fun _ v v' _ hv => .store _ hv
      | _ => simp [Stmt.unlined] at hs
    | ret e line =>
      cases s' with
      | ret e' line' =>
        simp only [Stmt.unlined, Stmt.ret.injEq] at hs
        exact .sequence (.expr hs.1 hn) fun _ v v' _ hv => .value (.pendingReturn hv)
      | _ => simp [Stmt.unlined] at hs
    | expr e line =>
      cases s' with
      | expr e' line' =>
        simp only [Stmt.unlined, Stmt.expr.injEq] at hs
        exact .sequence (.expr hs.1 hn) fun _ v v' _ hv => .value hv
      | _ => simp [Stmt.unlined] at hs
    | block b =>
      cases s' with
      | block b' =>
        have hb : b.unlined = b'.unlined := Stmt.block.inj hs
        refine .sequence (.stmts .null ?_ (Block.names_iff.mp hn)) fun _ v v' _ hv => .value hv
        rw [← Block.unlined_statements, hb, Block.unlined_statements]
      | _ => simp [Stmt.unlined] at hs
  | @stmts v v' ss ss' hv hss hn =>
    cases ss with
    | nil =>
      cases ss' with
      | nil => exact .done hv hh
      | cons s' ss' => simp [Stmt.unlinedAll] at hss
    | cons s ss =>
      cases ss' with
      | nil => simp [Stmt.unlinedAll] at hss
      | cons s' ss' =>
        simp only [Stmt.unlinedAll, List.cons.injEq] at hss
        exact .sequence (.stmt hss.1 hn.1) fun _ w w' _ hw => .stmts hw hss.2 hn.2
  | store name hv => exact .done .null (hh.insert hc name hv)
  | program hp hn => exact .enclosed R le_rfl hh hc hd (.stmts .null hp hn)
  | value hv => exact .done hv hh

theorem exists_plan_alike (hh : h.Alike P R h') (hc : R c.env c'.env) (hd : c.depth = c'.depth)
    (ht : t.Alike P R t') {p : Plan} (hp : t.plan limit c h = p) :
    ∃ p', t'.plan limit c' h' = p' ∧ p.Alike P R p' :=
  ⟨_, rfl, hp ▸ plan_alike hh hc hd ht⟩

end Task

/-! ### Outcomes -/

/-- **Tasks that look alike have outcomes that look alike**, and so do the heaps that
they leave; the environments that were made on the way are paired too. -/
theorem Evaluates.alike {limit : Nat} {c c' : Context} {h h' h₁ : Heap} {t t' : Task} {v : Value}
    {R : Naming} (he : Evaluates Heap.Records limit c h t v h₁) (hh : h.Alike P R h')
    (hc : R c.env c'.env) (hd : c.depth = c'.depth) (ht : t.Alike P R t') :
    ∃ R', R ≤ R' ∧ v.Alike P R' ((t'.run limit c').run h').1 ∧
      h₁.Alike P R' ((t'.run limit c').run h').2 := by
  induction he generalizing R c' h' t' with
  | done hp =>
    obtain ⟨p', hp', hplan⟩ := Task.exists_plan_alike hh hc hd ht hp
    rw [Task.run_eq, hp']
    cases hplan with
    | done hv hh' => exact ⟨R, le_rfl, hv, hh'⟩
  | @read c h t name v hp hr =>
    obtain ⟨p', hp', hplan⟩ := Task.exists_plan_alike hh hc hd ht hp
    rw [Task.run_eq, hp', ← hr]
    cases hplan with
    | read hn => exact ⟨R, le_rfl, hh.valueOf hc hn, hh⟩
  | stop hp _ hi ih =>
    obtain ⟨p', hp', hplan⟩ := Task.exists_plan_alike hh hc hd ht hp
    rw [Task.run_eq, hp']
    cases hplan with
    | sequence hfirst _ =>
      obtain ⟨R', hR, hv, hh'⟩ := ih hh hc hd hfirst
      rw [hv.interrupts_eq] at hi
      rw [Task.follow, if_pos hi]
      exact ⟨R', hR, hv, hh'⟩
  | next hp _ hi _ ih₁ ih₂ =>
    obtain ⟨p', hp', hplan⟩ := Task.exists_plan_alike hh hc hd ht hp
    rw [Task.run_eq, hp']
    cases hplan with
    | sequence hfirst hnext =>
      -- pairs are only added, so what looked alike before still does
      obtain ⟨R₁, hR₁, hv, hh₁⟩ := ih₁ hh hc hd hfirst
      obtain ⟨R₂, hR₂, hw, hh₂⟩ := ih₂ hh₁ (hR₁ _ _ hc) hd (hnext R₁ _ _ hR₁ hv)
      rw [hv.interrupts_eq] at hi
      rw [Task.follow, if_neg (by rw [hi]; exact Bool.false_ne_true)]
      exact ⟨R₂, le_trans hR₁ hR₂, hw, hh₂⟩
  | enclosed hp _ ih =>
    obtain ⟨p', hp', hplan⟩ := Task.exists_plan_alike hh hc hd ht hp
    rw [Task.run_eq, hp']
    cases hplan with
    | enclosed R₁ hR₁ hh₁ hc₁ hd₁ hbody =>
      obtain ⟨R₂, hR₂, hv, hh₂⟩ := ih hh₁ hc₁ hd₁ hbody
      exact ⟨R₂, le_trans hR₁ hR₂, hv.unwrapReturn, hh₂⟩

/-! ### Sessions -/

/-- What a user gets to see of an answer: the parse errors, or the kind and the written
form of a value. -/
def shown (answer : Except (List ParseError) Value) : Except (List ParseError) (Kind × String) :=
  answer.map fun v => (v.kind, v.text)

namespace Session

variable {s s' : Session}

/-- Sessions whose heaps look alike from where they are. -/
structure Alike (P : String → Prop) (R : Naming) (s s' : Session) : Prop where
  heap : s.heap.Alike P R s'.heap
  env : R s.current.env s'.current.env
  depth : s.current.depth = s'.current.depth

theorem alike_start (P : String → Prop) : ∃ R, Session.start.Alike P R Session.start := by
  have hempty : Heap.empty.Alike P (fun _ _ => False) .empty :=
    ⟨⟨fun _ _ _ h => h.elim, fun _ _ _ h => h.elim⟩, fun _ _ h => h.elim⟩
  have hglobal : (Environment.empty []).Alike P (fun _ _ => False) (.empty []) :=
    ⟨.nil, fun _ _ => .none⟩
  obtain ⟨-, hheap, henv⟩ := hempty.add hglobal
  exact ⟨_, hheap, henv, rfl⟩

/-- **Programs that are the same up to line numbers are evaluated alike** by sessions that
look alike. -/
theorem Alike.program (hs : s.Alike P R s') {p p' : Program}
    (hp : Stmt.unlinedAll p = Stmt.unlinedAll p') (hn : Stmt.NamesAll P p) (limit : Nat) :
    let o := Config.outcome limit ⟨s.current, s.heap, .program p⟩
    let o' := Config.outcome limit ⟨s'.current, s'.heap, .program p'⟩
    ∃ R', R ≤ R' ∧ o.1.Alike P R' o'.1 ∧
      Alike P R' { s with heap := o.2 } { s' with heap := o'.2 } := by
  intro o o'
  have he := Config.evaluates_outcome limit ⟨s.current, s.heap, .program p⟩
  obtain ⟨R', hR, hv, hh⟩ := he.alike hs.heap hs.env hs.depth (.program hp hn)
  exact ⟨R', hR, hv, hh, hR _ _ hs.env, hs.depth⟩

/-- **Sessions that look alike answer alike**, and then still look alike. -/
theorem Alike.evaluateSource (hs : s.Alike P R s') {source : String}
    (hn : Stmt.NamesAll P (parse source).program) :
    ∃ R', R ≤ R' ∧ shown (s.evaluateSource source).1 = shown (s'.evaluateSource source).1 ∧
      (s.evaluateSource source).2.Alike P R' (s'.evaluateSource source).2 := by
  by_cases hp : (parse source).errors = []
  · obtain ⟨R', hR, hv, hs'⟩ := hs.program rfl hn maxCallDepth
    rw [evaluateSource_of_parse hp, evaluateSource_of_parse hp]
    refine ⟨R', hR, ?_, hs'⟩
    exact congrArg Except.ok (Prod.ext hv.kind_eq hv.text_eq)
  · rw [evaluateSource_of_errors hp, evaluateSource_of_errors hp]
    exact ⟨R, le_rfl, rfl, hs⟩

theorem Alike.get? (hs : s.Alike (fun _ => True) R s')
    (name : String) :
    (s.get? name).map (fun v => (v.kind, v.text)) =
      (s'.get? name).map fun v => (v.kind, v.text) :=
  hs.heap.shown_lookup hs.env name

end Session

end ExprScript
