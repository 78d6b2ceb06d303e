import ExprScript.Proofs.Evaluation.Alike

/-!
# Lines that bind nothing

A line of a session is inert if it has parse errors, or if no statement of its program
binds a name, but for those in function literals (`inert`).  Such a line may still make
functions, call them, which makes environments, and fail.  None of this is ever seen by
another line: what there was before is not changed, so the heap with the line looks like
the heap without it (`Session.Alike.skip`), and lines answer alike where heaps look alike.

* `Evaluates.unchanged_of_letFree`: a tree without bindings changes no environment.
* `inert_lines_do_not_matter`: no answer depends on inert lines before or after it.
-/

namespace ExprScript

/-! ### Trees without bindings -/

mutual

/-- No statement in an expression binds a name, but perhaps in function literals. -/
def Expr.letFree : Expr → Bool
  | .identifier _ => true
  | .integer _ _ => true
  | .boolean _ _ => true
  | .prefixed _ operand _ => operand.letFree
  | .infixed left _ right _ => left.letFree && right.letFree
  | .conditional condition consequence alternative _ =>
    condition.letFree && consequence.letFree && Block.letFreeOption alternative
  | .function _ _ _ => true
  | .call callee arguments _ => callee.letFree && Expr.letFreeAll arguments

def Expr.letFreeAll : List Expr → Bool
  | [] => true
  | e :: es => e.letFree && Expr.letFreeAll es

def Stmt.letFree : Stmt → Bool
  | .bind _ _ _ => false
  | .ret value _ => value.letFree
  | .expr value _ => value.letFree
  | .block body => body.letFree

def Stmt.letFreeAll : List Stmt → Bool
  | [] => true
  | s :: ss => s.letFree && Stmt.letFreeAll ss

def Block.letFree : Block → Bool
  | .mk statements _ => Stmt.letFreeAll statements

def Block.letFreeOption : Option Block → Bool
  | none => true
  | some b => b.letFree

end

theorem Block.letFree_eq (b : Block) : b.letFree = Stmt.letFreeAll b.statements := by
  cases b
  rfl

def Task.letFree : Task → Bool
  | .expr e => e.letFree
  | .rightOperand _ _ e => e.letFree
  | .arguments _ _ es => Expr.letFreeAll es
  | .apply _ _ => true
  | .stmt s => s.letFree
  | .stmts _ ss => Stmt.letFreeAll ss
  | .store _ _ => false
  | .program p => Stmt.letFreeAll p
  | .value _ => true

namespace Task

variable {limit : Nat} {c : Context} {h : Heap} {t first : Task} {next : Value → Task}

theorem letFree_branch (v : Value) {consequence : Block} {alternative : Option Block}
    (hc : consequence.letFree = true) (ha : Block.letFreeOption alternative = true) :
    (branch v consequence alternative).letFree = true := by
  unfold branch
  split
  · rw [letFree, ← Block.letFree_eq, hc]
  · cases alternative with
    | none => rfl
    | some b =>
      rw [Block.letFreeOption, Block.letFree_eq] at ha
      exact ha

theorem letFree_sequence (ht : t.letFree = true) (hp : t.plan limit c h = .sequence first next) :
    first.letFree = true ∧ ∀ v, (next v).letFree = true := by
  cases splits_of_plan hp with
  | prefixed op operand line => exact ⟨ht, fun _ => rfl⟩
  | infixed left op right line =>
    obtain ⟨hl, hr⟩ := (Bool.and_eq_true _ _).mp ht
    exact ⟨hl, fun _ => hr⟩
  | conditional condition consequence alternative line =>
    obtain ⟨hcc, ha⟩ := (Bool.and_eq_true _ _).mp ht
    obtain ⟨hcond, hcons⟩ := (Bool.and_eq_true _ _).mp hcc
    exact ⟨hcond, fun v => letFree_branch v hcons ha⟩
  | call callee args line =>
    obtain ⟨hf, hargs⟩ := (Bool.and_eq_true _ _).mp ht
    exact ⟨hf, fun _ => hargs⟩
  | rightOperand left op right => exact ⟨ht, fun _ => rfl⟩
  | argument callee done e es =>
    obtain ⟨he, hes⟩ := (Bool.and_eq_true _ _).mp ht
    exact ⟨he, fun _ => hes⟩
  | bind target e line => exact absurd ht Bool.false_ne_true
  | ret e line => exact ⟨ht, fun _ => rfl⟩
  | exprStmt e line => exact ⟨ht, fun _ => rfl⟩
  | block body =>
    rw [letFree, Stmt.letFree, Block.letFree_eq] at ht
    exact ⟨ht, fun _ => rfl⟩
  | statement last s ss =>
    obtain ⟨hs, hss⟩ := (Bool.and_eq_true _ _).mp ht
    exact ⟨hs, fun _ => hss⟩

end Task

/-- **A tree without bindings changes no environment**, whatever it calls: what the calls
bind, they bind in environments of their own. -/
theorem Evaluates.unchanged_of_letFree {limit : Nat} {c : Context} {h h' : Heap} {t : Task}
    {v : Value} (he : Evaluates Heap.Records limit c h t v h') (ht : t.letFree = true) :
    h.Unchanged h' := by
  induction he with
  | @done c h h' t v hp =>
    rcases Task.plan_done hp with
      ⟨rfl, -⟩ | ⟨parameters, body, -, -, -, rfl⟩ | ⟨name, w, rfl, -, -⟩
    · exact fun _ _ he => he
    · exact h.unchanged_addClosure parameters body c.env
    · exact absurd ht Bool.false_ne_true
  | read _ _ => exact fun _ _ he => he
  | stop hp _ _ ih => exact ih (Task.letFree_sequence ht hp).1
  | next hp _ _ _ ih₁ ih₂ =>
    obtain ⟨hfirst, hnext⟩ := Task.letFree_sequence ht hp
    intro env e he
    exact ih₂ (hnext _) env e (ih₁ hfirst env e he)
  | enclosed hp hbody ih =>
    rcases Task.plan_enclosed hp with ⟨rfl, rfl, p, rfl, rfl⟩ | ⟨f, args, -, -, rfl, rfl, -⟩
    · exact ih ht
    · exact Heap.unchanged_of_enter hbody.changesOnly

/-! ### Inert lines -/

/-- A line that has parse errors, or a program without bindings. -/
def inert (line : String) : Bool :=
  !(parse line).errors.isEmpty || Stmt.letFreeAll (parse line).program

namespace Session

variable {P : String → Prop} {R : Naming} {s s' : Session}

theorem unchanged_evaluateSource (s : Session) {line : String} (hl : inert line = true) :
    s.heap.Unchanged (s.evaluateSource line).2.heap := by
  by_cases hp : (parse line).errors = []
  · rw [evaluateSource_of_parse hp]
    rw [inert, hp] at hl
    exact ((s.config line).evaluates_outcome maxCallDepth).unchanged_of_letFree hl
  · rw [evaluateSource_of_errors hp]
    exact fun _ _ he => he

theorem current_evaluateSource (s : Session) (line : String) :
    (s.evaluateSource line).2.current = s.current := rfl

/-- **A session looks the same with an inert line and without it.** -/
theorem Alike.skip (hs : s.Alike P R s') {line : String} (hl : inert line = true) :
    (s.evaluateSource line).2.Alike P R s' :=
  ⟨hs.heap.of_unchanged (s.unchanged_evaluateSource hl), hs.env, hs.depth⟩

theorem evaluateAll_cons (s : Session) (line : String) (lines : List String) :
    s.evaluateAll (line :: lines) =
      ((s.evaluateSource line).1 :: ((s.evaluateSource line).2.evaluateAll lines).1,
        ((s.evaluateSource line).2.evaluateAll lines).2) := rfl

theorem evaluateAll_append (s : Session) (before after : List String) :
    s.evaluateAll (before ++ after) =
      ((s.evaluateAll before).1 ++ ((s.after before).evaluateAll after).1,
        ((s.after before).evaluateAll after).2) := by
  induction before generalizing s with
  | nil => rfl
  | cons line before ih =>
    rw [List.cons_append, evaluateAll_cons, evaluateAll_cons, ih]
    rfl

theorem length_evaluateAll (s : Session) (lines : List String) :
    (s.evaluateAll lines).1.length = lines.length := by
  induction lines generalizing s with
  | nil => rfl
  | cons line lines ih => exact congrArg (· + 1) (ih _)

theorem Alike.evaluateAll (hs : s.Alike (fun _ => True) R s') (lines : List String) :
    (s.evaluateAll lines).1.map shown = (s'.evaluateAll lines).1.map shown ∧
      ∃ R', (s.after lines).Alike (fun _ => True) R' (s'.after lines) := by
  induction lines generalizing R s s' with
  | nil => exact ⟨rfl, R, hs⟩
  | cons line lines ih =>
    have hn := Stmt.namesAll_of_forall (fun _ => trivial) (parse line).program
    obtain ⟨R₁, -, hanswer, hs₁⟩ := hs.evaluateSource hn
    obtain ⟨hanswers, hs₂⟩ := ih hs₁
    exact ⟨congrArg₂ List.cons hanswer hanswers, hs₂⟩

/-- A session looks as if its inert lines had been left out. -/
theorem Alike.after_filter (hs : s.Alike (fun _ => True) R s') (lines : List String) :
    ∃ R', (s.after lines).Alike (fun _ => True) R'
      (s'.after (lines.filter fun line => !inert line)) := by
  induction lines generalizing R s s' with
  | nil => exact ⟨R, hs⟩
  | cons line lines ih =>
    cases hl : inert line with
    | true =>
      rw [List.filter_cons_of_neg (by simp [hl])]
      exact ih (hs.skip hl)
    | false =>
      rw [List.filter_cons_of_pos (by simp [hl])]
      have hn := Stmt.namesAll_of_forall (fun _ => trivial) (parse line).program
      obtain ⟨R₁, -, -, hs₁⟩ := hs.evaluateSource hn
      exact ih hs₁

/-- What a session that starts afresh answers to lines, as a user gets to see it. -/
def answers (lines : List String) : List (Except (List ParseError) (Kind × String)) :=
  (start.evaluateAll lines).1.map shown

/-- What is answered to a line depends on what was before it. -/
theorem answers_append_cons (before after : List String) (line : String) :
    answers (before ++ line :: after) = answers before ++
      shown ((start.after before).evaluateSource line).1 ::
        (((start.after before).evaluateSource line).2.evaluateAll after).1.map shown := by
  rw [answers, evaluateAll_append, List.map_append]
  rfl

theorem length_answers (lines : List String) : (answers lines).length = lines.length := by
  rw [answers, List.length_map, length_evaluateAll]

/-- The answers to all other lines stay the same when an inert line is left out. -/
theorem answers_eraseIdx (before after : List String) {line : String} (hl : inert line = true) :
    (answers (before ++ line :: after)).eraseIdx before.length = answers (before ++ after) := by
  obtain ⟨R, hstart⟩ := alike_start fun _ => True
  obtain ⟨-, R₁, hbefore⟩ := hstart.evaluateAll before
  have hafter := ((hbefore.skip hl).evaluateAll after).1
  rw [answers_append_cons, List.eraseIdx_append_of_length_le (Nat.le_of_eq (length_answers before)),
    length_answers, Nat.sub_self, List.eraseIdx_zero, List.tail_cons, hafter, answers, answers,
    evaluateAll_append, List.map_append]

/-- An answer is the same wherever the lines before it that are not inert are. -/
theorem shown_evaluateSource_filter (before : List String) (line : String) :
    shown ((start.after before).evaluateSource line).1 =
      shown ((start.after (before.filter fun l => !inert l)).evaluateSource line).1 := by
  obtain ⟨R, hstart⟩ := alike_start fun _ => True
  obtain ⟨R₁, hbefore⟩ := hstart.after_filter before
  have hn := Stmt.namesAll_of_forall (fun _ => trivial) (parse line).program
  obtain ⟨-, -, hanswer, -⟩ := hbefore.evaluateSource hn
  exact hanswer

end Session

/-- **Inert lines do not matter to other lines.**  When one is left out of a session, all
other answers stay as they are.  More than that, the answer to a line depends on nothing
but the line and those before it that are not inert: inert lines can be put in, repeated
and moved about. -/
theorem inert_lines_do_not_matter :
    (∀ before after line, inert line = true →
      (Session.answers (before ++ line :: after)).eraseIdx before.length =
        Session.answers (before ++ after)) ∧
    ∀ before before' after after' line,
      (before.filter fun l => !inert l) = (before'.filter fun l => !inert l) →
      ∃ answer, (Session.answers (before ++ line :: after))[before.length]? = some answer ∧
        (Session.answers (before' ++ line :: after'))[before'.length]? = some answer := by
  have answer_at (before after : List String) (line : String) :
      (Session.answers (before ++ line :: after))[before.length]? =
        some (shown ((Session.start.after before).evaluateSource line).1) := by
    rw [Session.answers_append_cons,
      List.getElem?_append_right (Nat.le_of_eq (Session.length_answers before)),
      Session.length_answers,
      Nat.sub_self, List.getElem?_cons_zero]
  refine ⟨fun before after line hl => Session.answers_eraseIdx before after hl, ?_⟩
  intro before before' after after' line hfilter
  refine ⟨_, answer_at before after line, ?_⟩
  rw [answer_at, Session.shown_evaluateSource_filter before', ← hfilter,
    ← Session.shown_evaluateSource_filter before]

/-- A call that binds names in its own environment only: it is inert, and the binding of
the function it calls is not. -/
theorem inert_lines_do_not_matter_call :
    let f := "let f = fn(x) \x7b let y = x + 1; y \x7d"
    inert f = false ∧ inert "f(2)" = true ∧
      (Session.answers [f, "f(2)", "f(3)"]).eraseIdx 1 = Session.answers [f, "f(3)"] ∧
      Session.answers [f, "f(3)"] = [.ok (.null, "null"), .ok (.integer, "4")] := by
  intro f
  have hcall : inert "f(2)" = true := by decide +kernel
  refine ⟨by decide +kernel, hcall, ?_, by decide +kernel⟩
  exact inert_lines_do_not_matter.1 [f] ["f(3)"] "f(2)" hcall

end ExprScript
