import ExprScript.Proofs.Parser.Boundary
import ExprScript.Proofs.Parser.Layout
import ExprScript.Proofs.Session.Inert

/-!
# Evaluation at once and in turn

Texts that are evaluated one after the other can also be put together, with semicolons
between them, and evaluated at once.  That gives the value of the first of them that is
stopped by an error or a return, or of the last one if none is (`Session.FirstStop`), and
leaves what has been bound up to there.

Each layer has its own reason.  A semicolon begins a new token wherever it stands, so the
lexemes of the whole are those of the texts.  A program that has been read without errors
is read in the same way with a semicolon behind it, so the statements of the whole are
those of the texts up to line numbers (`parse_intercalate`).  And evaluation goes from one
statement to the next, so it goes from one program to the next (`Task.run_stmts_append`),
where the value of the statement before matters only if there is none after it.

* `batch_agrees`: evaluation at once agrees with evaluation in turn.
-/

namespace ExprScript

/-! ### Parsing -/

theorem parse_semicolon {first second : String} (h₁ : (parse first).errors = [])
    (h₂ : (parse second).errors = []) :
    (parse (first ++ ";" ++ second)).errors = [] ∧
      Stmt.unlinedAll (parse (first ++ ";" ++ second)).program =
        Stmt.unlinedAll ((parse first).program ++ (parse second).program) := by
  obtain ⟨line, htokens⟩ := tokenize_semicolon first second
  let behind := parseLexemes (lexemesFrom line second.toList)
  have hboth : parse (first ++ ";" ++ second) =
      ⟨(parse first).program ++ behind.program, behind.errors⟩ := by
    rw [parse, htokens, ← List.singleton_append, ← List.append_assoc]
    exact parseLexemesWithin_append_semicolons h₁ (by simp) (List.cons_ne_nil _ _) _
  -- the second program is that of the text alone, on other lines
  have hbehind : behind.unlined = (parse second).unlined :=
    parseLexemesWithin_unlined maxNesting (unlined_lexemesFrom line 1 second.toList)
  obtain ⟨hprogram, herrors⟩ := Parsed.mk.inj hbehind
  rw [h₂, List.map_nil, List.map_eq_nil_iff] at herrors
  rw [hboth]
  refine ⟨herrors, ?_⟩
  rw [Stmt.unlinedAll_eq_map, Stmt.unlinedAll_eq_map, List.map_append, List.map_append,
    ← Stmt.unlinedAll_eq_map behind.program, hprogram, Stmt.unlinedAll_eq_map]

/-- **The program of texts with semicolons between them** is that of the texts one after
the other. -/
theorem parse_intercalate {sources : List String} (hne : sources ≠ [])
    (h : ∀ source ∈ sources, (parse source).errors = []) :
    (parse (String.intercalate ";" sources)).errors = [] ∧
      Stmt.unlinedAll (parse (String.intercalate ";" sources)).program =
        Stmt.unlinedAll (sources.flatMap fun source => (parse source).program) := by
  induction sources with
  | nil => exact absurd rfl hne
  | cons source sources ih =>
    have hsource := h source List.mem_cons_self
    cases sources with
    | nil =>
      rw [String.intercalate_singleton, List.flatMap_singleton]
      exact ⟨hsource, rfl⟩
    | cons next sources =>
      obtain ⟨hrest, hprogram⟩ := ih (List.cons_ne_nil _ _) fun s hs =>
        h s (List.mem_cons_of_mem _ hs)
      obtain ⟨hall, hprograms⟩ := parse_semicolon hsource hrest
      rw [String.intercalate_cons_cons]
      refine ⟨hall, ?_⟩
      rw [hprograms, List.flatMap_cons, Stmt.unlinedAll_eq_map, Stmt.unlinedAll_eq_map,
        List.map_append, List.map_append, ← Stmt.unlinedAll_eq_map, ← Stmt.unlinedAll_eq_map,
        hprogram, Stmt.unlinedAll_eq_map, Stmt.unlinedAll_eq_map]

/-! ### Statements one after the other -/

namespace Task

variable {limit : Nat} {c : Context} {h : Heap}

/-- The value before a statement does not matter to it. -/
theorem run_stmts_cons (last : Value) (s : Stmt) (ss : List Stmt) :
    ((Task.stmts last (s :: ss)).run limit c).run h =
      ((Task.stmts .null (s :: ss)).run limit c).run h := by
  rw [run_eq, run_eq]
  rfl

/-- **Statements after statements** are evaluated where these have not been stopped. -/
theorem run_stmts_append {last : Value} (hlast : last.interrupts = false) (p q : List Stmt) :
    ((Task.stmts last (p ++ q)).run limit c).run h =
      let o := ((Task.stmts last p).run limit c).run h
      if o.1.interrupts then o else ((Task.stmts o.1 q).run limit c).run o.2 := by
  induction p generalizing last h with
  | nil =>
    have hnil : ((Task.stmts last []).run limit c).run h = (last, h) := rfl
    simp only [hnil, hlast, Bool.false_eq_true, if_false]
    rfl
  | cons s p ih =>
    rw [List.cons_append, run_eq, run_eq]
    simp only [plan, follow]
    cases hi : (((Task.stmt s).run limit c).run h).1.interrupts with
    | true => simp only [hi, if_true]
    | false =>
      simp only [Bool.false_eq_true, if_false]
      exact ih hi

end Task

/-! ### Texts one after the other -/

namespace Session

variable {s : Session}

/-- What comes of the statements of a text, before a return at the top level ends. -/
def statementsOutcome (s : Session) (source : String) : Value × Heap :=
  Config.outcome maxCallDepth ⟨s.current, s.heap, .stmts .null (parse source).program⟩

/-- The program of a text is stopped by an error or a pending return. -/
def stops (s : Session) (source : String) : Bool :=
  (s.statementsOutcome source).1.interrupts

/-- Some texts are evaluated in turn, and the program of none of them is stopped. -/
def Completes (s : Session) : List String → Prop
  | [] => True
  | source :: sources => s.stops source = false ∧ (s.evaluateSource source).2.Completes sources

/-- Of some texts that are evaluated in turn, `source`, with those `before` it, is the first
one whose program is stopped, or it is the last one and none of the others is stopped. -/
structure FirstStop (s : Session) (sources before : List String) (source : String) : Prop where
  split : ∃ rest, sources = before ++ source :: rest ∧
    ((s.after before).stops source = true ∨ rest = [])
  before : s.Completes before

/-- Where the first text is stopped or is the only one, none behind it is the first to be
stopped. -/
theorem FirstStop.not_cons {sources before : List String} {first source source' : String}
    (h : s.FirstStop sources [] source) : ¬ s.FirstStop sources (first :: before) source' := by
  intro h'
  obtain ⟨rest, rfl, hend⟩ := h.split
  obtain ⟨rest', hsplit, -⟩ := h'.split
  obtain ⟨rfl, hrest⟩ := List.cons.inj hsplit
  have hgoes : s.stops source = false := h'.before.1
  rcases hend with hstop | rfl
  · have hstops : s.stops source = true := hstop
    rw [hgoes] at hstops
    exact Bool.false_ne_true hstops
  · exact absurd hrest (by simp)

/-- There is at most one first text to be stopped. -/
theorem FirstStop.unique {sources before before' : List String} {source source' : String}
    (h : s.FirstStop sources before source) (h' : s.FirstStop sources before' source') :
    before' = before ∧ source' = source := by
  induction before generalizing s sources before' with
  | nil =>
    cases before' with
    | nil =>
      obtain ⟨rest, rfl, -⟩ := h.split
      obtain ⟨rest', hsplit, -⟩ := h'.split
      exact ⟨rfl, (List.cons.inj hsplit).1.symm⟩
    | cons first before' => exact absurd h' h.not_cons
  | cons first before ih =>
    cases before' with
    | nil => exact absurd h h'.not_cons
    | cons first' before' =>
      obtain ⟨⟨rest, rfl, hend⟩, -, hbefore⟩ := h
      obtain ⟨⟨rest', hsplit, hend'⟩, -, hbefore'⟩ := h'
      obtain ⟨rfl, hrest⟩ := List.cons.inj hsplit
      obtain ⟨hb, hs⟩ := ih ⟨⟨rest, rfl, hend⟩, hbefore⟩ ⟨⟨rest', hrest, hend'⟩, hbefore'⟩
      exact ⟨congrArg (first :: ·) hb, hs⟩

theorem current_after (s : Session) (sources : List String) :
    (s.after sources).current = s.current := by
  induction sources generalizing s with
  | nil => rfl
  | cons source sources ih => exact (ih _).trans (s.current_evaluateSource source)

/-- The answer to a text is what comes of its statements, and a return ends there. -/
theorem evaluateSource_eq {source : String} (hp : (parse source).errors = []) :
    s.evaluateSource source = (.ok (s.statementsOutcome source).1.unwrapReturn,
      { s with heap := (s.statementsOutcome source).2 }) :=
  evaluateSource_of_parse hp

/-- **The programs of some texts, evaluated as one**, come to what the program of the first
text comes to that is stopped. -/
theorem exists_firstStop {sources : List String} (hne : sources ≠ [])
    (hparse : ∀ source ∈ sources, (parse source).errors = [])
    (hprogram : ∀ source ∈ sources, (parse source).program ≠ []) :
    ∃ before source, s.FirstStop sources before source ∧
      Config.outcome maxCallDepth ⟨s.current, s.heap,
        .stmts .null (sources.flatMap fun source => (parse source).program)⟩ =
      (s.after before).statementsOutcome source := by
  induction sources generalizing s with
  | nil => exact absurd rfl hne
  | cons source sources ih =>
    have happend (q : List Stmt) : Config.outcome maxCallDepth
        ⟨s.current, s.heap, .stmts .null ((parse source).program ++ q)⟩ =
        if s.stops source then s.statementsOutcome source
        else Config.outcome maxCallDepth ⟨s.current, (s.statementsOutcome source).2,
          .stmts (s.statementsOutcome source).1 q⟩ :=
      Task.run_stmts_append rfl (parse source).program q
    rw [List.flatMap_cons, happend]
    cases hstop : s.stops source with
    | true => exact ⟨[], source, ⟨⟨sources, rfl, Or.inl hstop⟩, trivial⟩, rfl⟩
    | false =>
      rw [if_neg Bool.false_ne_true]
      cases sources with
      | nil => exact ⟨[], source, ⟨⟨[], rfl, Or.inr rfl⟩, trivial⟩, rfl⟩
      | cons next sources =>
        have hsource := evaluateSource_eq (s := s) (hparse source List.mem_cons_self)
        obtain ⟨before, last, hlast, houtcome⟩ := ih (s := (s.evaluateSource source).2)
          (List.cons_ne_nil _ _) (fun x hx => hparse x (List.mem_cons_of_mem _ hx))
          fun x hx => hprogram x (List.mem_cons_of_mem _ hx)
        obtain ⟨rest, hsplit, hend⟩ := hlast.split
        refine ⟨source :: before, last, ⟨⟨rest, ?_, hend⟩, hstop, hlast.before⟩, ?_⟩
        · rw [hsplit, List.cons_append]
        · have hafter : s.after (source :: before) =
              (s.evaluateSource source).2.after before := rfl
          rw [hafter, ← houtcome, hsource]
          -- there is a statement to come, so the value before it does not matter
          obtain ⟨x, xs, hx⟩ := List.exists_cons_of_ne_nil
            (hprogram next (List.mem_cons_of_mem _ List.mem_cons_self))
          rw [List.flatMap_cons, hx]
          exact Task.run_stmts_cons _ _ _

end Session

/-- **Evaluation at once agrees with evaluation in turn.**  Take some texts without parse
errors, none of them empty.  When they are evaluated in turn, there is one that is the
first whose program is stopped, or the last one if none is.  Put together with semicolons
between them and evaluated in a fresh session, they succeed with the answer of that one.
The sessions after that look alike, so the same names are bound to values of the same kind
and text. -/
theorem batch_agrees {sources : List String} (hne : sources ≠ [])
    (hparse : ∀ source ∈ sources, (parse source).errors = [] ∧ (parse source).program ≠ []) :
    ∃ before source,
      (∀ b x, Session.start.FirstStop sources b x ↔ b = before ∧ x = source) ∧
      let atOnce := Session.start.evaluateSource (String.intercalate ";" sources)
      let inTurn := (Session.start.after before).evaluateSource source
      (∃ v, atOnce.1 = .ok v) ∧ shown atOnce.1 = shown inTurn.1 ∧
        (∃ R, atOnce.2.Alike (fun _ => True) R inTurn.2) ∧
        ∀ name, (atOnce.2.get? name).map (fun v => (v.kind, v.text)) =
          (inTurn.2.get? name).map fun v => (v.kind, v.text) := by
  obtain ⟨before, source, hfirst, houtcome⟩ := Session.exists_firstStop (s := .start) hne
    (fun source h => (hparse source h).1) fun source h => (hparse source h).2
  obtain ⟨hall, hprogram⟩ := parse_intercalate hne fun source h => (hparse source h).1
  have hsource : (parse source).errors = [] := by
    obtain ⟨rest, hsplit, -⟩ := hfirst.split
    exact (hparse source (by rw [hsplit]; simp)).1
  -- the joined program has other lines than the programs in turn
  obtain ⟨R, hstart⟩ := Session.alike_start fun _ => True
  obtain ⟨R', -, hv, hs⟩ := hstart.program hprogram (Stmt.namesAll_of_forall (fun _ => trivial) _)
    maxCallDepth
  have hprograms : Config.outcome maxCallDepth ⟨Session.start.current, Session.start.heap,
        .program (sources.flatMap fun source => (parse source).program)⟩ =
      (((Session.start.after before).statementsOutcome source).1.unwrapReturn,
        ((Session.start.after before).statementsOutcome source).2) := by
    rw [← houtcome]
    rfl
  rw [hprograms] at hv hs
  have hinTurn := Session.evaluateSource_eq (s := Session.start.after before) hsource
  have hatOnce := Session.evaluateSource_of_parse (s := .start) hall
  have hlook : ((Session.start.evaluateSource (String.intercalate ";" sources)).2).Alike
      (fun _ => True) R' ((Session.start.after before).evaluateSource source).2 := by
    rw [hinTurn, hatOnce]
    refine ⟨hs.heap, ?_, ?_⟩
    · rw [Session.current_after]
      exact hs.env
    · rw [Session.current_after]
  have hunique : ∀ b x, Session.start.FirstStop sources b x ↔ b = before ∧ x = source := by
    refine fun b x => ⟨hfirst.unique, ?_⟩
    rintro ⟨rfl, rfl⟩
    exact hfirst
  refine ⟨before, source, hunique, ⟨_, by rw [hatOnce]⟩, ?_, ⟨R', hlook⟩, hlook.get?⟩
  rw [hinTurn, hatOnce]
  exact congrArg Except.ok (Prod.ext hv.kind_eq hv.text_eq)

/-- The first text returns in the middle of its program, so the second one does not come
to be evaluated, in turn or at once. -/
theorem batch_agrees_return :
    ∃ before source,
      Session.start.FirstStop ["let x = 1; return x; x + 1", "let x = 2"] before source ∧
      shown ((Session.start.after before).evaluateSource source).1 = .ok (.integer, "1") := by
  have hcheck : ∀ source ∈ ["let x = 1; return x; x + 1", "let x = 2"],
      (parse source).errors.isEmpty = true ∧ (parse source).program.isEmpty = false := by
    decide +kernel
  have hanswer : shown (Session.start.evaluateSource
      (String.intercalate ";" ["let x = 1; return x; x + 1", "let x = 2"])).1 =
        .ok (.integer, "1") := by
    decide +kernel
  obtain ⟨before, source, hfirst, -, hshown, -⟩ := batch_agrees (List.cons_ne_nil _ _)
    fun source h => ⟨List.isEmpty_iff.mp (hcheck source h).1,
      List.isEmpty_eq_false_iff.mp (hcheck source h).2⟩
  exact ⟨before, source, (hfirst before source).mpr ⟨rfl, rfl⟩, hshown.symm.trans hanswer⟩

end ExprScript
