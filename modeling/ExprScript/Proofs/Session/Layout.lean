import ExprScript.Proofs.Evaluation.Alike
import ExprScript.Proofs.Evaluation.Termination
import ExprScript.Proofs.Parser.Layout

/-!
# Layout has no meaning

Blanks and line breaks separate tokens, and line breaks are counted; that is all they do.
Two texts with the same tokens are parsed to the same trees and the same errors up to line
numbers (`parse_unlined`), however malformed they are.  Trees that differ in
line numbers only are evaluated alike where the heap is the same, since a heap looks like
itself (`Heap.Closed.alike_refl`).

* `layout_does_not_matter`: parsing and evaluation of two texts with the same tokens.
-/

namespace ExprScript

/-! ### Heaps -/

namespace Heap

variable {h : Heap}

/-- All environments around an environment of the heap are in the heap. -/
theorem Closed.has_of_mem_enclosing (hc : h.Closed) (hl : h.Linked) {env : EnvId}
    {e : Environment} (he : h.environment? env = some e) : ∀ outer ∈ e.enclosing, h.Has outer := by
  -- along the links, each of which leads to an environment of the heap
  induction env using hl.acyclic.induction generalizing e with
  | h env ih =>
    intro outer ho
    cases hout : e.enclosing with
    | nil => simp [hout] at ho
    | cons first rest =>
      have hfirst : e.outer? = some first := by rw [Environment.outer?, hout, List.head?_cons]
      have hhas : h.Has first := hc.outer env first ⟨e, he, hfirst⟩
      obtain ⟨e₁, he₁⟩ := has_iff.mp hhas
      rw [hl env e first he hfirst, chain_of_some he₁] at ho
      rcases List.mem_cons.mp ho with rfl | ho
      · exact hhas
      · exact ih first ⟨e, he, hfirst⟩ he₁ outer ho

/-- Each environment of the heap, paired with itself. -/
def itself (h : Heap) : Naming :=
  fun a a' => a = a' ∧ h.Has a

theorem alike_refl_value {v : Value} (hv : v.Closed h) :
    v.Alike (fun _ => True) h.itself v := by
  induction v with
  | integer n => exact .integer n
  | boolean b => exact .boolean b
  | null => exact .null
  | error m => exact .error m
  | function f =>
    exact .function ⟨rfl, rfl, Block.names_of_forall (fun _ => trivial) f.body, rfl, hv⟩
  | pendingReturn v ih => exact .pendingReturn (ih hv)

/-- **A heap looks like itself.** -/
theorem Closed.alike_refl (hc : h.Closed) (hl : h.Linked) :
    h.Alike (fun _ => True) h.itself h := by
  refine ⟨⟨fun a b c ha hb => ha.1.trans hb.1.symm, fun a b c hb hc => hb.1.symm.trans hc.1⟩, ?_⟩
  rintro a _ ⟨rfl, ha⟩
  obtain ⟨e, he⟩ := has_iff.mp ha
  refine ⟨e, e, he, he, ?_, fun name _ => ?_⟩
  · exact List.forall₂_same.mpr fun outer ho => ⟨rfl, hc.has_of_mem_enclosing hl he outer ho⟩
  · cases hv : e.get? name with
    | none => exact .none
    | some v => exact .some (alike_refl_value (hc.value a e name v he hv))

end Heap

/-! ### Sessions -/

namespace Session

/-- Everything in a session refers to environments of its heap, and the chains recorded
there are those of the links. -/
structure Closed (s : Session) : Prop where
  heap : s.heap.Closed
  linked : s.heap.Linked
  env : s.heap.Has s.current.env

theorem closed_start : start.Closed :=
  ⟨Heap.closed_empty.addGlobal, Heap.closed_empty.linked_addGlobal Heap.linked_empty,
    Nat.zero_lt_one⟩

theorem Closed.evaluateSource {s : Session} (hs : s.Closed) (source : String) :
    (s.evaluateSource source).2.Closed := by
  by_cases hp : (parse source).errors = []
  · have hx : (s.config source).Closed := ⟨hs.env, hs.heap, trivial⟩
    obtain ⟨v, h', he⟩ := exists_evaluates_follows maxCallDepth hx hs.linked.acyclic
    obtain ⟨-, hc, hl⟩ := he.closed Heap.linkInvariant_linked hx hs.linked
    rw [evaluateSource_of_parse hp]
    have hrun : ((s.config source).outcome maxCallDepth).2 = h' :=
      congrArg Prod.snd (he.run_eq_of_linked hx hs.linked)
    rw [hrun]
    exact ⟨hc, hl, hs.env.of_changesOnly he.changesOnly⟩
  · rw [evaluateSource_of_errors hp]
    exact hs

theorem closed_after {s : Session} (hs : s.Closed) (sources : List String) :
    (s.after sources).Closed := by
  induction sources generalizing s with
  | nil => exact hs
  | cons source sources ih => exact ih (hs.evaluateSource source)

end Session

/-- What a user gets to see of an answer, but for the lines of errors. -/
def shownUnlined (answer : Except (List ParseError) Value) :
    Except (List ParseError) (Kind × String) :=
  (shown answer).mapError (List.map ParseError.unlined)

/-- **Layout does not matter.**  Two texts with the same tokens, whatever lines these are
on, are parsed to the same program and the same errors up to line numbers.  In any session
they are answered alike, and every environment that was there binds the same names
afterwards, to values that are shown alike. -/
theorem layout_does_not_matter {source source' : String}
    (h : (tokenize source).map Lexeme.token = (tokenize source').map Lexeme.token) :
    (Stmt.unlinedAll (parse source).program = Stmt.unlinedAll (parse source').program ∧
      (parse source).errors.map ParseError.unlined =
        (parse source').errors.map ParseError.unlined) ∧
    ∀ s : Session, s.Closed →
      shownUnlined (s.evaluateSource source).1 = shownUnlined (s.evaluateSource source').1 ∧
      ∀ env, s.heap.Has env → ∀ name,
        ((s.evaluateSource source).2.heap.lookup env name).map (fun v => (v.kind, v.text)) =
          ((s.evaluateSource source').2.heap.lookup env name).map fun v => (v.kind, v.text) := by
  obtain ⟨hprogram, herrors⟩ := Parsed.mk.inj (parse_unlined h)
  refine ⟨⟨hprogram, herrors⟩, fun s hs => ?_⟩
  have hself : s.Alike (fun _ => True) s.heap.itself s :=
    ⟨hs.heap.alike_refl hs.linked, ⟨rfl, hs.env⟩, rfl⟩
  by_cases hp : (parse source).errors = []
  · have hp' : (parse source').errors = [] := by
      rw [hp] at herrors
      exact List.map_eq_nil_iff.mp herrors.symm
    have hn := Stmt.namesAll_of_forall (fun _ => trivial) (parse source).program
    obtain ⟨R, hR, hv, hs'⟩ := hself.program hprogram hn maxCallDepth
    rw [Session.evaluateSource_of_parse hp, Session.evaluateSource_of_parse hp']
    refine ⟨?_, fun env henv name => ?_⟩
    · exact congrArg Except.ok (Prod.ext hv.kind_eq hv.text_eq)
    · exact hs'.heap.shown_lookup (hR env env ⟨rfl, henv⟩) name
  · have hp' : (parse source').errors ≠ [] := by
      intro hnil
      rw [hnil] at herrors
      exact hp (List.map_eq_nil_iff.mp herrors)
    rw [Session.evaluateSource_of_errors hp, Session.evaluateSource_of_errors hp']
    exact ⟨congrArg Except.error herrors, fun _ _ _ => rfl⟩

/-- A program on four lines and on one. -/
theorem layout_does_not_matter_lines :
    let long := "let f = fn(x)
{ x +
1 };
	f ( 2 )"
    let short := "let f=fn(x){x+1};f(2)"
    (tokenize long).map Lexeme.token = (tokenize short).map Lexeme.token ∧
      Session.start.Closed ∧
      shownUnlined (Session.start.evaluateSource long).1 =
        shownUnlined (Session.start.evaluateSource short).1 ∧
      shown (Session.start.evaluateSource short).1 = .ok (.integer, "3") := by
  intro long short
  have h : (tokenize long).map Lexeme.token = (tokenize short).map Lexeme.token := by
    decide +kernel
  refine ⟨h, Session.closed_start, ?_, by decide +kernel⟩
  exact ((layout_does_not_matter h).2 Session.start Session.closed_start).1

end ExprScript
