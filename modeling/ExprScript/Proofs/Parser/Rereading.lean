import ExprScript.Proofs.Grammar.Depth
import ExprScript.Proofs.Parser.Correctness
import ExprScript.Proofs.Parser.Layout

/-!
# Which written forms are read again

The written form of a statement that was parsed is read as that statement, up to line
numbers, if and only if it is `Rereadable`.  The parentheses that are written around
operations can be more than there were in the program, so the nesting limit may be met; that
is the only other way in which the written form can fail to be read.

* `read_written_form_iff`: the statement for every parsed program.
-/

namespace ExprScript

/-- What was parsed from a text without errors is what the grammar makes of it, and it can be
spelled. -/
theorem derives_of_parse {source : String} (h : (parse source).errors = []) :
    Derives (.statements (parse source).program) (tokenize source) [] ∧
      Stmt.SpelledAll (parse source).program := by
  have hparse : parse source = ⟨(parse source).program, []⟩ := by rw [← h]
  have hd : Derives (.statements (parse source).program) (tokenize source) [] :=
    derives_of_parseLexemes hparse
  exact ⟨hd, (hd.spelled (emitted_lexemesFrom 1 source.toList)).1⟩

theorem unlined_tokenize_text {s : Stmt} (hs : s.Spelled) :
    (tokenize s.text).map Lexeme.unlined = lexemesOf s.tokens := by
  rw [← Stmt.tokensOf_text hs, ← token_tokenize, lexemesOf, List.map_map]
  rfl

/-- A statement that is read from its own written form can be read again. -/
theorem rereadable_of_read {s : Stmt} (herrors : (parse s.text).errors = [])
    (hprogram : Stmt.unlinedAll (parse s.text).program = [s.unlined]) : s.Rereadable := by
  obtain ⟨hd, hspelled⟩ := derives_of_parse herrors
  rw [Stmt.unlinedAll_eq_map, List.map_eq_singleton_iff] at hprogram
  obtain ⟨s', hs', hunlined⟩ := hprogram
  rw [hs'] at hd hspelled
  have htext : s'.text = s.text := by rw [← s'.text_unlined, hunlined, s.text_unlined]
  have hmarks : SameMarks 0 0 (tokenize s.text) 0 0 (Stmt.tokensAll [s'] ++ []) := by
    rw [SameMarks, token_tokenize, ← htext, Stmt.tokensOf_text hspelled.1, Stmt.tokensAll,
      Stmt.tokensAll, List.append_nil, List.append_nil]
  obtain ⟨-, hr, -⟩ := hd.aligned hspelled 0 0 0 [] hmarks
  rwa [← s'.rereadable_unlined, hunlined, s.rereadable_unlined] at hr

theorem derives_tokens {s : Stmt} (hs : s.Spelled) (hr : s.Rereadable) :
    Derives (.statements [s.unlined]) (lexemesOf s.tokens) [] := by
  have hspelled : Stmt.SpelledAll [s] := ⟨hs, trivial⟩
  have hruns : ¬ s.RunsInto [] := by cases s <;> exact id
  have hreadable : Stmt.RereadableAll [s] := ⟨hr, hruns, trivial⟩
  have hend : ¬ Continues [] := by
    rintro ⟨l, tl, h, -⟩
    simp at h
  have hd := Stmt.derives_all hspelled hreadable [] hend
  rwa [Stmt.tokensAll, Stmt.tokensAll, List.append_nil, List.append_nil] at hd

theorem ne_nil_of_derives {s : Stmt} {ts : List Lexeme} (hd : Derives (.statements [s]) ts []) :
    ts ≠ [] := by
  have hstatement {rest : List Lexeme} (h : Derives (.statement s) ts rest) : ts ≠ [] := by
    obtain ⟨l, tl, rfl, -⟩ := h.starts
    exact List.cons_ne_nil l tl
  cases hd with
  | emptyStatement _ => exact List.cons_ne_nil _ _
  | terminated h _ => exact hstatement h
  | unterminated h _ _ => exact hstatement h

/-- A statement that can be read again is read from its written form, unless the nesting
limit is met. -/
theorem read_of_rereadable {s : Stmt} (hs : s.Spelled) (hr : s.Rereadable) :
    (parse s.text).unlined = ⟨[s.unlined], []⟩ ∨
      ∃ line, .nestingTooDeep maxNesting line ∈ (parse s.text).errors := by
  have hd := derives_tokens hs hr
  rw [← unlined_tokenize_text hs] at hd
  have hne : tokenize s.text ≠ [] := fun hnil => ne_nil_of_derives hd (by rw [hnil, List.map_nil])
  have hunlined := parseLexemesWithin_map_unlined maxNesting hne
  rcases hd.parseLexemes_eq with hok | ⟨line, hdeep⟩
  · exact Or.inl (hunlined.symm.trans hok)
  · rw [parseLexemes, hunlined] at hdeep
    obtain ⟨e, he, heq⟩ := List.mem_map.mp (List.mem_of_mem_head? hdeep)
    cases e with
    | nestingTooDeep limit line' =>
      obtain ⟨rfl, -⟩ := ParseError.nestingTooDeep.inj heq
      exact Or.inr ⟨line', he⟩
    | _ => simp [ParseError.unlined] at heq

/-- **Which written forms are read again.**  Take any statement, at the top or in a block at
any depth, of a program that was parsed from a text without errors.  If reading its written
form does not meet the nesting limit, then reading it gives that statement and no other, up
to line numbers, if and only if every condition in it is an operation and no expression in a
block of it runs into the next one. -/
theorem read_written_form_iff {source : String} (hsource : (parse source).errors = []) {s : Stmt}
    (hs : s ∈ Stmt.withInnerAll (parse source).program)
    (hdeep : ∀ limit line, .nestingTooDeep limit line ∉ (parse s.text).errors) :
    ((parse s.text).errors = [] ∧ Stmt.unlinedAll (parse s.text).program = [s.unlined]) ↔
      s.Rereadable := by
  have hspelled : s.Spelled := (derives_of_parse hsource).2.inner s hs
  refine ⟨fun h => rereadable_of_read h.1 h.2, fun hr => ?_⟩
  rcases read_of_rereadable hspelled hr with h | ⟨line, h⟩
  · obtain ⟨hprogram, herrors⟩ := Parsed.mk.inj h
    exact ⟨List.map_eq_nil_iff.mp herrors, hprogram⟩
  · exact absurd h (hdeep maxNesting line)

/-- The same two expressions in a block, one of them with a parenthesis in front: where it
comes first the written form is read again, and where it comes second it is not. -/
theorem read_written_form_iff_order :
    (∃ s ∈ Stmt.withInnerAll (parse "if (!x) \x7b -1; f \x7d").program,
      s.text = "if (!x) \x7b (-1) f \x7d" ∧ s.Rereadable ∧ (parse s.text).errors = [] ∧
      Stmt.unlinedAll (parse s.text).program = [s.unlined]) ∧
    ∃ s ∈ Stmt.withInnerAll (parse "if (!x) \x7b f; -1 \x7d").program,
      s.text = "if (!x) \x7b f (-1) \x7d" ∧ ¬ s.Rereadable ∧ (parse s.text).errors = [] ∧
      Stmt.unlinedAll (parse s.text).program ≠ [s.unlined] := by
  have first : ∃ s ∈ Stmt.withInnerAll (parse "if (!x) \x7b -1; f \x7d").program,
      s.text = "if (!x) \x7b (-1) f \x7d" ∧ s.Rereadable := by decide +kernel
  have second : ∃ s ∈ Stmt.withInnerAll (parse "if (!x) \x7b f; -1 \x7d").program,
      s.text = "if (!x) \x7b f (-1) \x7d" ∧ ¬ s.Rereadable := by decide +kernel
  obtain ⟨s, hs, htext, hr⟩ := first
  obtain ⟨s', hs', htext', hr'⟩ := second
  have herrors : (parse s.text).errors = [] := by
    rw [htext]
    decide +kernel
  have herrors' : (parse s'.text).errors = [] := by
    rw [htext']
    decide +kernel
  have hread := (read_written_form_iff (by decide +kernel) hs (by simp [herrors])).mpr hr
  refine ⟨⟨s, hs, htext, hr, hread⟩, s', hs', htext', hr', herrors', fun hprogram => hr' ?_⟩
  exact (read_written_form_iff (by decide +kernel) hs' (by simp [herrors'])).mp ⟨herrors', hprogram⟩

end ExprScript
