import ExprScript.Proofs.Parser.Completeness
import ExprScript.Proofs.Parser.Nesting

/-!
# The parser and the grammar

Whole inputs: a program without errors is a program of the grammar, and a program of
the grammar is parsed without errors unless it nests too deeply, which is then the
first thing that is reported.

* `Derives.exists_limit`: with enough levels of nesting it is parsed.
* `Derives.program_unique`: the grammar is unambiguous.
* `parseLexemes_derives`: the parser accepts the programs of the grammar and no
  others.
* `nesting_limit_is_transparent`: on every input, well-formed or not, two limits differ
  only where the lower one is reported.
-/

namespace ExprScript

theorem parseLexemesWithin_eq_iff {limit : Nat} {lexemes : List Lexeme} {p : Program} :
    parseLexemesWithin limit lexemes = ⟨p, []⟩ ↔
      ∃ c, (Parser.programWithin limit).Accepts (.start lexemes) p c := by
  simp only [parseLexemesWithin, Reader.run, Reader.start, List.nil_append, Parser.Accepts]
  cases hr : ((Parser.programWithin limit).run (.start lexemes)).result with
  | error e =>
    refine ⟨fun h => by simp at h, ?_⟩
    rintro ⟨c, h⟩
    simp [h] at hr
  | ok q =>
    refine ⟨fun h => ⟨((Parser.programWithin limit).run (.start lexemes)).next, ?_⟩, ?_⟩
    · obtain ⟨rfl, hrec⟩ := Parsed.mk.inj h
      rw [← hr, ← hrec]
    · rintro ⟨c, h⟩
      rw [h] at hr ⊢
      rw [Except.ok.inj hr]

theorem Parser.accepts_programWithin_expr {limit : Nat} {lexemes rest : List Lexeme} {l : Lexeme}
    {e : Expr} {c : Cursor} (hl : lexemes = l :: rest) (hs : l.token.startForm?.isSome)
    (he : (Parser.expressionAt limit limit .lowest).Accepts (.start lexemes) e c)
    (hc : c.rest = []) :
    (Parser.programWithin limit).Accepts (.start lexemes) [.expr e l.line] c := by
  have hrest : (Cursor.start lexemes).rest = l :: rest := hl
  have hsemi : l.token ≠ .semicolon := by
    intro ht
    rw [ht] at hs
    exact absurd hs (by decide)
  refine (accepts_statementsUntil_statement hrest rfl hsemi).mpr ⟨_, c, [], rfl, ?_, ?_⟩
  · refine accepts_recovering.mpr ⟨_, c, rfl, ?_, ?_⟩
    · rw [statementWithin, stmt, accepts_peek_bind, Cursor.token?_of_rest hrest]
      split
      · next ht =>
        rw [Option.some.inj ht] at hs
        exact absurd hs (by decide)
      · next ht =>
        rw [Option.some.inj ht] at hs
        exact absurd hs (by decide)
      · rw [exprStmt, accepts_currentLine_bind, Cursor.currentLine, hrest]
        refine accepts_bind.mpr ⟨e, c, he, ?_⟩
        refine accepts_bind.mpr ⟨false, c, ?_, accepts_pure.mpr ⟨rfl, rfl⟩⟩
        exact accepts_optional.mpr (Or.inr ⟨rfl, by simp [Cursor.token?, hc], rfl⟩)
    · rw [if_pos]
      rw [c.left_eq, Cursor.left_eq, hc, hrest]
      exact Nat.zero_lt_succ _
  · exact (accepts_statementsUntil_stop (by simp [Cursor.token?, hc])).mpr ⟨rfl, rfl⟩

theorem errors_parseLexemesWithin (limit : Nat) (lexemes : List Lexeme) :
    (parseLexemesWithin limit lexemes).errors =
      ((Parser.programWithin limit).run (.start lexemes)).errors := by
  simp only [parseLexemesWithin, Reader.run, Reader.start, List.nil_append, Outcome.errors]
  cases ((Parser.programWithin limit).run (.start lexemes)).result with
  | error e => rfl
  | ok q => simp

/-- A higher limit gives the same, or the lower one is reported and the errors before
that are the first ones of both. -/
theorem parseLexemesWithin_extended {limit limit' : Nat} (hle : limit ≤ limit')
    (lexemes : List Lexeme) :
    parseLexemesWithin limit' lexemes = parseLexemesWithin limit lexemes ∨
      ∃ before line,
        before ++ [.nestingTooDeep limit line] <+: (parseLexemesWithin limit lexemes).errors ∧
        before <+: (parseLexemesWithin limit' lexemes).errors := by
  rcases Parser.programWithin_extendedBy hle (.start lexemes) with he | hmet
  · refine Or.inl ?_
    simp only [parseLexemesWithin, Reader.run, Reader.start, he]
  · rw [errors_parseLexemesWithin, errors_parseLexemesWithin]
    exact Or.inr hmet

/-- Where a higher limit accepts, a lower one accepts the same or its first error is
that of the limit. -/
theorem parseLexemesWithin_of_le {limit limit' : Nat} (hle : limit ≤ limit')
    {lexemes : List Lexeme} {p : Program} (h : parseLexemesWithin limit' lexemes = ⟨p, []⟩) :
    parseLexemesWithin limit lexemes = ⟨p, []⟩ ∨
      ∃ line, (parseLexemesWithin limit lexemes).errors.head? = some (.nestingTooDeep limit line) := by
  rcases parseLexemesWithin_extended hle lexemes with he | ⟨before, line, hb, hb'⟩
  · exact Or.inl (he.symm.trans h)
  · rw [h] at hb'
    obtain rfl : before = [] := List.prefix_nil.mp hb'
    obtain ⟨others, ho⟩ := hb
    refine Or.inr ⟨line, ?_⟩
    rw [← ho]
    rfl

/-- With enough levels of nesting, a program of the grammar is parsed. -/
theorem Derives.exists_limit {p : Program} {lexemes : List Lexeme}
    (hd : Derives (.statements p) lexemes []) :
    ∃ limit, ∀ limit', limit ≤ limit' → parseLexemesWithin limit' lexemes = ⟨p, []⟩ := by
  have hc : Parser.Complete 0 (.statements p) lexemes [] := hd.complete
  obtain ⟨m, -, n, hn⟩ := hc (.start lexemes) (fun _ => false) rfl (by simp) (by simp)
  refine ⟨n, fun limit' hle => parseLexemesWithin_eq_iff.mpr ⟨m, ?_⟩⟩
  exact (hn n (Nat.le_refl n)).mono
    ((Parser.ExtendedBy.stmt (Parser.extendedBy_levels limit' hle).1).statementsUntil _)

/-- The grammar is unambiguous. -/
theorem Derives.program_unique {p q : Program} {lexemes : List Lexeme}
    (hp : Derives (.statements p) lexemes []) (hq : Derives (.statements q) lexemes []) :
    p = q := by
  obtain ⟨m, hm⟩ := hp.exists_limit
  obtain ⟨n, hn⟩ := hq.exists_limit
  have h := (hm _ (Nat.le_max_left m n)).symm.trans (hn _ (Nat.le_max_right m n))
  exact (Parsed.mk.inj h).1

theorem derives_of_parseLexemes {lexemes : List Lexeme} {p : Program}
    (h : parseLexemes lexemes = ⟨p, []⟩) : Derives (.statements p) lexemes [] := by
  obtain ⟨c, hc⟩ := parseLexemesWithin_eq_iff.mp h
  exact Parser.programWithin_sound hc

/-- A program of the grammar is parsed, or the nesting limit is the first error. -/
theorem Derives.parseLexemes_eq {p : Program} {lexemes : List Lexeme}
    (hd : Derives (.statements p) lexemes []) :
    parseLexemes lexemes = ⟨p, []⟩ ∨ ∃ line,
      (parseLexemes lexemes).errors.head? = some (.nestingTooDeep maxNesting line) := by
  obtain ⟨limit, hl⟩ := hd.exists_limit
  exact parseLexemesWithin_of_le (Nat.le_max_left maxNesting limit)
    (hl _ (Nat.le_max_right maxNesting limit))

/-- **The parser accepts the programs of the grammar and no others**, with the tree
that the grammar gives them.  Only the nesting limit can keep a program of the
grammar from being accepted: then it is the first error, and a higher limit helps. -/
theorem parseLexemes_derives (lexemes : List Lexeme) (p : Program) :
    (parseLexemes lexemes = ⟨p, []⟩ → Derives (.statements p) lexemes []) ∧
      (Derives (.statements p) lexemes [] →
        (parseLexemes lexemes = ⟨p, []⟩ ∨ ∃ line,
          (parseLexemes lexemes).errors.head? = some (.nestingTooDeep maxNesting line)) ∧
        ∃ limit, ∀ limit', limit ≤ limit' → parseLexemesWithin limit' lexemes = ⟨p, []⟩) :=
  ⟨derives_of_parseLexemes, fun hd => ⟨hd.parseLexemes_eq, hd.exists_limit⟩⟩

/-- **The nesting limit is transparent.**  Whatever the lexemes are, if the lower one of two
limits is not reported, then both give the same program and the same errors.  If they differ,
then the lower limit is reported, and all errors found before that are found with the higher
one too. -/
theorem nesting_limit_is_transparent {limit limit' : Nat} (hle : limit ≤ limit')
    (lexemes : List Lexeme) :
    let low := parseLexemesWithin limit lexemes
    let high := parseLexemesWithin limit' lexemes
    ((∀ line, .nestingTooDeep limit line ∉ low.errors) → high = low) ∧
      (high ≠ low → ∃ before line,
        before ++ [.nestingTooDeep limit line] <+: low.errors ∧ before <+: high.errors) := by
  intro low high
  have hextended := parseLexemesWithin_extended hle lexemes
  refine ⟨fun hnot => ?_, fun hne => hextended.resolve_left hne⟩
  rcases hextended with heq | ⟨before, line, hb, -⟩
  · exact heq
  · exact absurd (hb.subset (by simp)) (hnot line)

/-- A binding without a name, then a call in a block that is not closed.  Six levels are
enough for all of it and give what all higher limits give.  With five the operand in the
argument of the call is refused, which is reported between the other two errors and makes
the closing parenthesis another one. -/
theorem nesting_limit_is_transparent_malformed :
    let lexemes := tokenize "let = 1; if (x) \x7b f(-y)"
    let parsed := fun limit => parseLexemesWithin limit lexemes
    6 ≤ maxNesting ∧
      (parsed 6).errors = [.unexpectedToken .identifier .assign 1,
        .unexpectedEnd (.token .rightBrace) 1] ∧
      parsed maxNesting = parsed 6 ∧
      (parsed 5).errors = [.unexpectedToken .identifier .assign 1, .nestingTooDeep 5 1,
        .notAnExpression .rightParen 1, .unexpectedEnd (.token .rightBrace) 1] := by
  intro lexemes parsed
  have hle : 6 ≤ maxNesting := by decide
  have herrors : (parsed 6).errors = [.unexpectedToken .identifier .assign 1,
      .unexpectedEnd (.token .rightBrace) 1] := by decide +kernel
  have hsame : parsed maxNesting = parsed 6 :=
    (nesting_limit_is_transparent hle lexemes).1 (by simp [herrors, parsed])
  exact ⟨hle, herrors, hsame, by decide +kernel⟩

end ExprScript
