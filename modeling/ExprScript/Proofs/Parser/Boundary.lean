import ExprScript.Proofs.Parser.Locality
import ExprScript.Proofs.Parser.Progress
import Mathlib.Data.List.Basic

/-!
# Programs laid end to end

Where one program ends and another begins, nothing of the first is left over: a parser has
no state but the place where it stands.  So behind a program without errors the parser
reads what comes next as if it stood there alone, with all of its errors, provided that
nothing at the boundary goes on with the last statement (`Boundary`).  Either what comes
next starts with a token that goes on with no expression; or the first part ends with a
semicolon, and then it cannot end with an expression, because no phrase but a sequence of
statements has a semicolon as its last token (`Derives.finishes`).

Of the place where a statement starts, the parser keeps the line of the lexeme before it,
but it looks at that only at the end of the input: what reads a lexeme first has forgotten
it (`Parser.ReadsFirst.forgets`).

* `Parser.Accepts.run_programWithin_extend`: a program without errors and what is read
  behind it.
* `parse_append`: programs laid end to end, with any number of semicolons between them.
-/

namespace ExprScript

/-! ### Last tokens -/

def EndsOpen (ts rest : List Lexeme) : Prop :=
  ∃ l : Lexeme, l.token ≠ .semicolon ∧ l :: rest <:+ ts

namespace EndsOpen

variable {ts mid rest : List Lexeme}

theorem suffix (h : EndsOpen ts rest) : rest <:+ ts := by
  obtain ⟨l, -, hs⟩ := h
  exact (List.suffix_cons l rest).trans hs

theorem of_suffix (hs : mid <:+ ts) (h : EndsOpen mid rest) : EndsOpen ts rest := by
  obtain ⟨l, hl, hm⟩ := h
  exact ⟨l, hl, hm.trans hs⟩

theorem of_cons_suffix {l : Lexeme} (hs : l :: mid <:+ ts) (h : EndsOpen mid rest) :
    EndsOpen ts rest :=
  h.of_suffix ((List.suffix_cons l mid).trans hs)

theorem cons (l : Lexeme) (h : EndsOpen mid rest) : EndsOpen (l :: mid) rest :=
  h.of_suffix (List.suffix_cons l mid)

/-- What ends the input with a semicolon has not ended there. -/
theorem rest_ne_nil (h : EndsOpen ts rest) (hts : ∀ l ∈ ts.getLast?, l.token = .semicolon) :
    rest ≠ [] := by
  rintro rfl
  obtain ⟨l, hl, taken, rfl⟩ := h
  exact hl (hts l (by simp))

end EndsOpen

namespace Derives

/-- A sequence of statements may end with a semicolon, but no other phrase does. -/
def Finishes : Phrase → List Lexeme → List Lexeme → Prop
  | .statements _, ts, rest => rest <:+ ts
  | _, ts, rest => EndsOpen ts rest

theorem parameters_endsOpen {ps : List Identifier} {ts rest : List Lexeme}
    (h : CommaSeparated IsParameter .rightParen ps ts rest) : EndsOpen ts rest := by
  induction h with
  | none => exact ⟨_, by simp, List.suffix_refl _⟩
  | last h => exact ⟨_, by simp, h ▸ List.suffix_cons _ _⟩
  | more h _ ih => exact h ▸ (ih.cons _).cons _

mutual

theorem finishes : ∀ {x : Phrase} {ts rest : List Lexeme}, Derives x ts rest → Finishes x ts rest
  | _, _, _, .tighter _ h => h.finishes
  | _, _, _, .infixed hl _ hr => hr.finishes.of_cons_suffix hl.finishes.suffix
  | _, _, _, .prefixed h => h.finishes.cons _
  | _, _, _, .call hc ha => (arguments_endsOpen ha).of_cons_suffix hc.finishes.suffix
  | _, _, _, .identifier => ⟨_, by simp, List.suffix_refl _⟩
  | _, _, _, .integer _ => ⟨_, by simp, List.suffix_refl _⟩
  | _, _, _, .trueWord => ⟨_, by simp, List.suffix_refl _⟩
  | _, _, _, .falseWord => ⟨_, by simp, List.suffix_refl _⟩
  | _, _, _, .group h => ⟨_, by simp, h.finishes.suffix.trans (List.suffix_cons _ _)⟩
  | _, _, _, .conditional hc hb => ((hb.finishes.of_cons_suffix hc.finishes.suffix).cons _).cons _
  | _, _, _, .conditionalElse hc hb ha =>
    (((ha.finishes.of_cons_suffix hb.finishes.suffix).of_cons_suffix hc.finishes.suffix).cons
      _).cons _
  | _, _, _, .function hp hb =>
    ((hb.finishes.of_suffix (parameters_endsOpen hp).suffix).cons _).cons _
  | _, _, _, .block h => ⟨_, by simp, h.finishes.trans (List.suffix_cons _ _)⟩
  | _, _, _, .bind h => ((h.finishes.cons _).cons _).cons _
  | _, _, _, .ret h => h.finishes.cons _
  | _, _, _, .expr h => h.finishes
  | _, _, _, .noStatement => List.suffix_refl _
  | _, _, _, .emptyStatement h => h.finishes.trans (List.suffix_cons _ _)
  | _, _, _, .terminated hs h =>
    h.finishes.trans ((List.suffix_cons _ _).trans hs.finishes.suffix)
  | _, _, _, .unterminated hs _ h => h.finishes.trans hs.finishes.suffix
termination_by structural _ _ _ h => h

theorem arguments_endsOpen : ∀ {es : List Expr} {ts rest : List Lexeme},
    CommaSeparated (fun e => Derives (.expr .equals e)) .rightParen es ts rest →
      EndsOpen ts rest
  | _, _, _, .none => ⟨_, by simp, List.suffix_refl _⟩
  | _, _, _, .last h => ⟨_, by simp, h.finishes.suffix⟩
  | _, _, _, .more h hs => (arguments_endsOpen hs).of_cons_suffix h.finishes.suffix
termination_by structural _ _ _ h => h

end

end Derives

/-! ### Boundaries -/

/-- The first lexemes are none or end with a semicolon, or the second ones are none or start
with a token that goes on with no expression: neither an infix operator nor `(` nor
`else`. -/
def Boundary (ts₁ ts₂ : List Lexeme) : Prop :=
  (∀ l ∈ ts₁.getLast?, l.token = .semicolon) ∨
    ∀ l ∈ ts₂.head?, l.token.infixOp? = none ∧ l.token ≠ .leftParen ∧ l.token ≠ .elseWord

theorem Boundary.of_suffix {ts ts₁ ts₂ : List Lexeme} (h : Boundary ts₁ ts₂) (hs : ts <:+ ts₁) :
    Boundary ts ts₂ := by
  obtain ⟨taken, rfl⟩ := hs
  refine h.imp_left fun hlast l hl => hlast l ?_
  rw [List.getLast?_append, Option.mem_def.mp hl]
  rfl

theorem follows_of_head {ts : List Lexeme} (h : ∀ l ∈ ts.head?,
    l.token.infixOp? = none ∧ l.token ≠ .leftParen ∧ l.token ≠ .elseWord) : Follows .lowest ts := by
  intro l hl
  obtain ⟨hop, hparen, helse⟩ := h l hl
  exact ⟨Token.precedence_le_lowest hparen (by simp [hop]), helse⟩

/-! ### The place before -/

theorem Cursor.advance_eq {c c' : Cursor} (h : c'.rest = c.rest) (hc : c.rest ≠ []) :
    c'.advance = c.advance := by
  obtain ⟨rest, line, left, hl⟩ := c
  obtain ⟨rest', line', left', hl'⟩ := c'
  obtain rfl : rest' = rest := h
  obtain rfl : left' = left := hl'.trans hl.symm
  cases rest' with
  | nil => exact absurd rfl hc
  | cons l rest => rfl

namespace Parser

variable {α β : Type} {r : List Lexeme} {limit : Nat}

/-- Between places with the same lexemes to read there is no difference for the parser,
unless it fails on the spot. -/
def Forgets (p : Parser α) : Prop :=
  ∀ c c', c.rest ≠ [] → c'.rest = c.rest →
    p.run c' = p.run c ∨ ∃ e, p.run c = ⟨.error e, [], c⟩ ∧ p.run c' = ⟨.error e, [], c'⟩

theorem ReadsFirst.forgets {p : Parser α} (hp : p.ReadsFirst) : p.Forgets := by
  intro c c' hc h
  obtain ⟨l, rest, hr⟩ := List.exists_cons_of_ne_nil hc
  have hline : c'.currentLine = c.currentLine := by simp [Cursor.currentLine, h, hr]
  have htoken : c'.token? = c.token? := by rw [Cursor.token?, Cursor.token?, h]
  induction hp with
  | accept expected f =>
    refine Or.inl ?_
    simp only [Parser.accept, h, hr, Cursor.advance_eq h hc]
  | advance =>
    refine Or.inl ?_
    simp only [Parser.advance, Cursor.advance_eq h hc]
  | nestingTooDeep limit =>
    refine Or.inr ⟨.nestingTooDeep limit c.currentLine, rfl, ?_⟩
    rw [← hline]
    rfl
  | bind f _ ih =>
    rw [run_bind, run_bind]
    rcases ih with he | ⟨e, he, he'⟩
    · exact Or.inl (by rw [he])
    · exact Or.inr ⟨e, by rw [he, followedBy_of_error rfl], by rw [he', followedBy_of_error rfl]⟩
  | peek _ ih =>
    rw [run_peek_bind, run_peek_bind, htoken, Cursor.token?_of_rest hr]
    exact ih l.token
  | @currentLine α f _ ih =>
    show (f c'.currentLine).run c' = (f c.currentLine).run c ∨
      ∃ e, (f c.currentLine).run c = _ ∧ (f c'.currentLine).run c' = _
    rw [hline]
    exact ih c.currentLine

/-- What fails on the spot is skipped with its first lexeme, and so forgotten. -/
theorem Forgets.recovering {p : Parser α} (hp : p.Forgets) {c c' : Cursor} (hc : c.rest ≠ [])
    (h : c'.rest = c.rest) : (recovering p).run c' = (recovering p).run c := by
  have hleft : c'.left = c.left := by rw [c'.left_eq, c.left_eq, h]
  have hadvance := Cursor.advance_eq h hc
  rcases hp c c' hc h with he | ⟨e, he, he'⟩
  · simp only [Parser.recovering, he, hleft, hadvance]
  · simp only [Parser.recovering, he, he', Nat.lt_irrefl, if_false, hadvance]

/-- A run of statements starts in the same way wherever it starts. -/
theorem Forgets.statementsUntil {s : Parser α} (hs : s.Forgets) {stop : Token → Bool}
    {c c' : Cursor} {l : Lexeme} {rest : List Lexeme} (hc : c.rest = l :: rest)
    (h : c'.rest = c.rest) (hstop : stop l.token = false) :
    (statementsUntil stop s).run c' = (statementsUntil stop s).run c := by
  have hne : c.rest ≠ [] := by simp [hc]
  by_cases hl : l.token = .semicolon
  · rw [run_statementsUntil_semicolon hc hl (hl ▸ hstop),
      run_statementsUntil_semicolon (h.trans hc) hl (hl ▸ hstop), Cursor.advance_eq h hne]
  · rw [run_statementsUntil_statement hc hstop hl,
      run_statementsUntil_statement (h.trans hc) hstop hl, hs.recovering hne h]

/-! ### Programs -/

/-- **A statement is read in the same way** with `r` behind the input, and then the rest is
read in the same way too.  Only a terminator that stands at the front of `r` may have gone
to the statement. -/
theorem Accepts.stmt_extend {c n : Cursor} {s : Stmt} (hb : Boundary c.rest r)
    (h : (statementWithin limit).Accepts c s n) :
    ∃ n', (statementWithin limit).Accepts (c.extend r) s n' ∧
      (programWithin limit).run n' = (programWithin limit).run (n.extend r) := by
  rw [statementWithin, stmt_eq] at h ⊢
  obtain ⟨s', m, hs, h⟩ := accepts_bind.mp h
  obtain ⟨done, m', hdone, h⟩ := accepts_bind.mp h
  obtain ⟨rfl, rfl⟩ := accepts_pure.mp h
  -- without its terminator, it may come to the end only in front of what does not go on
  have hfollows : m.rest = [] → Follows .lowest r := by
    intro hm
    rcases hb with hsemi | hhead
    · obtain ⟨hd, -⟩ := bareStmt_sound (levels_sound limit limit).1 hs
      exact absurd hm (hd.finishes.rest_ne_nil hsemi)
    · exact follows_of_head hhead
  have hs' := local_bareStmt (local_levels id limit limit).1 (starts_expressionAt limit limit)
    c s' m hs hfollows
  have accepts {b : Bool} {n' : Cursor} (hopt : (optional .semicolon).Accepts (m.extend r) b n') :
      (bareStmt (expressionAt limit limit) >>= fun s => do
        let _ ← optional .semicolon
        return s).Accepts (c.extend r) s' n' :=
    accepts_bind.mpr ⟨s', _, hs', accepts_bind.mpr ⟨b, n', hopt, accepts_pure.mpr ⟨rfl, rfl⟩⟩⟩
  rcases accepts_optional.mp hdone with ⟨rfl, ⟨line, hm⟩, rfl⟩ | ⟨rfl, ht, rfl⟩
  · refine ⟨_, accepts (accepts_optional.mpr (Or.inl ⟨rfl, ⟨line, ?_⟩, ?_⟩)), rfl⟩
    · show m.rest ++ r = _
      rw [hm]
      rfl
    · exact Cursor.advance_extend (by simp [hm]) r
  · by_cases htoken : (m.extend r).token? = some .semicolon
    · -- the terminator is the first lexeme behind the input
      obtain ⟨l, hl, hsemi⟩ := Option.map_eq_some_iff.mp htoken
      obtain ⟨rest, hr⟩ := List.head?_eq_some_iff.mp hl
      refine ⟨(m.extend r).advance, accepts (accepts_optional.mpr (Or.inl ⟨rfl, ⟨l.line, ?_⟩, rfl⟩)),
        (run_statementsUntil_semicolon hr hsemi rfl).symm⟩
      rw [hr, Cursor.rest_advance hr, ← hsemi]
    · exact ⟨_, accepts (accepts_optional.mpr (Or.inr ⟨rfl, htoken, rfl⟩)), rfl⟩

/-- **A program without errors can be read on** behind its end: its statements come first,
and the rest is read as if it stood there alone. -/
theorem Accepts.run_programWithin_extend {p : Program} {c n : Cursor} (hb : Boundary c.rest r)
    (hp : (programWithin limit).Accepts c p n) :
    (programWithin limit).run (c.extend r) = ((p ++ ·) <$> programWithin limit).run (n.extend r) := by
  -- induction on what is left to read, which each element makes shorter
  induction hk : c.rest.length using Nat.strongRecOn generalizing c p with
  | ind k ih =>
    subst hk
    cases hc : c.rest with
    | nil =>
      obtain ⟨rfl, rfl⟩ :=
        (accepts_statementsUntil_stop (by simp [Cursor.token?_eq_none hc])).mp hp
      exact congrArg (Parser.run · (c.extend r)) (id_map (programWithin limit)).symm
    | cons l rest =>
      have hc' : (c.extend r).rest = l :: (rest ++ r) := by
        show c.rest ++ r = _
        rw [hc]
        rfl
      have hne : c.rest ≠ [] := by simp [hc]
      by_cases hl : l.token = .semicolon
      · obtain ⟨_, line⟩ := l
        obtain rfl := hl
        have hadvance := (accepts_statementsUntil_semicolon hc rfl).mp hp
        refine (run_statementsUntil_semicolon hc' rfl rfl).trans ?_
        rw [Cursor.advance_extend hne]
        exact ih _ (Cursor.advance_lt hne) (hb.of_suffix c.advance_suffix) hadvance rfl
      · obtain ⟨s, m, ss, rfl, hs, hss⟩ := (accepts_statementsUntil_statement hc rfl hl).mp hp
        obtain ⟨_, next, hs', hrun, rfl⟩ := accepts_recovering.mp hs
        obtain rfl := Option.some.inj hs'
        have hlt := hrun.stmt_lt
        rw [if_pos hlt] at hss
        have hnext : next.rest.length < c.rest.length := by
          rwa [← next.left_eq, ← c.left_eq]
        obtain ⟨next', hrun', hagain⟩ := hrun.stmt_extend hb
        have hs' : (recovering (statementWithin limit)).Accepts (c.extend r) (some s) next' :=
          accepts_recovering.mpr ⟨s, _, rfl, hrun', (if_pos hrun'.stmt_lt).symm⟩
        have hall := ih _ hnext (hb.of_suffix hrun.suffix) hss rfl
        calc (programWithin limit).run (c.extend r)
            = ((s :: ·) <$> programWithin limit).run next' := by
              rw [programWithin, run_statementsUntil_statement hc' rfl hl, hs']
              rfl
          _ = ((s :: ·) <$> programWithin limit).run (next.extend r) := by
              rw [map_eq_pure_bind, run_bind, run_bind, hagain]
          _ = ((s :: ·) <$> (ss ++ ·) <$> programWithin limit).run (n.extend r) := by
              rw [map_eq_pure_bind, map_eq_pure_bind, run_bind, run_bind, hall]
          _ = ((s :: ss ++ ·) <$> programWithin limit).run (n.extend r) := by
              rw [← comp_map]
              rfl

/-- **Where a program is read from does not matter**, but only what is there to read. -/
theorem programWithin_of_rest (limit : Nat) {c c' : Cursor} (h : c'.rest = c.rest) :
    ((programWithin limit).run c').result = ((programWithin limit).run c).result ∧
      ((programWithin limit).run c').recorded = ((programWithin limit).run c).recorded := by
  cases hc : c.rest with
  | nil =>
    have hstop {c : Cursor} (hc : c.rest = []) : ∀ t ∈ c.token?, false = true := by
      simp [Cursor.token?_eq_none hc]
    rw [programWithin, run_statementsUntil_stop (hstop hc),
      run_statementsUntil_stop (hstop (h.trans hc))]
    exact ⟨rfl, rfl⟩
  | cons l rest =>
    have hforgets : (statementWithin limit).Forgets :=
      (readsFirst_stmt (readsFirst_expressionAt limit limit)).forgets
    rw [programWithin, hforgets.statementsUntil hc h rfl]
    exact ⟨rfl, rfl⟩

end Parser

/-- What lexemes are parsed to can be seen from any place where they come next. -/
theorem parseLexemesWithin_eq_of_run {limit : Nat} {lexemes : List Lexeme} {c : Cursor}
    (hc : c.rest = lexemes) {p : Program}
    (hp : ((Parser.programWithin limit).run c).result = .ok p) :
    parseLexemesWithin limit lexemes = ⟨p, ((Parser.programWithin limit).run c).recorded⟩ := by
  have hstart : (Cursor.start lexemes).rest = c.rest := hc.symm
  obtain ⟨hresult, hrecorded⟩ := Parser.programWithin_of_rest limit hstart
  simp only [parseLexemesWithin, Reader.run, Reader.start, List.nil_append, hresult, hp, hrecorded]

theorem parseLexemesWithin_append {limit : Nat} {ts₁ ts₂ : List Lexeme}
    (h : (parseLexemesWithin limit ts₁).errors = []) (hb : Boundary ts₁ ts₂) :
    parseLexemesWithin limit (ts₁ ++ ts₂) =
      ⟨(parseLexemesWithin limit ts₁).program ++ (parseLexemesWithin limit ts₂).program,
        (parseLexemesWithin limit ts₂).errors⟩ := by
  have hfirst : parseLexemesWithin limit ts₁ = ⟨(parseLexemesWithin limit ts₁).program, []⟩ := by
    rw [← h]
  obtain ⟨n, hp⟩ := parseLexemesWithin_eq_iff.mp hfirst
  have hrest : (n.extend ts₂).rest = ts₂ := by
    show n.rest ++ ts₂ = ts₂
    rw [hp.programWithin_end, List.nil_append]
  obtain ⟨q, errors, m, hq, -, -⟩ := Parser.programWithin_ends limit (n.extend ts₂)
  have hsecond := parseLexemesWithin_eq_of_run hrest (p := q) (by rw [hq])
  have hboth := hp.run_programWithin_extend hb
  rw [map_eq_pure_bind, Parser.run_bind, hq, Parser.followedBy_of_ok rfl, Parser.run_pure] at hboth
  have hall := parseLexemesWithin_eq_of_run
    (show ((Cursor.start ts₁).extend ts₂).rest = ts₁ ++ ts₂ from rfl)
    (by rw [hboth])
  rw [hall, hboth, hsecond, hq, List.append_nil]

theorem parseLexemesWithin_semicolons (limit : Nat) {semicolons : List Lexeme}
    (hs : ∀ l ∈ semicolons, l.token = .semicolon) :
    parseLexemesWithin limit semicolons = ⟨[], []⟩ := by
  have accepts (ts : List Lexeme) : ∀ c : Cursor, c.rest = ts →
      (∀ l ∈ ts, l.token = .semicolon) → ∃ n, (Parser.programWithin limit).Accepts c [] n := by
    induction ts with
    | nil =>
      intro c hc _
      exact ⟨c, Parser.run_statementsUntil_stop (by simp [Cursor.token?_eq_none hc])⟩
    | cons l ts ih =>
      intro c hc hs
      obtain ⟨hl, hs⟩ := List.forall_mem_cons.mp hs
      obtain ⟨n, hn⟩ := ih c.advance (Cursor.rest_advance hc) hs
      exact ⟨n, (Parser.run_statementsUntil_semicolon hc hl rfl).trans hn⟩
  exact parseLexemesWithin_eq_iff.mpr (accepts semicolons _ rfl hs)

/-- Programs with semicolons between them, which make a boundary. -/
theorem parseLexemesWithin_append_semicolons {limit : Nat} {ts₁ semicolons : List Lexeme}
    (h : (parseLexemesWithin limit ts₁).errors = []) (hs : ∀ l ∈ semicolons, l.token = .semicolon)
    (hne : semicolons ≠ []) (ts₂ : List Lexeme) :
    parseLexemesWithin limit (ts₁ ++ semicolons ++ ts₂) =
      ⟨(parseLexemesWithin limit ts₁).program ++ (parseLexemesWithin limit ts₂).program,
        (parseLexemesWithin limit ts₂).errors⟩ := by
  -- the semicolons belong to the first program, which they do not change
  have hhead : Boundary ts₁ semicolons := by
    refine Or.inr fun l hl => ?_
    rw [hs l (List.mem_of_head? hl)]
    exact ⟨rfl, by simp, by simp⟩
  have hfirst := parseLexemesWithin_append h hhead
  rw [parseLexemesWithin_semicolons limit hs, List.append_nil] at hfirst
  have hlast : Boundary (ts₁ ++ semicolons) ts₂ := by
    refine Or.inl fun l hl => hs l (List.mem_of_getLast? ?_)
    rwa [List.getLast?_append_of_ne_nil _ hne] at hl
  rw [parseLexemesWithin_append (by rw [hfirst]) hlast, hfirst]

/-- **Parsing is compositional.**  Behind a program without errors other lexemes are parsed
as they are alone, whatever errors that gives, if nothing at the boundary goes on with the
last statement.  Any number of semicolons between the two changes nothing, and one is
enough to make a boundary. -/
theorem parsing_is_compositional (limit : Nat) (ts₁ ts₂ : List Lexeme)
    (h : (parseLexemesWithin limit ts₁).errors = []) :
    let both : Parsed :=
      ⟨(parseLexemesWithin limit ts₁).program ++ (parseLexemesWithin limit ts₂).program,
        (parseLexemesWithin limit ts₂).errors⟩
    (Boundary ts₁ ts₂ → parseLexemesWithin limit (ts₁ ++ ts₂) = both) ∧
      ∀ semicolons : List Lexeme, (∀ l ∈ semicolons, l.token = .semicolon) →
        semicolons ≠ [] ∨ Boundary ts₁ ts₂ →
        parseLexemesWithin limit (ts₁ ++ semicolons ++ ts₂) = both := by
  intro both
  refine ⟨parseLexemesWithin_append h, fun semicolons hs hb => ?_⟩
  by_cases hnil : semicolons = []
  · rw [hnil, List.append_nil]
    exact parseLexemesWithin_append h (hb.resolve_left (absurd hnil))
  · exact parseLexemesWithin_append_semicolons h hs hnil ts₂

/-- A program and lexemes with three errors, one of them in a block, with nothing between
them and with semicolons between them. -/
theorem parsing_is_compositional_malformed :
    let ts₁ := tokenize "let f = fn(x) \x7b x \x7d f(1)"
    let ts₂ := tokenize "let = 2; if (f) \x7b ) 3 \x7d else"
    (parseLexemes ts₂).errors.length = 3 ∧
      parseLexemes (ts₁ ++ ts₂) =
        ⟨(parseLexemes ts₁).program ++ (parseLexemes ts₂).program, (parseLexemes ts₂).errors⟩ ∧
      parseLexemes (ts₁ ++ tokenize ";;" ++ ts₂) = parseLexemes (ts₁ ++ ts₂) := by
  intro ts₁ ts₂
  have h : (parseLexemes ts₁).errors = [] := by decide +kernel
  have hb : Boundary ts₁ ts₂ := Or.inr (by decide +kernel)
  obtain ⟨hboth, hsemicolons⟩ := parsing_is_compositional maxNesting ts₁ ts₂ h
  refine ⟨by decide +kernel, hboth hb, ?_⟩
  exact (hsemicolons (tokenize ";;") (by decide +kernel) (Or.inr hb)).trans (hboth hb).symm

end ExprScript
