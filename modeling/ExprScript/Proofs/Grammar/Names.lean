import ExprScript.Proofs.Parser.Rereading

/-!
# The names of a program

The grammar makes up no names.  What all identifiers among the lexemes of a phrase have in
common (`IdentifiersHave`), all names in its tree have: those that are read, bound by a
statement or bound as parameters.

* `Derives.names`: the names of every phrase.
* `names_of_parse`: those of a program text.
-/

namespace ExprScript

/-- All identifiers among the lexemes have a property. -/
def IdentifiersHave (P : String → Prop) (ts : List Lexeme) : Prop :=
  ∀ name line, ⟨.identifier name, line⟩ ∈ ts → P name

variable {P : String → Prop}

theorem IdentifiersHave.head {name : String} {line : Nat} {ts : List Lexeme}
    (h : IdentifiersHave P (⟨.identifier name, line⟩ :: ts)) : P name :=
  h name line List.mem_cons_self

theorem IdentifiersHave.tail {l : Lexeme} {ts : List Lexeme} (h : IdentifiersHave P (l :: ts)) :
    IdentifiersHave P ts :=
  fun name line hmem => h name line (List.mem_cons_of_mem l hmem)

namespace Derives

/-- The names of a phrase have a property, and so have the identifiers behind it. -/
def NamesIn (P : String → Prop) : Phrase → List Lexeme → Prop
  | .expr _ e, rest => e.Names P ∧ IdentifiersHave P rest
  | .block b, rest => b.Names P ∧ IdentifiersHave P rest
  | .statement s, rest => s.Names P ∧ IdentifiersHave P rest
  | .statements ss, rest => Stmt.NamesAll P ss ∧ IdentifiersHave P rest

theorem names_parameters {closing : Token} {parameters : List Identifier}
    {ts rest : List Lexeme} (h : CommaSeparated IsParameter closing parameters ts rest)
    (hts : IdentifiersHave P ts) :
    (∀ id ∈ parameters, P id.name) ∧ IdentifiersHave P rest := by
  induction h with
  | none => exact ⟨by simp, hts.tail⟩
  | last hp =>
    rw [hp] at hts
    exact ⟨List.forall_mem_singleton.mpr hts.head, hts.tail.tail⟩
  | more hp _ ih =>
    rw [hp] at hts
    obtain ⟨hnames, hrest⟩ := ih hts.tail.tail
    exact ⟨List.forall_mem_cons.mpr ⟨hts.head, hnames⟩, hrest⟩

mutual

/-- **The names of a phrase are identifiers among its lexemes.** -/
theorem names : ∀ {x : Phrase} {ts rest : List Lexeme}, Derives x ts rest →
    IdentifiersHave P ts → NamesIn P x rest
  | _, _, _, .tighter _ h, hts => h.names hts
  | _, _, _, .infixed hl _ hr, hts => by
    have left := hl.names hts
    have right := hr.names left.2.tail
    exact ⟨⟨left.1, right.1⟩, right.2⟩
  | _, _, _, .prefixed h, hts => h.names hts.tail
  | _, _, _, .call hc ha, hts => by
    have callee := hc.names hts
    have args := names_arguments ha callee.2.tail
    exact ⟨⟨callee.1, args.1⟩, args.2⟩
  | _, _, _, .identifier, hts => ⟨hts.head, hts.tail⟩
  | _, _, _, .integer _, hts => ⟨trivial, hts.tail⟩
  | _, _, _, .trueWord, hts => ⟨trivial, hts.tail⟩
  | _, _, _, .falseWord, hts => ⟨trivial, hts.tail⟩
  | _, _, _, .group h, hts => by
    have inner := h.names hts.tail
    exact ⟨inner.1, inner.2.tail⟩
  | _, _, _, .conditional hc hb, hts => by
    have condition := hc.names hts.tail.tail
    have consequence := hb.names condition.2.tail
    exact ⟨⟨condition.1, consequence.1, trivial⟩, consequence.2⟩
  | _, _, _, .conditionalElse hc hb ha, hts => by
    have condition := hc.names hts.tail.tail
    have consequence := hb.names condition.2.tail
    have alternative := ha.names consequence.2.tail
    exact ⟨⟨condition.1, consequence.1, alternative.1⟩, alternative.2⟩
  | _, _, _, .function hp hb, hts => by
    have parameters := names_parameters hp hts.tail.tail
    have body := hb.names parameters.2
    exact ⟨⟨parameters.1, body.1⟩, body.2⟩
  | _, _, _, .block h, hts => by
    have statements := h.names hts.tail
    exact ⟨statements.1, statements.2.tail⟩
  | _, _, _, .bind h, hts => by
    have value := h.names hts.tail.tail.tail
    exact ⟨⟨hts.tail.head, value.1⟩, value.2⟩
  | _, _, _, .ret h, hts => h.names hts.tail
  | _, _, _, .expr h, hts => h.names hts
  | _, _, _, .noStatement, hts => ⟨trivial, hts⟩
  | _, _, _, .emptyStatement h, hts => h.names hts.tail
  | _, _, _, .terminated hs h, hts => by
    have statement := hs.names hts
    have others := h.names statement.2.tail
    exact ⟨⟨statement.1, others.1⟩, others.2⟩
  | _, _, _, .unterminated hs _ h, hts => by
    have statement := hs.names hts
    have others := h.names statement.2
    exact ⟨⟨statement.1, others.1⟩, others.2⟩
termination_by structural _ _ _ h => h

theorem names_arguments : ∀ {es : List Expr} {ts rest : List Lexeme},
    CommaSeparated (fun e => Derives (.expr .equals e)) .rightParen es ts rest →
      IdentifiersHave P ts → Expr.NamesAll P es ∧ IdentifiersHave P rest
  | _, _, _, .none, hts => ⟨trivial, hts.tail⟩
  | _, _, _, .last h, hts => by
    have arg := h.names hts
    exact ⟨⟨arg.1, trivial⟩, arg.2.tail⟩
  | _, _, _, .more h hs, hts => by
    have arg := h.names hts
    have others := names_arguments hs arg.2.tail
    exact ⟨⟨arg.1, others.1⟩, others.2⟩
termination_by structural _ _ _ h => h

end

end Derives

/-- The names in a program that was parsed without errors are identifiers of its text. -/
theorem names_of_parse {source : String} (h : (parse source).errors = [])
    (hts : IdentifiersHave P (tokenize source)) : Stmt.NamesAll P (parse source).program :=
  ((derives_of_parse h).1.names hts).1

end ExprScript
