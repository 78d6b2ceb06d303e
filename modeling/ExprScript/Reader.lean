import ExprScript.Parser.Grammar
import ExprScript.Token.Lexer

/-!
# Reading a whole input

A `Reader` stands somewhere in a sequence of lexemes and keeps the errors
recorded so far.  Any parser can be run from where it stands, as often as
wanted; an error that such a run fails with is handed to the caller and not
recorded.  `parse` reads a program text from its start to its end.
-/

namespace ExprScript

/-- A place in the input and the errors recorded before it, oldest first. -/
structure Reader where
  cursor : Cursor
  errors : List ParseError

namespace Reader

def start (lexemes : List Lexeme) : Reader :=
  ⟨.start lexemes, []⟩

def run {α : Type} (r : Reader) (p : Parser α) : Except ParseError α × Reader :=
  let o := p.run r.cursor
  (o.result, ⟨o.next, r.errors ++ o.recorded⟩)

end Reader

/-- A program as far as it could be parsed, and the errors of what could not,
in the order in which they were found. -/
structure Parsed where
  program : Program
  errors : List ParseError

/-- Parses lexemes as a program, with phrases nested to at most `limit`. -/
def parseLexemesWithin (limit : Nat) (lexemes : List Lexeme) : Parsed :=
  match (Reader.start lexemes).run (Parser.programWithin limit) with
  | (.ok program, r) => ⟨program, r.errors⟩
  | (.error e, r) => ⟨[], r.errors ++ [e]⟩

def parseLexemes (lexemes : List Lexeme) : Parsed :=
  parseLexemesWithin maxNesting lexemes

def parse (source : String) : Parsed :=
  parseLexemes (tokenize source)

end ExprScript
