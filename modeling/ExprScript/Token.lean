/-!
# Tokens

A program text is read as a sequence of lexemes: a token together with the
line it starts on.  `Token.text` is how a token is written in a message, and
for a token that the lexer makes it is also how the token is written in a
program.
-/

namespace ExprScript

/-- The tokens of the language.  Numerals, names and characters that belong to
no token carry their text. -/
inductive Token where
  /-- A numeral, kept as text; its value is decided by the parser. -/
  | integer (text : String)
  | trueWord
  | falseWord
  | letWord
  | fnWord
  | ifWord
  | elseWord
  | returnWord
  | identifier (name : String)
  | assign
  | plus
  | minus
  | star
  | slash
  | bang
  | less
  | greater
  | equal
  | notEqual
  | comma
  | semicolon
  | leftParen
  | rightParen
  | leftBrace
  | rightBrace
  /-- A line break.  The lexer counts line breaks and makes no token of them,
  but a token sequence from elsewhere may hold one; no phrase contains it. -/
  | newline
  /-- Blank text.  Like `newline`, it is never made by the lexer. -/
  | ignored
  /-- A character that starts no token. -/
  | illegal (text : String)
deriving DecidableEq, Repr

/-- A token with the line, counted from one, on which it starts. -/
structure Lexeme where
  token : Token
  line : Nat
deriving DecidableEq, Repr

/-- The written form of a token; the two blank tokens have none. -/
def Token.text : Token → String
  | .integer text => text
  | .trueWord => "true"
  | .falseWord => "false"
  | .letWord => "let"
  | .fnWord => "fn"
  | .ifWord => "if"
  | .elseWord => "else"
  | .returnWord => "return"
  | .identifier name => name
  | .assign => "="
  | .plus => "+"
  | .minus => "-"
  | .star => "*"
  | .slash => "/"
  | .bang => "!"
  | .less => "<"
  | .greater => ">"
  | .equal => "=="
  | .notEqual => "!="
  | .comma => ","
  | .semicolon => ";"
  | .leftParen => "("
  | .rightParen => ")"
  | .leftBrace => "\x7b"
  | .rightBrace => "\x7d"
  | .newline => ""
  | .ignored => ""
  | .illegal text => text

end ExprScript
