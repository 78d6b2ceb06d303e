import ExprScript.Token

/-!
# From text to lexemes

`tokenize` splits a text into lexemes.  At each character that is not blank,
`readToken` takes the longest token that starts there; blank characters are
skipped, and a line feed moves the line count on.  A character that starts no
token becomes an `illegal` token of its own, so nothing but blanks is lost and
every text can be tokenized.
-/

namespace ExprScript

/-- Blank characters within a line: space, tab, carriage return, form feed.
A line feed is blank too, but is counted. -/
def isBlank (c : Char) : Bool :=
  c = ' ' || c = '\t' || c = '\r' || c = '\x0c'

def isNameStart (c : Char) : Bool :=
  c.isAlpha || c = '_'

def isNamePart (c : Char) : Bool :=
  c.isAlphanum || c = '_'

namespace Token

/-- The token of a whole run of name characters: a keyword if it is one. -/
def ofWord : String → Token
  | "true" => .trueWord
  | "false" => .falseWord
  | "let" => .letWord
  | "fn" => .fnWord
  | "if" => .ifWord
  | "else" => .elseWord
  | "return" => .returnWord
  | name => .identifier name

def ofSymbol : Char → Token
  | '=' => .assign
  | '+' => .plus
  | '-' => .minus
  | '*' => .star
  | '/' => .slash
  | '!' => .bang
  | '<' => .less
  | '>' => .greater
  | ',' => .comma
  | ';' => .semicolon
  | '(' => .leftParen
  | ')' => .rightParen
  | '\x7b' => .leftBrace
  | '\x7d' => .rightBrace
  | c => .illegal (String.singleton c)

end Token

/-- The longest token at the front of the text `c :: cs`, where `c` is not
blank, and the text after it. -/
def readToken (c : Char) (cs : List Char) : Token × List Char :=
  if c.isDigit then
    (.integer (String.ofList (c :: cs.takeWhile Char.isDigit)), cs.dropWhile Char.isDigit)
  else if isNameStart c then
    (.ofWord (String.ofList (c :: cs.takeWhile isNamePart)), cs.dropWhile isNamePart)
  else
    match c, cs with
    | '=', '=' :: rest => (.equal, rest)
    | '!', '=' :: rest => (.notEqual, rest)
    | c, cs => (.ofSymbol c, cs)

/-- A token takes at least its first character. -/
theorem length_readToken_le (c : Char) (cs : List Char) :
    (readToken c cs).2.length ≤ cs.length := by
  unfold readToken
  split
  · exact (List.dropWhile_sublist _).length_le
  · split
    · exact (List.dropWhile_sublist _).length_le
    · split <;> simp

/-- The lexemes of a text whose first character is on line `line`. -/
def lexemesFrom (line : Nat) (cs : List Char) : List Lexeme :=
  match cs with
  | [] => []
  | c :: cs =>
    if c = '\n' then
      lexemesFrom (line + 1) cs
    else if isBlank c then
      lexemesFrom line cs
    else
      ⟨(readToken c cs).1, line⟩ :: lexemesFrom line (readToken c cs).2
termination_by cs.length
decreasing_by
  all_goals simp only [List.length_cons]
  · omega
  · omega
  · have := length_readToken_le c cs
    omega

/-- The lexemes of a program text; lines are counted from one. -/
def tokenize (source : String) : List Lexeme :=
  lexemesFrom 1 source.toList

end ExprScript
