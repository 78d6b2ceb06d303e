import ExprScript.Session
import ExprScript.Value.Text

/-!
# The command line

What the program does with its arguments.  A script is given as an argument or
as the path of a file with `--file`; `--ast` asks for its written form instead
of its value.  Without a script the program reads lines and answers each in one
session.  Everything here is a function of the arguments, the files and the
input: what is printed is a value, a `Report`.
-/

namespace ExprScript.CommandLine

structure Options where
  file : Bool
  ast : Bool
  script : Option String

inductive Request where
  | run (options : Options)
  | version
  | help
  | misuse (argument : String)

/-! ### Arguments -/

def Options.initial : Options :=
  ⟨false, false, none⟩

/-- The options with `--file`, which may be given once. -/
def Options.withFile? (o : Options) : Option Options :=
  if o.file then none else some { o with file := true }

def Options.withAst? (o : Options) : Option Options :=
  if o.ast then none else some { o with ast := true }

def Options.withScript? (o : Options) (script : String) : Option Options :=
  if o.script.isSome then none else some { o with script := some script }

/-- Goes on with options if they are allowed, and complains about an argument
if not. -/
def Options.orMisuse (o : Option Options) (argument : String) (next : Options → Request) :
    Request :=
  match o with
  | some options => next options
  | none => .misuse argument

/-- Reads the letters of an argument such as `-fa`, then goes on. -/
def readLetters (argument : String) (o : Options) (next : Options → Request) :
    List Char → Request
  | [] => next o
  | 'f' :: cs => Options.orMisuse o.withFile? argument fun o => readLetters argument o next cs
  | 'a' :: cs => Options.orMisuse o.withAst? argument fun o => readLetters argument o next cs
  | 'V' :: _ => .version
  | 'h' :: _ => .help
  | _ :: _ => .misuse argument

/-- Reads arguments that follow `--`: none of them is an option. -/
def readScripts (o : Options) : List String → Request
  | [] => .run o
  | argument :: arguments =>
    Options.orMisuse (o.withScript? argument) argument fun o => readScripts o arguments

/-- Reads arguments from left to right.  The first one that settles what is to
be done, by asking for the version or by being wrong, is the last one read. -/
def readArguments (o : Options) : List String → Request
  | [] => .run o
  | "--" :: arguments => readScripts o arguments
  | "--file" :: arguments =>
    Options.orMisuse o.withFile? "--file" fun o => readArguments o arguments
  | "--ast" :: arguments =>
    Options.orMisuse o.withAst? "--ast" fun o => readArguments o arguments
  | "--version" :: _ => .version
  | "--help" :: _ => .help
  | argument :: arguments =>
    match argument.toList with
    | '-' :: '-' :: _ => .misuse argument
    | '-' :: c :: cs => readLetters argument o (fun o => readArguments o arguments) (c :: cs)
    | _ => Options.orMisuse (o.withScript? argument) argument fun o => readArguments o arguments

def Request.ofArguments (arguments : List String) : Request :=
  readArguments .initial arguments

/-! ### Reports -/

/-- What a run prints, and the code it ends with. -/
structure Report where
  code : Nat
  stdout : String
  stderr : String

def lines (texts : List String) : String :=
  String.join (texts.map fun text => text ++ "\n")

def errorLines (errors : List ParseError) : String :=
  lines (errors.map ParseError.message)

def errorLine (v : Value) : String :=
  lines ["ERROR: " ++ v.text]

def runScript (ast : Bool) (script : String) : Report :=
  if ast then
    match parse script with
    | ⟨program, []⟩ => ⟨0, lines [program.text], ""⟩
    | ⟨_, errors⟩ => ⟨1, "", errorLines errors⟩
  else
    match (Session.start.evaluateSource script).1 with
    | .error errors => ⟨1, "", errorLines errors⟩
    | .ok v => if v.isError then ⟨1, "", errorLine v⟩ else ⟨0, lines [v.text], ""⟩

/-- The report on a script that cannot be read, because there is no such file or
because it is not text. -/
def unreadable (path : String) : Report :=
  ⟨1, "", "Failed to read the input file '" ++ path ++ "'. Perhaps this file does not exist?\n"⟩

def decode (bytes : List UInt8) : Option String :=
  String.fromUTF8? ⟨bytes.toArray⟩

def runFile (ast : Bool) (path : String) (contents : Option (List UInt8)) : Report :=
  match contents.bind decode with
  | some script => runScript ast script
  | none => unreadable path

/-! ### Interactive sessions -/

def prompt : String :=
  ">> "

/-- The answer to a line: what goes to the two outputs, and the session after
it.  Errors of evaluation are answers like any other. -/
def respond (ast : Bool) (s : Session) (line : String) : String × String × Session :=
  if ast then
    match parse line with
    | ⟨program, []⟩ => (lines [program.text], "", s)
    | ⟨_, errors⟩ => ("", errorLines errors, s)
  else
    match s.evaluateSource line with
    | (.error errors, s) => ("", errorLines errors, s)
    | (.ok v, s) => (if v.isError then errorLine v else lines [v.text], "", s)

/-- What is said of a line that is not text; the session ends there. -/
def invalidInput : String :=
  "Failed to read from stdin: stream did not contain valid UTF-8\n"

def interactive (ast : Bool) (s : Session) : List (List UInt8) → Report
  | [] => ⟨0, prompt, ""⟩
  | bytes :: rest =>
    match decode bytes with
    | none => ⟨1, prompt, invalidInput⟩
    | some line =>
      let (out, err, s) := respond ast s line
      let report := interactive ast s rest
      ⟨report.code, prompt ++ out ++ report.stdout, err ++ report.stderr⟩

/-- The lines of some bytes, each with its line feed if it has one. -/
def splitLines : List UInt8 → List (List UInt8)
  | [] => []
  | b :: bs =>
    if b = 10 then
      [b] :: splitLines bs
    else
      match splitLines bs with
      | [] => [[b]]
      | line :: rest => (b :: line) :: rest

/-! ### The whole program -/

def versionText : String :=
  "kestrel 0.1.0\n"

def helpText : String :=
  lines
    ["kestrel is a small, expression-oriented scripting language with integers, booleans and " ++
        "first-class functions",
      "",
      "Usage: kestrel [OPTIONS] [CONTENTS]",
      "",
      "Arguments:",
      "  [CONTENTS]  The script to run, or its path with `--file`. Starts an interactive session " ++
        "when omitted",
      "",
      "Options:",
      "  -f, --file     Tells kestrel to look at a file instead of a script",
      "  -a, --ast      Prints the fully parenthesized form of the parsed program instead of " ++
        "evaluating it",
      "  -h, --help     Print help",
      "  -V, --version  Print version"]

def misused (argument : String) : Report :=
  ⟨2, "", "error: unexpected argument '" ++ argument ++ "' found\n"⟩

/-- Everything the program does, given its arguments, its files and its input. -/
def run (arguments : List String) (readFile : String → Option (List UInt8))
    (stdin : List UInt8) : Report :=
  match Request.ofArguments arguments with
  | .version => ⟨0, versionText, ""⟩
  | .help => ⟨0, helpText, ""⟩
  | .misuse argument => misused argument
  | .run ⟨_, ast, none⟩ => interactive ast .start (splitLines stdin)
  | .run ⟨true, ast, some path⟩ => runFile ast path (readFile path)
  | .run ⟨false, ast, some script⟩ => runScript ast script

end ExprScript.CommandLine
