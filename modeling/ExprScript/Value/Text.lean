import ExprScript.Syntax.Dump
import ExprScript.Syntax.Text
import ExprScript.Value

/-!
# The written form of a value

`Value.text` is what a program's result is shown as; `Value.dump` shows the
value field by field.
-/

namespace ExprScript

def Closure.text (f : Closure) : String :=
  "fn(" ++ parametersText f.parameters ++ ") " ++ f.body.text

open Dump in
/-- The dump of a function.  The environment is left out, since it may contain
the function itself. -/
def Closure.dump (f : Closure) : String :=
  "Function \x7b parameters: " ++ list (f.parameters.map Identifier.dump) ++
    ", body: " ++ f.body.dump ++ ", .. \x7d"

/-- The written form of a value.  An error shows its message, and a pending
return the value it carries. -/
def Value.text : Value → String
  | .integer n => Numeral.write n
  | .boolean b => boolText b
  | .null => "null"
  | .error message => message
  | .function f => f.text
  | .pendingReturn v => v.text

open Dump in
def Value.dump : Value → String
  | .integer n => variant "Integer" (Numeral.write n)
  | .boolean b => variant "Boolean" (boolText b)
  | .null => "Null"
  | .error message => variant "Error" (quoted message)
  | .function f => variant "Function" f.dump
  | .pendingReturn v => variant "ReturnValue" v.dump

end ExprScript
