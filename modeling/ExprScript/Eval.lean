import ExprScript.Heap
import ExprScript.Reader
import ExprScript.Value.Operators

/-!
# Evaluation

Evaluation takes a tree and an environment to a value and changes the heap.
Parts are evaluated from left to right, and the first one that interrupts, be
it an error or a pending return, is the value of the whole.  A pending return
ends at the call it belongs to or at the end of the program.

Trees are evaluated by recursion on the tree; what a call does is a parameter.
`applyWithin` supplies it by recursion on the number of calls that may still be
inside each other, so evaluation ends on every tree and every heap.
-/

namespace ExprScript

def maxCallDepth : Nat := 1000

abbrev Eval (α : Type) := StateM Heap α

/-- Goes on with a value unless it interrupts, in which case it is handed up as
it is. -/
@[inline] def Value.andThen (v : Value) (next : Value → Eval Value) : Eval Value :=
  if v.interrupts then return v else next v

/-- The value of a name, or an error if nothing binds it. -/
def Heap.valueOf (h : Heap) (env : EnvId) (name : String) : Value :=
  (h.lookup env name).getD (RuntimeError.identifierNotFound name).toValue

mutual

def evalExpr (apply : Value → List Value → Eval Value) (env : EnvId) : Expr → Eval Value
  | .identifier id => return (← get).valueOf env id.name
  | .integer n _ => return .integer n
  | .boolean b _ => return .boolean b
  | .prefixed op operand _ => do
    let v ← evalExpr apply env operand
    v.andThen fun v => return op.apply v
  | .infixed left op right _ => do
    let l ← evalExpr apply env left
    l.andThen fun l => do
      let r ← evalExpr apply env right
      r.andThen fun r => return op.apply l r
  | .conditional condition consequence none _ => do
    let v ← evalExpr apply env condition
    v.andThen fun v => if v.isTruthy then evalBlock apply env consequence else return .null
  | .conditional condition consequence (some alternative) _ => do
    let v ← evalExpr apply env condition
    v.andThen fun v =>
      if v.isTruthy then evalBlock apply env consequence else evalBlock apply env alternative
  | .function parameters body _ => do
    let f ← modifyGet fun h => h.addClosure parameters body env
    return .function f
  | .call callee arguments _ => do
    let f ← evalExpr apply env callee
    f.andThen fun f => do
      match ← evalArguments apply env arguments with
      | .error v => return v
      | .ok values => apply f values

/-- Evaluates arguments from left to right, up to the first that interrupts. -/
def evalArguments (apply : Value → List Value → Eval Value) (env : EnvId) :
    List Expr → Eval (Except Value (List Value))
  | [] => return .ok []
  | argument :: arguments => do
    let v ← evalExpr apply env argument
    if v.interrupts then
      return .error v
    else
      return (← evalArguments apply env arguments).map (v :: ·)

/-- Evaluates a statement.  A binding has the value null. -/
def evalStmt (apply : Value → List Value → Eval Value) (env : EnvId) : Stmt → Eval Value
  | .bind target value _ => do
    let v ← evalExpr apply env value
    v.andThen fun v => do
      modify fun h => h.insert env target.name v
      return .null
  | .ret value _ => do
    let v ← evalExpr apply env value
    v.andThen fun v => return .pendingReturn v
  | .expr value _ => evalExpr apply env value
  | .block body => evalBlock apply env body

/-- Evaluates statements in order, up to the first that interrupts.  The value
is that of the last one evaluated, and `last` if there is none. -/
def evalStmts (apply : Value → List Value → Eval Value) (env : EnvId) (last : Value) :
    List Stmt → Eval Value
  | [] => return last
  | s :: ss => do
    let v ← evalStmt apply env s
    v.andThen fun v => evalStmts apply env v ss

/-- Evaluates a block.  It has no scope of its own. -/
def evalBlock (apply : Value → List Value → Eval Value) (env : EnvId) : Block → Eval Value
  | .mk statements _ => evalStmts apply env .null statements

end

/-- The function to call, if a value is one and takes that many arguments. -/
def Value.callable (callee : Value) (arguments : List Value) : Except RuntimeError Closure :=
  match callee with
  | .function f =>
    if f.parameters.length = arguments.length then
      .ok f
    else
      .error (.wrongArgumentCount f.parameters.length arguments.length)
  | v => .error (.notAFunction v.kind)

/-- Calls a function, where `calls` more calls may be inside each other.  The
body is evaluated in a new environment inside that of the function, in which
the parameters are bound. -/
def applyWithin (limit : Nat) : Nat → Value → List Value → Eval Value
  | 0, callee, arguments =>
    match callee.callable arguments with
    | .error e => return e.toValue
    | .ok _ => return (RuntimeError.recursionLimitExceeded limit).toValue
  | calls + 1, callee, arguments =>
    match callee.callable arguments with
    | .error e => return e.toValue
    | .ok f => do
      let names := f.parameters.map Identifier.name
      let env ← modifyGet fun h => h.addInside f.env (names.zip arguments)
      return (← evalBlock (applyWithin limit calls) env f.body).unwrapReturn

/-- Where evaluation takes place: the environment that bindings go to, and how
many calls it is inside of. -/
structure Context where
  env : EnvId
  depth : Nat

namespace Context

def ofEnv (env : EnvId) : Context :=
  ⟨env, 0⟩

def fresh : Eval Context :=
  return .ofEnv (← modifyGet Heap.addGlobal)

def applyFunctionWithin (limit : Nat) (c : Context) (callee : Value) (arguments : List Value) :
    Eval Value :=
  applyWithin limit (limit - c.depth) callee arguments

/-- Evaluates an expression, with calls nested to at most `limit`. -/
def evalExpressionWithin (limit : Nat) (c : Context) (e : Expr) : Eval Value :=
  evalExpr (c.applyFunctionWithin limit) c.env e

def evalStatementWithin (limit : Nat) (c : Context) (s : Stmt) : Eval Value :=
  evalStmt (c.applyFunctionWithin limit) c.env s

def evalBlockWithin (limit : Nat) (c : Context) (b : Block) : Eval Value :=
  evalBlock (c.applyFunctionWithin limit) c.env b

/-- Evaluates a program, with calls nested to at most `limit`.  A return at the
top level gives the value of the program. -/
def evalProgramWithin (limit : Nat) (c : Context) (p : Program) : Eval Value :=
  return (← evalStmts (c.applyFunctionWithin limit) c.env .null p).unwrapReturn

def applyFunction (c : Context) (callee : Value) (arguments : List Value) : Eval Value :=
  c.applyFunctionWithin maxCallDepth callee arguments

def evalProgram (c : Context) (p : Program) : Eval Value :=
  c.evalProgramWithin maxCallDepth p

def evaluateSource (c : Context) (source : String) : Eval (Except (List ParseError) Value) :=
  match parse source with
  | ⟨p, []⟩ => return .ok (← c.evalProgram p)
  | ⟨_, errors⟩ => return .error errors

end Context

end ExprScript
