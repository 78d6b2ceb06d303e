import ExprScript.Syntax

/-!
# Values

What an expression comes to.  Besides the values that a program computes with,
evaluation passes on two kinds of interruption as if they were values: an error,
and a return that has not yet reached the call it ends.
-/

namespace ExprScript

structure EnvId where
  index : Nat
deriving DecidableEq, Repr

/-- A function value: what it was written as, the environment in which that
happened, and a number that tells it from every other function value. -/
structure Closure where
  parameters : List Identifier
  body : Block
  env : EnvId
  id : Nat

/-- The values of the language, with the two interruptions. -/
inductive Value where
  | integer (n : Int64)
  | boolean (b : Bool)
  | null
  | error (message : String)
  | function (f : Closure)
  /-- A return on its way to the end of the call. -/
  | pendingReturn (v : Value)

inductive Kind where
  | integer
  | boolean
  | null
  | error
  | function
  | pendingReturn
deriving DecidableEq, Repr

def Kind.text : Kind → String
  | .integer => "INTEGER"
  | .boolean => "BOOLEAN"
  | .null => "NULL"
  | .error => "ERROR"
  | .function => "FUNCTION"
  | .pendingReturn => "RETURN_VALUE"

namespace Value

def kind : Value → Kind
  | integer _ => .integer
  | boolean _ => .boolean
  | null => .null
  | error _ => .error
  | function _ => .function
  | pendingReturn _ => .pendingReturn

def isError : Value → Bool
  | error _ => true
  | _ => false

/-- Errors and pending returns stop whatever is being evaluated. -/
def interrupts : Value → Bool
  | error _ => true
  | pendingReturn _ => true
  | _ => false

/-- Every value counts as true but false and null. -/
def isTruthy : Value → Bool
  | boolean b => b
  | null => false
  | _ => true

/-- The value that a pending return carries; any other value is left alone. -/
def unwrapReturn : Value → Value
  | pendingReturn v => v
  | v => v

/-- Equality of values.  Functions are compared by identity: two of them are
equal only if the same evaluation of a function expression made both. -/
def same : Value → Value → Bool
  | integer m, integer n => m == n
  | boolean a, boolean b => a == b
  | null, null => true
  | error m, error n => m == n
  | function f, function g => f.id == g.id
  | pendingReturn v, pendingReturn w => v.same w
  | _, _ => false

end Value

end ExprScript
