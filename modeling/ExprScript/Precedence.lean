import ExprScript.Syntax
import ExprScript.Token

/-!
# Operator precedence

How tightly each operator binds, which tokens start an expression and which
continue one.  The three tables are functions of a single token, and the
parser decides every step of an expression by them alone.
-/

namespace ExprScript

/-- The levels of binding strength, from the weakest. -/
inductive Precedence where
  | lowest
  | equals
  | lessGreater
  | sum
  | product
  | operand
  | call
deriving DecidableEq, Repr

namespace Precedence

def rank : Precedence → Nat
  | lowest => 0
  | equals => 1
  | lessGreater => 2
  | sum => 3
  | product => 4
  | operand => 5
  | call => 6

instance : LT Precedence := ⟨fun p q => p.rank < q.rank⟩
instance : LE Precedence := ⟨fun p q => p.rank ≤ q.rank⟩

instance (p q : Precedence) : Decidable (p < q) := inferInstanceAs (Decidable (p.rank < q.rank))
instance (p q : Precedence) : Decidable (p ≤ q) := inferInstanceAs (Decidable (p.rank ≤ q.rank))

end Precedence

inductive StartForm where
  | identifier
  | integer
  | boolean
  | prefixed
  | group
  | conditional
  | function
deriving DecidableEq, Repr

inductive ContinueForm where
  | infixed
  | call
deriving DecidableEq, Repr

namespace Token

/-- The binding strength of a token after an operand; a token that continues
no expression has the lowest. -/
def precedence : Token → Precedence
  | .equal | .notEqual => .equals
  | .less | .greater => .lessGreater
  | .plus | .minus => .sum
  | .star | .slash => .product
  | .leftParen => .call
  | _ => .lowest

def startForm? : Token → Option StartForm
  | .identifier _ => some .identifier
  | .integer _ => some .integer
  | .trueWord | .falseWord => some .boolean
  | .bang | .minus => some .prefixed
  | .leftParen => some .group
  | .ifWord => some .conditional
  | .fnWord => some .function
  | _ => none

def continueForm? : Token → Option ContinueForm
  | .plus | .minus | .star | .slash | .less | .greater | .equal | .notEqual => some .infixed
  | .leftParen => some .call
  | _ => none

def prefixOp? : Token → Option PrefixOp
  | .bang => some .not
  | .minus => some .negate
  | _ => none

def infixOp? : Token → Option InfixOp
  | .plus => some .add
  | .minus => some .sub
  | .star => some .mul
  | .slash => some .div
  | .less => some .less
  | .greater => some .greater
  | .equal => some .equal
  | .notEqual => some .notEqual
  | _ => none

def boolean? : Token → Option Bool
  | .trueWord => some true
  | .falseWord => some false
  | _ => none

def identifier? : Token → Option String
  | .identifier name => some name
  | _ => none

def integer? : Token → Option String
  | .integer text => some text
  | _ => none

end Token

end ExprScript
