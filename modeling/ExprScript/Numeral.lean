/-!
# Decimal numerals

The integers of the language are the signed 64-bit integers.  `Numeral.write`
gives the decimal form of one, and `Numeral.read` is its reverse on a wider
set of texts: an optional sign, then one or more ASCII digits, leading zeros
allowed, with a value in range.
-/

namespace ExprScript.Numeral

/-- The decimal form of an integer, with a `-` in front of a negative one. -/
def write (n : Int64) : String :=
  n.toInt.repr

def inRange (n : Int) : Option Int64 :=
  if Int64.minValue.toInt ≤ n ∧ n ≤ Int64.maxValue.toInt then some (Int64.ofInt n) else none

def readDigits (cs : List Char) : Option Nat :=
  if !cs.isEmpty && cs.all Char.isDigit then some (Nat.ofDigitChars 10 cs 0) else none

def readSigned : List Char → Option Int
  | '-' :: cs => (readDigits cs).map fun n => -(n : Int)
  | '+' :: cs => (readDigits cs).map fun n => (n : Int)
  | cs => (readDigits cs).map fun n => (n : Int)

/-- The 64-bit integer that a text is a numeral of, if it is one. -/
def read (text : String) : Option Int64 :=
  (readSigned text.toList).bind inRange

end ExprScript.Numeral
