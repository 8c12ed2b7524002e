import StackLisp.Value.Fixnum

/-!
# Numerals

Integers as text: an optional sign and decimal digits, at least one.
-/

namespace StackLisp.Text

/-- One decimal digit or more, and nothing else. -/
def isDigits (cs : List Char) : Bool := !cs.isEmpty && cs.all Char.isDigit

/-- The number that decimal digits denote. -/
def digitsValue (cs : List Char) : Nat :=
  cs.foldl (fun n c => 10 * n + (c.toNat - '0'.toNat)) 0

/-- The integer that a numeral denotes. -/
def integer? : List Char → Option Int
  | '+' :: cs => if isDigits cs then some (digitsValue cs) else none
  | '-' :: cs => if isDigits cs then some (-(digitsValue cs : Int)) else none
  | cs => if isDigits cs then some (digitsValue cs) else none

/-- The fixnum that a numeral denotes. -/
def fixnum? (cs : List Char) : Option Int64 := (integer? cs).bind Fixnum.ofInt?

/-- The count that a numeral without a minus sign denotes, below `2 ^ 64`. -/
def count? (cs : List Char) : Option Nat :=
  match cs with
  | '-' :: _ => none
  | cs => (integer? cs).bind fun n => if n.toNat < UInt64.size then some n.toNat else none

end StackLisp.Text
