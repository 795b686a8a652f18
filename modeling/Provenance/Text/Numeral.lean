import Provenance.Text.Blank

/-!
# Integers as text

Integers are written in decimal, without leading zeros and with a leading `-` when negative. They
are read with an optional sign and any number of leading zeros, and only in the range of signed
64-bit words.
-/

namespace Provenance.Text

/-- Whether `n` is a signed 64-bit word. -/
def isWord (n : Int) : Bool := -9223372036854775808 ≤ n && n ≤ 9223372036854775807

/-- The decimal text of a natural number. -/
def natural (n : Nat) : String := String.ofList (Nat.toDigits 10 n)

/-- The decimal text of an integer. -/
def decimal : Int → String
  | .ofNat n => natural n
  | .negSucc n => "-" ++ natural (n + 1)

/-- The hexadecimal text of a natural number, in lower case. -/
def hexadecimal (n : Nat) : String := String.ofList (Nat.toDigits 16 n)

/-- The text filled up with `fill` on its left to `width` characters. -/
def padLeft (width : Nat) (fill : Char) (text : String) : String :=
  String.ofList (List.replicate (width - text.length) fill) ++ text

/-- Whether `c` is one of the ten ASCII digits. -/
def isDigit (c : Char) : Bool := '0' ≤ c && c ≤ '9'

/-- The value of a digit. -/
def digitValue (c : Char) : Nat := c.toNat - '0'.toNat

/-- The value of a list of digits, the most significant first. -/
def digitsValue (ds : List Char) : Nat := ds.foldl (fun n d => 10 * n + digitValue d) 0

/-- The number that a nonempty list of digits denotes, if there are no other characters. -/
def natural? (cs : List Char) : Option Nat :=
  if !cs.isEmpty && cs.all isDigit then some (digitsValue cs) else none

/-- The word that `cs` denotes: an optional sign and at least one digit. -/
def word? (cs : List Char) : Option Int :=
  let value : Option Int :=
    match cs with
    | '-' :: ds => (natural? ds).map fun n => -(n : Int)
    | '+' :: ds => (natural? ds).map fun n => (n : Int)
    | ds => (natural? ds).map fun n => (n : Int)
  value.filter isWord

/-- The word that a text denotes once the blanks around it are gone. -/
def trimmedWord? (text : String) : Option Int := word? (trimBlanks text).toList

end Provenance.Text
