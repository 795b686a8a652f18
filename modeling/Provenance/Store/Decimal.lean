import Provenance.Store.Binary64

/-!
# Decimals in a text

A decimal is read as a sign, digits and an exponent, without loss. As a binary number it keeps the
digits that fit in a 64-bit significand, which is then multiplied by powers of ten, the hundreds of
the exponent first, the tens second and the ones last.
-/

namespace Provenance.Store

/-- A decimal number: its sign, its digits as one number, and the exponent of ten. -/
structure Decimal where
  negative : Bool
  digits : Nat
  exponent : Int
  /-- Whether it was written without point and exponent. -/
  whole : Bool
  deriving DecidableEq, Repr, Inhabited

namespace Decimal

/-- The exponent `e±n` at the front of a text, and what follows it. -/
def readExponent? : List Char → Option (Int × List Char)
  | c :: r =>
    if c = 'e' || c = 'E' then
      let (negative, r) := match r with
        | '-' :: r => (true, r)
        | '+' :: r => (false, r)
        | r => (false, r)
      let ds := r.takeWhile Text.isDigit
      if ds.isEmpty then none
      else
        let n : Int := Text.digitsValue ds
        some (if negative then -n else n, r.drop ds.length)
    else none
  | [] => none

/-- The unsigned number at the front of a text, and what follows it. -/
def readUnsigned? (cs : List Char) : Option (Decimal × List Char) :=
  let before := cs.takeWhile Text.isDigit
  let r := cs.drop before.length
  let (after, r, point) := match r with
    | '.' :: r =>
      let after := r.takeWhile Text.isDigit
      (after, r.drop after.length, true)
    | r => ([], r, false)
  if before.isEmpty && after.isEmpty then none
  else
    let digits := Text.digitsValue (before ++ after)
    let exponent : Int := -(after.length : Int)
    match readExponent? r with
    | some (e, r) => some (⟨false, digits, exponent + e, false⟩, r)
    | none => some (⟨false, digits, exponent, !point⟩, r)

/-- The number that a whole text denotes, with an optional sign. -/
def read? (cs : List Char) : Option Decimal :=
  let (negative, cs) := match cs with
    | '-' :: r => (true, r)
    | '+' :: r => (false, r)
    | r => (false, r)
  match readUnsigned? cs with
  | some (d, []) => some { d with negative }
  | _ => none

/-! ## As a binary number -/

/-- A positive number `significand * 2 ^ exponent`. -/
structure Extended where
  significand : Nat
  exponent : Int
  deriving Repr, Inhabited

namespace Extended

/-- Rounds to 64 bits, a tie to the even significand. -/
def rounded (significand : Nat) (exponent : Int) : Extended :=
  let surplus := significand.log2 - 63
  ⟨Binary64.roundQuotient significand (Nat.pow 2 surplus), exponent + surplus⟩

def times (x y : Extended) : Extended :=
  rounded (x.significand * y.significand) (x.exponent + y.exponent)

/-- A power of ten. -/
def power (n : Nat) : Extended := rounded (Nat.pow 10 n) 0

/-- The reciprocal of a power of ten above one. -/
def reciprocal (n : Nat) : Extended :=
  let bits := (Nat.pow 10 n).log2 + 64
  ⟨Binary64.roundQuotient (Nat.pow 2 bits) (Nat.pow 10 n), -bits⟩

/-- Multiplies by `step 100`, then by `step 10`, then by `step 1`, as often as `n` has hundreds,
tens and ones. -/
def scaled (step : Nat → Extended) (n : Nat) (x : Extended) : Extended :=
  let x := Nat.repeat (times · (step 100)) (n / 100) x
  let x := Nat.repeat (times · (step 10)) (n % 100 / 10) x
  Nat.repeat (times · (step 1)) (n % 10) x

/-- The binary number; above the largest finite one lies infinity. -/
def toBinary64 (negative : Bool) (x : Extended) : Binary64 :=
  let (n, d) := Binary64.quotient x.significand x.exponent
  if (Nat.pow 2 53 - 1) * Nat.pow 2 971 * d < n then .infinite negative
  else .ofQuotient negative n d

end Extended

/-- The leading digits that make a significand, and how many digits are left over. -/
def leading : Nat → List Char → Nat × Nat
  | s, [] => (s, 0)
  | s, d :: ds =>
    if s < 1844674407370955160 then leading (10 * s + Text.digitValue d) ds else (s, ds.length + 1)

/-- Moves a positive exponent into the significand, as far as there is room. -/
def moveUp : Nat → Nat → Int → Nat × Int
  | 0, s, e => (s, e)
  | n + 1, s, e => if 0 < e && s < 1844674407370955161 then moveUp n (10 * s) (e - 1) else (s, e)

/-- Moves zeros at the end of a significand into a negative exponent. -/
def moveDown : Nat → Nat → Int → Nat × Int
  | 0, s, e => (s, e)
  | n + 1, s, e => if e < 0 && s % 10 = 0 then moveDown n (s / 10) (e + 1) else (s, e)

/-- The binary number of a decimal. It is reached in steps, each rounded to 64 bits, and may differ
from the nearest one in the last bit. -/
def toBinary64 (d : Decimal) : Binary64 :=
  if d.digits = 0 then .finite d.negative 0 (-1074)
  else
    let (s, dropped) := leading 0 (Text.natural d.digits).toList
    let e := d.exponent + dropped
    if e < -400 then .finite d.negative 0 (-1074)
    else if 400 < e then .infinite d.negative
    else
      let (s, e) := moveUp 20 s e
      let (s, e) := moveDown 20 s e
      let x : Extended :=
        if 0 ≤ e then .scaled .power e.toNat ⟨s, 0⟩ else .scaled .reciprocal (-e).toNat ⟨s, 0⟩
      x.toBinary64 d.negative

end Decimal

end Provenance.Store
