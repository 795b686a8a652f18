import Provenance.Text.Numeral

/-!
# Binary floating-point numbers

A finite number is `± significand * 2 ^ exponent` with a significand below `2 ^ 53` and an exponent
of at least `-1074`; beyond the largest finite number lies infinity. All arithmetic here is exact,
on natural numbers. A decimal is rounded to the nearest number, a tie to the even significand. A
number is written with the fewest digits that read back as the same number, the nearest of these.
-/

namespace Provenance.Store

inductive Binary64 where
  | finite (negative : Bool) (significand : Nat) (exponent : Int)
  | infinite (negative : Bool)
  deriving DecidableEq, Repr, Inhabited

namespace Binary64

/-- The quotient rounded to the nearest integer, a tie to the even one. -/
def roundQuotient (numerator denominator : Nat) : Nat :=
  let q := numerator / denominator
  let r := numerator % denominator
  if 2 * r < denominator then q
  else if 2 * r = denominator && q % 2 = 0 then q
  else q + 1

/-- Numerator and denominator scaled so that their quotient is divided by `2 ^ q`. -/
def unscale (numerator denominator : Nat) (q : Int) : Nat × Nat :=
  if 0 ≤ q then (numerator, denominator * Nat.pow 2 q.toNat)
  else (numerator * Nat.pow 2 (-q).toNat, denominator)

/-- The number nearest to a positive quotient. -/
def ofQuotient (negative : Bool) (numerator denominator : Nat) : Binary64 :=
  let estimate : Int := (numerator.log2 : Int) - denominator.log2 - 53
  let significandAt (q : Int) : Nat :=
    let (n, d) := unscale numerator denominator q
    roundQuotient n d
  let q := max estimate (-1074)
  let (m, q) :=
    if significandAt q < Nat.pow 2 53 then (significandAt q, q) else (significandAt (q + 1), q + 1)
  let (m, q) := if m = Nat.pow 2 53 then (Nat.pow 2 52, q + 1) else (m, q)
  if 971 < q then infinite negative else finite negative m q

/-- The number nearest to `± digits * 10 ^ exponent`. -/
def ofDecimal (negative : Bool) (digits : Nat) (exponent : Int) : Binary64 :=
  let places : Int := (Text.natural digits).length
  if digits = 0 || exponent + places < -400 then finite negative 0 (-1074)
  else if 400 < exponent + places then infinite negative
  else if 0 ≤ exponent then ofQuotient negative (digits * Nat.pow 10 exponent.toNat) 1
  else ofQuotient negative digits (Nat.pow 10 (-exponent).toNat)

def ofInt (n : Int) : Binary64 := ofDecimal (n < 0) n.natAbs 0

/-- The number, without a sign if it is zero. -/
def withPlainZero : Binary64 → Binary64
  | finite true 0 q => finite false 0 q
  | x => x

/-- Whether `digit`s of the grid `10 ^ g` read back as the number with the given significand and
exponent: the distance is at most half the way to the neighbour, and that far only if the
significand is even. -/
def readsBack (significand : Nat) (exponent : Int) (digits : Nat) (g : Int) : Bool :=
  let below : Nat := if significand = Nat.pow 2 52 && -1074 < exponent then 1 else 2
  let (low, high) := (4 * significand - below, 4 * significand + 2)
  -- `digits * 10 ^ g` and `low * 2 ^ (exponent - 2)` over a common denominator
  let (ten, tenth) := if 0 ≤ g then (Nat.pow 10 g.toNat, 1) else (1, Nat.pow 10 (-g).toNat)
  let (two, half) :=
    if 2 ≤ exponent then (Nat.pow 2 (exponent - 2).toNat, 1)
    else (1, Nat.pow 2 (2 - exponent).toNat)
  let value := digits * ten * half
  let (low, high) := (low * two * tenth, high * two * tenth)
  if significand % 2 = 0 then low ≤ value && value ≤ high else low < value && value < high

/-- Which of two equally near points of a grid is taken. -/
inductive Tie where
  | upper
  | even
  deriving DecidableEq, Repr, Inhabited

/-- Whether the upper one is taken. -/
def Tie.goesUp (lower : Nat) : Tie → Bool
  | upper => true
  | even => lower % 2 = 1

/-- The two neighbours of the number on the grid `10 ^ g`, the nearer one first. -/
def neighbours (tie : Tie) (significand : Nat) (exponent : Int) (g : Int) : Nat × Nat :=
  let (ten, tenth) := if 0 ≤ g then (Nat.pow 10 g.toNat, 1) else (1, Nat.pow 10 (-g).toNat)
  let (two, half) :=
    if 0 ≤ exponent then (Nat.pow 2 exponent.toNat, 1) else (1, Nat.pow 2 (-exponent).toNat)
  let (value, unit) := (significand * two * tenth, ten * half)
  let lower := value / unit
  let twice := 2 * (value % unit)
  if unit < twice || (twice = unit && tie.goesUp lower) then (lower + 1, lower)
  else (lower, lower + 1)

/-- The coarsest grid at or below `10 ^ g` with a point that reads back, and the nearest such
point. -/
def shortestFrom (tie : Tie) (significand : Nat) (exponent : Int) : Nat → Int → Nat × Int
  | 0, g => (0, g)
  | fuel + 1, g =>
    let (near, far) := neighbours tie significand exponent g
    if readsBack significand exponent near g then (near, g)
    else if readsBack significand exponent far g then (far, g)
    else shortestFrom tie significand exponent fuel (g - 1)

/-- The decimal `(digits, g)`, meaning `digits * 10 ^ g`, with the fewest digits that read back as
the number. -/
def shortest (tie : Tie) (significand : Nat) (exponent : Int) : Nat × Int :=
  if significand = 0 then (0, 0) else shortestFrom tie significand exponent 700 310

/-- Decimal digits with the point put `g` places to the right, without an exponent. -/
def positional (digits : Nat) (g : Int) : String :=
  if 0 ≤ g then
    if digits = 0 then "0" else Text.natural digits ++ String.ofList (List.replicate g.toNat '0')
  else
    let places := (-g).toNat
    let all := Text.padLeft (places + 1) '0' (Text.natural digits)
    let cs := all.toList
    let whole := cs.length - places
    String.ofList (cs.take whole) ++ "." ++ String.ofList (cs.drop whole)

def sign (negative : Bool) : String := if negative then "-" else ""

/-- The shortest text that reads back, without an exponent and without a point in a whole
number; a tie goes to the larger digits. -/
def shown : Binary64 → String
  | infinite negative => sign negative ++ "inf"
  | finite negative m q =>
    let (digits, g) := shortest .upper m q
    sign negative ++ positional digits g

/-- The number as numerator and denominator, without its sign. -/
def quotient (m : Nat) (q : Int) : Nat × Nat :=
  if 0 ≤ q then (m * Nat.pow 2 q.toNat, 1) else (m, Nat.pow 2 (-q).toNat)

/-- The largest `g` up to the start, searched downwards, with `10 ^ g ≤ numerator / denominator`. -/
def magnitudeFrom (numerator denominator : Nat) : Nat → Int → Int
  | 0, g => g
  | fuel + 1, g =>
    let fits := if 0 ≤ g then denominator * Nat.pow 10 g.toNat ≤ numerator
      else denominator ≤ numerator * Nat.pow 10 (-g).toNat
    if fits then g else magnitudeFrom numerator denominator fuel (g - 1)

/-- The number rounded to fifteen significant digits, a half away from zero, as the digits and the
exponent of the first of them. -/
def fifteen (m : Nat) (q : Int) : Nat × Int :=
  let (n, d) := quotient m q
  let e := magnitudeFrom n d 700 310
  let g := e - 14
  let (n, d) := if 0 ≤ g then (n, d * Nat.pow 10 g.toNat) else (n * Nat.pow 10 (-g).toNat, d)
  let digits := (2 * n + d) / (2 * d)
  if digits = Nat.pow 10 15 then (Nat.pow 10 14, e + 1) else (digits, e)

/-- The digits without zeros at their end, but at least `least` of them. -/
def trimZeros (least : Nat) (cs : List Char) : List Char :=
  let kept := (cs.reverse.dropWhile (· == '0')).reverse
  kept ++ List.replicate (least - kept.length) '0'

/-- The text that a number has in a column of texts: fifteen significant digits, always with a
point and a digit behind it, and with an exponent below `1e-4` and from `1e15` on; zero has no
sign. -/
def stored : Binary64 → String
  | infinite negative => sign negative ++ "Inf"
  | finite negative m q =>
    if m = 0 then "0.0"
    else
      let (digits, e) := fifteen m q
      let cs := (Text.natural digits).toList
      sign negative ++
        if e < -4 || 14 < e then
          let mantissa :=
            String.ofList (cs.take 1) ++ "." ++ String.ofList (trimZeros 1 (cs.drop 1))
          let power := Text.padLeft 2 '0' (Text.natural e.natAbs)
          mantissa ++ "e" ++ (if e < 0 then "-" else "+") ++ power
        else if e < 0 then
          "0." ++ String.ofList (trimZeros 1 (List.replicate (-e - 1).toNat '0' ++ cs))
        else
          let whole := (e + 1).toNat
          String.ofList (cs.take whole) ++ "." ++ String.ofList (trimZeros 1 (cs.drop whole))

/-- The integer that a number equals, if it is one. -/
def toInt? : Binary64 → Option Int
  | infinite _ => none
  | finite negative m q =>
    let (n, d) := quotient m q
    let whole : Int := (n / d : Nat)
    if n % d = 0 then some (if negative then -whole else whole) else none

/-- The order of a number and an integer, as rationals. -/
def compareInt : Binary64 → Int → Ordering
  | infinite negative, _ => if negative then .lt else .gt
  | finite negative m q, k =>
    let (n, d) := quotient m q
    compare (if negative then -(n : Int) else (n : Int)) (k * d)

/-- The order of two numbers; the two zeros are equal. -/
def order : Binary64 → Binary64 → Ordering
  | infinite a, infinite b => if a = b then .eq else if a then .lt else .gt
  | infinite a, finite .. => if a then .lt else .gt
  | finite .., infinite b => if b then .gt else .lt
  | finite s m q, finite t k p =>
    let (n, d) := quotient m q
    let (l, e) := quotient k p
    compare ((if s then -(n : Int) else (n : Int)) * e) ((if t then -(l : Int) else (l : Int)) * d)

end Binary64

end Provenance.Store
