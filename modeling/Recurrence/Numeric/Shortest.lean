import Recurrence.Numeric.Binary64
import Recurrence.Text.Decimal

/-!
# The shortest decimal that reads back

A finite number is written with the fewest significant digits that still round to it; of several
decimals of that length the nearest is taken, and an even last digit on a tie.

* `Interval`: the decimals that round to a number
* `shortestDigits`: the digits, and the place of the point
* `Binary64.toText`: positional from 0.0001 to below 10^16, otherwise with an exponent of at least
  two digits; always with a point or an exponent
-/

namespace Recurrence

open Text

/-- The real numbers that round to one number: its value `mid / den` and the ends of the interval,
which belong to it if `closed`. -/
structure Interval where
  low : Nat
  mid : Nat
  high : Nat
  den : Nat
  closed : Bool

namespace Interval

/-- The interval of `m * 2 ^ e`.  Below a power of two the neighbour is nearer. -/
def ofFinite (m : Nat) (e : Int) : Interval :=
  let unit := Binary64.scale 1 e
  let below := if m = twoTo 52 ∧ -1074 < e then 1 else 2
  { low := (4 * m - below) * unit.1
    mid := 4 * m * unit.1
    high := (4 * m + 2) * unit.1
    den := 4 * unit.2
    closed := m % 2 == 0 }

/-- Whether the integer `n` lies in the interval. -/
def contains (i : Interval) (n : Nat) : Bool :=
  if i.closed then i.low ≤ n * i.den && n * i.den ≤ i.high
  else i.low < n * i.den && n * i.den < i.high

/-- The interval with all its numbers multiplied by `up / down`. -/
def rescale (i : Interval) (up down : Nat) : Interval :=
  { i with low := i.low * up, mid := i.mid * up, high := i.high * up, den := i.den * down }

end Interval

/-- How often ten has to be multiplied to `num / den` before it is at least one. -/
def tenfoldsToOne (den : Nat) : (fuel num : Nat) → Nat
  | 0, _ => 0
  | fuel + 1, num => if den ≤ num then 0 else tenfoldsToOne den fuel (num * 10) + 1

/-- The number of digits before the point of `num / den`; zeros behind the point count downwards. -/
def pointPlace (num den : Nat) : Int :=
  if den ≤ num then ((decimal (num / den)).length : Int)
  else 1 - (tenfoldsToOne den 400 num : Int)

/-- The decimal with `n` digits, as an integer with the point at `place`, that lies in the interval
and next to its value. -/
def nearestOfLength (i : Interval) (place : Int) (n : Nat) : Option Nat :=
  let shift : Int := n - place
  let j := if 0 ≤ shift then i.rescale (tenTo shift.toNat) 1 else i.rescale 1 (tenTo (-shift).toNat)
  let d := j.mid / j.den
  match j.contains d, j.contains (d + 1) with
  | true, true => some (roundDiv j.mid j.den)
  | true, false => some d
  | false, true => some (d + 1)
  | false, false => none

/-- The first length from `n` on that has a decimal in the interval. -/
def shortestFrom (i : Interval) (place : Int) : (fuel n : Nat) → Nat × Nat
  | 0, n => (i.mid / i.den, n)
  | fuel + 1, n =>
    match nearestOfLength i place n with
    | some d => (d, n)
    | none => shortestFrom i place fuel (n + 1)

def dropZeros (ds : List Char) : List Char := (ds.reverse.dropWhile (· == '0')).reverse

/-- The digits of the shortest decimal for `m * 2 ^ e`, and how many of them stand before the
point. -/
def shortestDigits (m : Nat) (e : Int) : List Char × Int :=
  let i := Interval.ofFinite m e
  let place := pointPlace i.mid i.den
  let (d, n) := shortestFrom i place 17 1
  let ds := decimal d
  (dropZeros ds, place + ((ds.length : Int) - n))

namespace Binary64

/-- Digits with the point behind the first `place` of them. -/
def positional (ds : List Char) (place : Int) : List Char :=
  if place ≤ 0 then '0' :: '.' :: (List.replicate (-place).toNat '0' ++ ds)
  else
    let n := place.toNat
    if ds.length ≤ n then ds ++ List.replicate (n - ds.length) '0' ++ ['.', '0']
    else ds.take n ++ '.' :: ds.drop n

/-- Digits with the point behind the first of them, and an exponent. -/
def exponential (ds : List Char) (place : Int) : List Char :=
  let x := place - 1
  let mantissa := match ds with
    | [] => ['0']
    | [c] => [c]
    | c :: r => c :: '.' :: r
  let digits := decimal x.natAbs
  mantissa ++ 'e' :: (if x < 0 then '-' else '+') ::
    (if digits.length < 2 then '0' :: digits else digits)

def toChars : Binary64 → List Char
  | nan => ['n', 'a', 'n']
  | infinite n => (if n then ['-'] else []) ++ ['i', 'n', 'f']
  | finite n m e =>
    let sign := if n then ['-'] else []
    if m = 0 then sign ++ ['0', '.', '0']
    else
      let (ds, place) := shortestDigits m e
      sign ++ (if -4 < place ∧ place ≤ 16 then positional ds place else exponential ds place)

/-- The shortest text that reads back, such as `0.1`, `3600.0` or `1e+16`. -/
def toText (x : Binary64) : String := String.ofList x.toChars

example : (ofRatio false 1 10).toText = "0.1" := by decide +kernel

example : (ofDecimal false 5 (-324)).toText = "5e-324" := by decide +kernel

example : (ofDecimal false 1 16).toText = "1e+16" := by decide +kernel

example : (ofDecimal false 1234 2).toText = "123400.0" := by decide +kernel

end Binary64

end Recurrence
