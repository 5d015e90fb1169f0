import Recurrence.Numeric.Power

/-!
# Binary floating point of 64 bits

A number of this kind is a multiple of a power of two with 53 significant bits, an infinity, or no
number at all.  Everything here is exact arithmetic on naturals followed by one rounding.

* `Binary64`
* `Binary64.ofRatio`: the nearest number to a quotient, ties going to the even one
* `Binary64.add`, `Binary64.mul`, `Binary64.ofInt`
* `Binary64.compare?`: the order of the values
* `Binary64.ofDecimal`: the nearest number to a decimal numeral
* `Binary64.truncate?`, `Binary64.roundPlaces`: to integers and to decimal places
-/

namespace Recurrence

/-- `finite negative m e` is `m * 2 ^ e`, or its negative.  Of the ways to write a number the one in
use has the smallest `e` that is at least -1074 and leaves `m` below `2 ^ 53`; zero is
`finite _ 0 (-1074)`. -/
inductive Binary64 where
  | finite (negative : Bool) (m : Nat) (e : Int)
  | infinite (negative : Bool)
  | nan
deriving DecidableEq, Repr

/-- The quotient rounded to the nearest integer, a tie to the even one. -/
def roundDiv (num den : Nat) : Nat :=
  let q := num / den
  let r := num % den
  if 2 * r < den then q
  else if den < 2 * r then q + 1
  else q + q % 2

namespace Binary64

/-- `n * 2 ^ e` where `e` may be negative, as a numerator and a denominator. -/
def scale (n : Nat) (e : Int) : Nat × Nat :=
  if 0 ≤ e then (n * twoTo e.toNat, 1) else (n, twoTo (-e).toNat)

/-- The exponent with which `num / den` has 53 bits before the point, not below -1074. -/
def exponentOf (num den : Nat) : Int :=
  let e : Int := (Nat.log2 num : Int) - (Nat.log2 den : Int) - 53
  let s := scale den e
  let e := if twoTo 53 * s.1 ≤ num * s.2 then e + 1 else e
  max e (-1074)

/-- The nearest number to `num / den` or its negative. -/
def ofRatio (negative : Bool) (num den : Nat) : Binary64 :=
  if num = 0 then finite negative 0 (-1074)
  else
    let e := exponentOf num den
    let s := scale den e
    let m := roundDiv (num * s.2) s.1
    let (m, e) := if m = twoTo 53 then (twoTo 52, e + 1) else (m, e)
    if 971 < e then infinite negative else finite negative m e

def zero : Binary64 := finite false 0 (-1074)

def ofInt (i : Int) : Binary64 := ofRatio (i < 0) i.natAbs 1

/-- The nearest number to `i * 2 ^ e`; `negativeZero` gives a zero its sign. -/
def ofScaled (i : Int) (e : Int) (negativeZero : Bool) : Binary64 :=
  let s := scale i.natAbs e
  ofRatio (if i = 0 then negativeZero else i < 0) s.1 s.2

/-- The signed integer in front of the power of two. -/
def signedPart (negative : Bool) (m : Nat) : Int := if negative then -Int.ofNat m else Int.ofNat m

/-- Two numbers as multiples of the same power of two. -/
def align (n1 : Bool) (m1 : Nat) (e1 : Int) (n2 : Bool) (m2 : Nat) (e2 : Int) : Int × Int × Int :=
  let e := min e1 e2
  (signedPart n1 (m1 * twoTo (e1 - e).toNat), signedPart n2 (m2 * twoTo (e2 - e).toNat), e)

def add : Binary64 → Binary64 → Binary64
  | finite n1 m1 e1, finite n2 m2 e2 =>
    let (a, b, e) := align n1 m1 e1 n2 m2 e2
    ofScaled (a + b) e (n1 && n2)
  | nan, _ | _, nan => nan
  | infinite n1, infinite n2 => if n1 = n2 then infinite n1 else nan
  | infinite n, _ | _, infinite n => infinite n

def mul : Binary64 → Binary64 → Binary64
  | finite n1 m1 e1, finite n2 m2 e2 =>
    let s := scale (m1 * m2) (e1 + e2)
    ofRatio (n1 != n2) s.1 s.2
  | nan, _ | _, nan => nan
  | infinite n1, infinite n2 => infinite (n1 != n2)
  | infinite n1, finite n2 m _ | finite n2 m _, infinite n1 =>
    if m = 0 then nan else infinite (n1 != n2)

def neg : Binary64 → Binary64
  | finite n m e => finite (!n) m e
  | infinite n => infinite (!n)
  | nan => nan

/-- The order of the values; no number is equal to, less or greater than `nan`. -/
def compare? : Binary64 → Binary64 → Option Ordering
  | nan, _ | _, nan => none
  | infinite n1, infinite n2 => some (if n1 = n2 then .eq else if n1 then .lt else .gt)
  | infinite n, finite .. => some (if n then .lt else .gt)
  | finite .., infinite n => some (if n then .gt else .lt)
  | finite n1 m1 e1, finite n2 m2 e2 =>
    let (a, b, _) := align n1 m1 e1 n2 m2 e2
    some (compare a b)

/-- The nearest number to `digits * 10 ^ exponent`.  Where the exponent alone decides, no power of
ten is formed. -/
def ofDecimal (negative : Bool) (digits : Nat) (exponent : Int) : Binary64 :=
  if digits = 0 then finite negative 0 (-1074)
  else if 400 < exponent then infinite negative
  else if exponent < -400 - (Nat.log2 digits : Int) then finite negative 0 (-1074)
  else if 0 ≤ exponent then ofRatio negative (digits * tenTo exponent.toNat) 1
  else ofRatio negative digits (tenTo (-exponent).toNat)

/-- The integer part of a finite number. -/
def truncate? : Binary64 → Option Int
  | finite n m e =>
    let s := scale m e
    some (signedPart n (s.1 / s.2))
  | _ => none

/-- The integer below a finite number. -/
def floor? : Binary64 → Option Int
  | finite n m e =>
    let s := scale m e
    some ((signedPart n s.1) / (s.2 : Int))
  | _ => none

def isZero : Binary64 → Bool
  | finite _ 0 _ => true
  | _ => false

/-- The nearest number to the decimal with `places` places that is nearest to `x`. -/
def roundPlaces (places : Nat) : Binary64 → Binary64
  | finite n m e =>
    let s := scale m e
    ofRatio n (roundDiv (s.1 * tenTo places) s.2) (tenTo places)
  | x => x

example : ofRatio false 1 3 = finite false 6004799503160661 (-54) := by decide +kernel

example : ofDecimal false 5 (-324) = finite false 1 (-1074) := by decide +kernel

example : ofDecimal false 1 309 = infinite false := by decide +kernel

end Binary64

end Recurrence
