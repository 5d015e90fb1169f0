import Recurrence.Numeric.Shortest

/-!
# Integers and floating-point numbers together

A clock may be read in integers or in floating point.  Sums of integers are exact; a sum with a
floating-point part is rounded, and an integer that is too large for floating point has no such sum.
The order is that of the values.

* `Number`, `Number.add?`
* `Number.lt`, `Number.le`
-/

namespace Recurrence

inductive Number where
  | int (i : Int)
  | float (x : Binary64)
deriving DecidableEq, Repr

namespace Number

/-- The number in floating point, unless it is an integer too large for that. -/
def toBinary64? : Number → Option Binary64
  | int i =>
    match Binary64.ofInt i with
    | .infinite _ => none
    | x => some x
  | float x => some x

def add? : Number → Number → Option Number
  | int a, int b => some (int (a + b))
  | a, b =>
    match a.toBinary64?, b.toBinary64? with
    | some x, some y => some (float (x.add y))
    | _, _ => none

/-- An integer as a multiple of a power of two, without rounding. -/
def exact (i : Int) : Binary64 := .finite (i < 0) i.natAbs 0

/-- The order of the values; integers are compared without rounding. -/
def compare? : Number → Number → Option Ordering
  | int a, int b => some (compare a b)
  | int a, float y => (exact a).compare? y
  | float x, int b => x.compare? (exact b)
  | float x, float y => x.compare? y

def lt (a b : Number) : Bool := a.compare? b == some .lt

def le (a b : Number) : Bool := a.compare? b == some .lt || a.compare? b == some .eq

/-- The integer below a number that has one. -/
def floor? : Number → Option Int
  | int i => some i
  | float x => x.floor?

def toText : Number → String
  | int i => String.ofList (Text.signed i)
  | float x => x.toText

end Number

end Recurrence
