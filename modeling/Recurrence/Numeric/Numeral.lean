import Recurrence.Numeric.Binary64
import Recurrence.Text.Decimal

/-!
# Numerals in free text

* `readInBase?`: an integer in base two, eight or sixteen
* `Binary64.read?`: a floating-point number

White space may stand around them, and digits may be of any script.
-/

namespace Recurrence

open Text

namespace Text

/-- The worth of a digit in a base of at most sixteen. -/
def baseDigit? (base : Nat) (c : Char) : Option Nat :=
  match (digitValue? c).orElse fun _ => hexDigit? c with
  | some d => if d < base then some d else none
  | none => none

/-- The number that the digits spell. -/
def inBase? (base : Nat) (s : List Char) : Option Nat :=
  if s = [] then none
  else s.foldl (fun n c => n.bind fun n => (baseDigit? base c).map (base * n + ·)) (some 0)

/-- The digits behind a zero and the letter that names their base. -/
def dropBase (mark : Char) : List Char → List Char
  | '0' :: c :: r => if c.toLower = mark then r else '0' :: c :: r
  | s => s

/-- An integer with one sign, in a base that `mark` names. -/
def readInBase? (base : Nat) (mark : Char) (s : List Char) : Option Int :=
  let (negative, s) := takeSign (stripNumeral s)
  (inBase? base (dropBase mark s)).map (withSign negative)

end Text

namespace Binary64

/-- The worths of the digits at the start, and what follows. -/
def takeDigits (s : List Char) : List Nat × List Char :=
  ((s.takeWhile isDigit).filterMap digitValue?, s.dropWhile isDigit)

/-- An exponent that fills the text, or nothing. -/
def exponent? : List Char → Option Int
  | [] => some 0
  | e :: r =>
    if e = 'e' ∨ e = 'E' then
      let (negative, r) := takeSign r
      let (ds, r) := takeDigits r
      if ds = [] || r ≠ [] then none
      else some (withSign negative (ofDigits ds))
    else none

/-- A decimal numeral without a sign. -/
def readDecimal? (negative : Bool) (s : List Char) : Option Binary64 :=
  let (whole, r) := takeDigits s
  let (fraction, r) := match r with
    | '.' :: r => takeDigits r
    | r => ([], r)
  if whole = [] && fraction = [] then none
  else
    (exponent? r).map fun e =>
      ofDecimal negative (ofDigits (whole ++ fraction)) (e - fraction.length)

/-- A floating-point number: a decimal numeral, or a word for what is no finite number. -/
def read? (s : List Char) : Option Binary64 :=
  let (negative, s) := takeSign (stripNumeral s)
  let word := String.ofList (s.map Char.toLower)
  if word = "inf" ∨ word = "infinity" then some (infinite negative)
  else if word = "nan" then some nan
  else readDecimal? negative s

example : read? " -1_0".toList = none := by decide +kernel

example : read? "+.5e1 ".toList = some (ofInt 5) := by decide +kernel

end Binary64

end Recurrence
