import Recurrence.Text.Digit

/-!
# Decimal and hexadecimal numerals

* `decimal`, `signed`: a number without padding, a negative one behind a minus sign
* `padded`: the last digits of a number, as many as asked for
* `digitRun?`, `ofDigits`: reading digits, with single underscores between them
* `readInt?`: reading an integer, as free text may spell it
* `stripNumeral`, `takeSign`, `withSign`: what may stand around the digits
* `hex`: the last hexadecimal digits of a number, as many as asked for
-/

namespace Recurrence.Text

/-! ## Writing -/

def decimal (n : Nat) : List Char := Nat.toDigits 10 n

def signed (i : Int) : List Char :=
  if i < 0 then '-' :: decimal i.natAbs else decimal i.natAbs

/-- The last `width` decimal digits of `n`, with zeros in front. -/
def padded : (width n : Nat) → List Char
  | 0, _ => []
  | width + 1, n => padded width (n / 10) ++ [Nat.digitChar (n % 10)]

/-- The last `width` hexadecimal digits of `n`, with zeros in front. -/
def hex : (width n : Nat) → List Char
  | 0, _ => []
  | width + 1, n => hex width (n / 16) ++ [Nat.digitChar (n % 16)]

@[simp] theorem length_padded (width n : Nat) : (padded width n).length = width := by
  induction width generalizing n with
  | zero => rfl
  | succ w ih => simp [padded, ih]

/-! ## Reading -/

/-- The worths of a run of digits that fills the text; one underscore may stand between two digits. -/
def digitRun? : List Char → Option (List Nat)
  | [] => none
  | c :: r =>
    match digitValue? c with
    | none => none
    | some d =>
      match r with
      | [] => some [d]
      | '_' :: r' => (digitRun? r').map (d :: ·)
      | e :: r' => (digitRun? (e :: r')).map (d :: ·)

/-- The number that the digits spell in base ten. -/
def ofDigits (ds : List Nat) : Nat := ds.foldl (fun n d => 10 * n + d) 0

/-- The most digits that a numeral may have. -/
def maxDigits : Nat := 4300

def readNat? (s : List Char) : Option Nat :=
  match digitRun? s with
  | some ds => if ds.length ≤ maxDigits then some (ofDigits ds) else none
  | none => none

/-- White space that may surround a numeral: all but the four separator controls. -/
def isNumeralBlank (c : Char) : Bool :=
  let n := c.toNat
  (9 ≤ n && n ≤ 13) || n == 32 || n == 0x85 || n == 0xA0 || n == 0x1680 ||
    (0x2000 ≤ n && n ≤ 0x200A) || n == 0x2028 || n == 0x2029 || n == 0x202F || n == 0x205F ||
    n == 0x3000

/-- The text without the white space around a numeral. -/
def stripNumeral (s : List Char) : List Char :=
  ((s.dropWhile isNumeralBlank).reverse.dropWhile isNumeralBlank).reverse

/-- Whether there is a minus sign, and what follows the sign. -/
def takeSign : List Char → Bool × List Char
  | '-' :: r => (true, r)
  | '+' :: r => (false, r)
  | r => (false, r)

/-- A number or its negative. -/
def withSign (negative : Bool) (n : Nat) : Int := if negative then -Int.ofNat n else Int.ofNat n

/-- An integer as free text may spell it: white space around it, one sign, digits of any script and
single underscores between them, at most `maxDigits` digits. -/
def readInt? (s : List Char) : Option Int :=
  let (negative, r) := takeSign (stripNumeral s)
  (readNat? r).map (withSign negative)

example : readInt? " -1_0٣\n".toList = some (-103) := by decide +kernel

example : readInt? "1__0".toList = none := by decide

end Recurrence.Text
