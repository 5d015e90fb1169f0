import Recurrence.Form.Issue
import Recurrence.Text.Digit
import Recurrence.Value.Basic

/-!
# Times in forms

A form takes a time as such, as a text, or as a number of seconds since 1970.  A text has date and
time with a letter `T`, a blank or an underscore between them, or a date alone, which stands for its
first instant.  Numbers beyond twenty thousand millions are milliseconds.

* `FormTime.readStamp?`, `FormTime.readDate?`: the texts
* `FormTime.ofSeconds?`: the seconds since 1970, from the year 1600 to the year 9999
* `FormTime.check`: the time of a field
-/

namespace Recurrence.FormTime

open Text

def pair? (a b : Char) : Option Nat :=
  match asciiDigit? a, asciiDigit? b with
  | some x, some y => some (10 * x + y)
  | _, _ => none

/-! ## Texts -/

/-- A date in front of a text, and what follows. -/
def dateFront? : List Char → Option (Date × List Char)
  | a :: b :: c :: d :: '-' :: e :: f :: '-' :: g :: h :: rest =>
    match pair? a b, pair? c d, pair? e f, pair? g h with
    | some y1, some y2, some m, some n =>
      (Date.of? (100 * y1 + y2) m n).map fun date => (date, rest)
    | _, _, _, _ => none
  | _ => none

/-- The microseconds of a fraction, the first six digits of which count, and what follows. -/
def fraction? (s : List Char) : Option (Nat × List Char) :=
  let ds := s.takeWhile isAsciiDigit
  if ds = [] then none
  else
    let front := ds.take 6
    some (asciiNumber front * tenTo (6 - front.length), s.dropWhile isAsciiDigit)

/-- Seconds and their fraction, both of which may be missing. -/
def seconds? : List Char → Option (Nat × Nat × List Char)
  | ':' :: a :: b :: rest =>
    match pair? a b with
    | none => none
    | some sec =>
      match rest with
      | '.' :: r | ',' :: r => (fraction? r).map fun f => (sec, f.1, f.2)
      | r => some (sec, 0, r)
  | ':' :: _ => none
  | r => some (0, 0, r)

/-- Hours and minutes with a sign, and nothing else. -/
def signedOffset? (negative : Bool) : List Char → Option Offset
  | a :: b :: rest =>
    let minutes := match rest with
      | [':', c, d] => pair? c d
      | [c, d] => pair? c d
      | _ => none
    match pair? a b, minutes with
    | some h, some m =>
      if m < 60 then
        let n : Int := (3600 * h + 60 * m) * 1000000
        Offset.of? (if negative then -n else n)
      else none
    | _, _ => none
  | _ => none

/-- The offset at the end of a text, which may be missing. -/
def offset? : List Char → Option (Option Offset)
  | [] => some none
  | ['Z'] | ['z'] => some (some Offset.zero)
  | '+' :: r => (signedOffset? false r).map some
  | '-' :: r | '\u2212' :: r => (signedOffset? true r).map some
  | _ => none

/-- Date, time and offset. -/
def readStamp? (s : List Char) : Option Stamp :=
  match dateFront? s with
  | some (date, t :: a :: b :: ':' :: c :: d :: rest) =>
    if t = 'T' ∨ t = 't' ∨ t = ' ' ∨ t = '_' then
      match pair? a b, pair? c d, seconds? rest with
      | some h, some m, some (sec, micro, rest) =>
        match offset? rest with
        | none => none
        | some offset =>
          let time := (3600 * h + 60 * m + sec) * microsPerSecond + micro
          if ok : time < microsPerDay ∧ m < 60 ∧ sec < 60 then
            some ⟨Instant.ofDay date.toDay time date.toDay_lt ok.1, offset⟩
          else none
      | _, _, _ => none
    else none
  | _ => none

/-- The first instant of a date. -/
def midnight (d : Date) : Stamp :=
  ⟨Instant.ofDate d, none⟩

/-- A date alone. -/
def readDate? (s : List Char) : Option Stamp :=
  match dateFront? s with
  | some (d, []) => some (midnight d)
  | _ => none

/-! ## Numbers -/

/-- The day number of 1970-01-01. -/
def epochDay : Nat := 719162

/-- Numbers of a greater amount are milliseconds. -/
def millisecondsFrom : Int := 20000000000

/-- The stamp of a number of seconds, or milliseconds, since 1970, plus microseconds. -/
def ofSeconds? (n : Int) (micro : Int) : Option Stamp :=
  let micros := if n.natAbs ≤ millisecondsFrom.natAbs then n * 1000000 + micro
    else n * 1000 + micro
  let second := micros / 1000000
  if -11676096000 ≤ second ∧ second ≤ 253402300799 then
    (Instant.ofMicros? ((epochDay * secondsPerDay : Nat) * 1000000 + micros)).map Stamp.ofInstant
  else none

/-- The millionths in `num / den`, as a floating-point number and then rounded; a half goes up. -/
def millionths (num den : Nat) : Int :=
  match Binary64.ofRatio false (num * 1000000) den with
  | .finite _ m e =>
    let s := Binary64.scale m e
    ((2 * s.1 + s.2) / (2 * s.2) : Nat)
  | _ => 0

/-- The stamp of a number of seconds with a fraction: the integer below it, and the fraction without
its sign in microseconds. -/
def ofBinary64? (x : Binary64) : Option Stamp :=
  match x, x.floor? with
  | .finite _ m e, some n =>
    let s := Binary64.scale m e
    ofSeconds? n (millionths (s.1 % s.2) s.2)
  | _, _ => none

/-- The thousandth part of a number. -/
def thousandth : Binary64 → Binary64
  | .finite n m e =>
    let s := Binary64.scale m e
    Binary64.ofRatio n s.1 (s.2 * 1000)
  | x => x

/-- The stamp of a number with a fraction that is written out: the integer below it, and how far the
number lies above it. -/
def ofNumeral? (x : Binary64) : Option Stamp :=
  let seconds := match x.floor? with
    | some n => if n.natAbs < millisecondsFrom.natAbs then x else thousandth x
    | none => x
  match seconds, seconds.floor? with
  | .finite negative m e, some n =>
    let s := Binary64.scale m e
    let excess := s.1 % s.2
    ofSeconds? n (millionths (if negative ∧ excess ≠ 0 then s.2 - excess else excess) s.2)
  | _, _ => none

/-- A number of seconds or milliseconds, with or without a sign and a fraction. -/
def readNumber? (s : List Char) : Option Stamp :=
  let (negative, s) := match s with
    | '-' :: r => (true, r)
    | '+' :: r => (false, r)
    | r => (false, r)
  let whole := s.takeWhile isAsciiDigit
  match s.dropWhile isAsciiDigit with
  | [] =>
    if whole = [] then none
    else
      let n : Int := asciiNumber whole
      ofSeconds? (if negative then -n else n) 0
  | '.' :: r =>
    if r.all isAsciiDigit && !(whole = [] && r = []) then
      ofNumeral? (Binary64.ofDecimal negative (asciiNumber (whole ++ r)) (-r.length))
    else none
  | _ => none

/-! ## The field -/

/-- The time that a text gives. -/
def ofText? (s : List Char) : Option Stamp :=
  match readStamp? s with
  | some t => some t
  | none =>
    match readNumber? s with
    | some t => some t
    | none => readDate? s

/-- Whether a text would be a time if there were a year zero, which is a leap year as the year 400. -/
def isInYearZero : List Char → Bool
  | '0' :: '0' :: '0' :: '0' :: r =>
    let s := '0' :: '4' :: '0' :: '0' :: r
    (readStamp? s).isSome || (readDate? s).isSome
  | _ => false

/-- The time of a field. -/
def check : Value → Check Stamp
  | .moment (.stamp s) => .ok s
  | .moment (.day d) => .ok (midnight d)
  | .text s =>
    match ofText? s.toList with
    | some t => .ok t
    | none => .fault (if isInYearZero s.toList then .timeNumber else .timeText)
  | .int i =>
    match ofSeconds? i 0, Binary64.ofInt i with
    | some t, _ => .ok t
    | none, .infinite _ => .fault .notTime
    | none, _ => .fault .timeNumber
  | .float x =>
    match ofBinary64? x with
    | some t => .ok t
    | none => .fault .timeNumber
  | _ => .fault .notTime

/-- The time of a field as an instant. -/
def checkInstant (v : Value) : Check Instant :=
  match check v with
  | .error e => .error e
  | .ok s =>
    match s.utc with
    | .ok t => .ok t
    | .error e => .error (.time e)

end Recurrence.FormTime
