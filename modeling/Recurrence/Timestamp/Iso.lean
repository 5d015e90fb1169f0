import Recurrence.Calendar.Instant
import Recurrence.Numeric.Power
import Recurrence.Text.Blank
import Recurrence.Text.Digit

/-!
# Reading international time stamps

The date comes first: year, month and day, or year, week and day of the week, both with hyphens or
without.  Any one character may follow, and then the time of day, with colons or without, down to
fractions of a second, and the distance from universal time.

* `Iso.dateLength`: how many characters of a text are its date
* `Iso.readDate?`, `Iso.readClock?`, `Iso.readOffset?`: the three parts
* `Stamp.ofIso?`: the stamp that a text spells
* `Instant.ofIso`: its instant; a final `Z` or `z` stands for universal time

The time of day ends at the first sign or `Z`.  Where such a mark follows, one more character of
ASCII after the last pair of digits is passed over, and so is anything after the sixth digit of a
fraction.  A null character at these places counts as the end.
-/

namespace Recurrence

open Text

namespace Iso

/-- The number that the characters spell, if they are all digits. -/
def number? (s : List Char) : Option Nat :=
  s.foldl (fun n c => match n, asciiDigit? c with
    | some n, some d => some (10 * n + d)
    | _, _ => none) (some 0)

/-! ## The date -/

/-- The day number of the Monday of the first week of a year, the one with the year's first
Thursday. -/
def firstMonday (year : Nat) : Nat :=
  let first := daysBeforeYear year
  if first % 7 ≤ 3 then first - first % 7 else first - first % 7 + 7

/-- A year has a week 53 if it starts on a Thursday, or on a Wednesday and is a leap year. -/
def hasWeek53 (year : Nat) : Bool :=
  daysBeforeYear year % 7 == 3 || (daysBeforeYear year % 7 == 2 && isLeap year)

def weekDate? (year week day : Nat) : Option Date :=
  if 1 ≤ year ∧ 1 ≤ week ∧ (week ≤ 52 ∨ week = 53 ∧ hasWeek53 year) ∧ 1 ≤ day ∧ day ≤ 7 then
    let n := firstMonday year + 7 * (week - 1) + (day - 1)
    if h : n < calendarDays then some (Date.ofDay n h) else none
  else none

def dateOf? (y m d : List Char) : Option Date :=
  match number? y, number? m, number? d with
  | some y, some m, some d => Date.of? y m d
  | _, _, _ => none

def weekDateOf? (y w d : List Char) : Option Date :=
  match number? y, number? w, number? d with
  | some y, some w, some d => weekDate? y w d
  | _, _, _ => none

/-- The date that a text spells, in one of the six forms. -/
def readDate? : List Char → Option Date
  | [a, b, c, d, '-', 'W', w, x] => weekDateOf? [a, b, c, d] [w, x] ['1']
  | [a, b, c, d, '-', 'W', w, x, '-', e] => weekDateOf? [a, b, c, d] [w, x] [e]
  | [a, b, c, d, 'W', w, x] => weekDateOf? [a, b, c, d] [w, x] ['1']
  | [a, b, c, d, 'W', w, x, e] => weekDateOf? [a, b, c, d] [w, x] [e]
  | [a, b, c, d, '-', m, n, '-', e, f] => dateOf? [a, b, c, d] [m, n] [e, f]
  | [a, b, c, d, m, n, e, f] => dateOf? [a, b, c, d] [m, n] [e, f]
  | _ => none

/-- The number of characters of the date at the front of a text.  Where a week is followed by a
hyphen and two more characters of which the second is a digit, the hyphen ends the date; where it
is followed by digits alone, their number tells whether the first of them is the day. -/
def dateLength (s : List Char) : Nat :=
  match s with
  | [_, _, _, _, _, _, _] => 7
  | _ :: _ :: _ :: _ :: '-' :: 'W' :: _ :: _ :: '-' :: _ :: c :: _ => if isAsciiDigit c then 8 else 10
  | _ :: _ :: _ :: _ :: '-' :: 'W' :: _ :: _ :: '-' :: _ => 10
  | _ :: _ :: _ :: _ :: '-' :: 'W' :: _ => 8
  | _ :: _ :: _ :: _ :: '-' :: _ => 10
  | _ :: _ :: _ :: _ :: 'W' :: _ :: _ :: r =>
    let n := 7 + (r.takeWhile isAsciiDigit).length
    if n < 9 then n else if n % 2 = 0 then 7 else 8
  | _ => 8

/-! ## The time of day and the offset -/

/-- Hours, minutes, seconds and microseconds, each as written. -/
structure Clock where
  hour : Nat
  minute : Nat
  second : Nat
  micro : Nat

namespace Clock

def ofFields (fields : List Nat) (micro : Nat) : Clock where
  hour := fields.getD 0 0
  minute := fields.getD 1 0
  second := fields.getD 2 0
  micro := micro

def seconds (c : Clock) : Nat := 3600 * c.hour + 60 * c.minute + c.second

def micros (c : Clock) : Nat := c.seconds * microsPerSecond + c.micro

end Clock

/-- What follows the pairs of digits. -/
inductive Tail where
  | done
  | leftOver
  | fraction (s : List Char)

/-- Up to `left` pairs of digits, all with colons between them or all without, and what follows. -/
def readPairs? : (left : Nat) → (colons : Option Bool) → List Char → Option (List Nat × Tail)
  | 0, _, s => some ([], .fraction s)
  | left + 1, colons, a :: b :: r =>
    match asciiDigit? a, asciiDigit? b with
    | some x, some y =>
      match r with
      | [] => some ([10 * x + y], .done)
      | [c] =>
        if c = '\x00' then some ([10 * x + y], .done)
        else if c.toNat < 128 then some ([10 * x + y], .leftOver)
        else none
      | c :: r =>
        let colons := colons.getD (c == ':')
        if colons && c == ':' then
          (readPairs? left (some colons) r).map fun p => ((10 * x + y) :: p.1, p.2)
        else if c == '.' || c == ',' then some ([10 * x + y], .fraction r)
        else if colons then none
        else (readPairs? left (some colons) (c :: r)).map fun p => ((10 * x + y) :: p.1, p.2)
    | _, _ => none
  | _, _, _ => none

/-- Whether nothing follows.  A null character hides what is behind it. -/
def isOver : List Char → Bool
  | [] => true
  | c :: _ => c == '\x00'

/-- The microseconds of a fraction, and whether it ends with its last digit.  Digits after the
sixth are cut off. -/
def readFraction? (s : List Char) : Option (Nat × Bool) :=
  let front := s.take 6
  match number? front with
  | none => none
  | some n => some (n * tenTo (6 - front.length), isOver ((s.drop 6).dropWhile isAsciiDigit))

/-- The time of day that a text spells, and whether it ends with its last digit. -/
def readClock? (s : List Char) : Option (Clock × Bool) :=
  match readPairs? 3 none s with
  | none => none
  | some (fields, .done) => some (.ofFields fields 0, true)
  | some (fields, .leftOver) => some (.ofFields fields 0, false)
  | some (fields, .fraction r) =>
    (readFraction? r).map fun f => (.ofFields fields f.1, f.2)

/-- The offset that follows a sign.  One of no whole second is none at all. -/
def readOffset? (negative : Bool) (s : List Char) : Option Offset :=
  match readClock? s with
  | some (c, true) =>
    if c.seconds = 0 then some Offset.zero
    else Offset.of? (if negative then -Int.ofNat c.micros else Int.ofNat c.micros)
  | _ => none

def isZoneMark (c : Char) : Bool := c == '+' || c == '-' || c == 'Z'

/-- The time of day and the offset that a text spells. -/
def readTime? (s : List Char) : Option (Clock × Option Offset) :=
  match readClock? (s.takeWhile (!isZoneMark ·)), s.dropWhile (!isZoneMark ·) with
  | some (c, true), [] => some (c, none)
  | some (c, _), 'Z' :: r => if isOver r then some (c, some Offset.zero) else none
  | some (c, _), '+' :: r => (readOffset? false r).map fun o => (c, some o)
  | some (c, _), '-' :: r => (readOffset? true r).map fun o => (c, some o)
  | _, _ => none

/-- The stamp with a date, a time of day and an offset, if the day has that time. -/
def stampOf? (d : Date) (c : Clock) (offset : Option Offset) : Option Stamp :=
  if h : c.micros < microsPerDay ∧ c.minute < 60 ∧ c.second < 60 then
    some ⟨Instant.ofDay d.toDay c.micros d.toDay_lt h.1, offset⟩
  else none

/-- The stamp that a text spells. -/
def read? (s : List Char) : Option Stamp :=
  let n := dateLength s
  match readDate? (s.take n), s.drop n with
  | some d, [] => stampOf? d (.ofFields [] 0) none
  | some d, _ :: time =>
    match readTime? time with
    | some (c, offset) => stampOf? d c offset
    | none => none
  | none, _ => none

/-- The text without white space around it, with a final `Z` or `z` spelled as an offset. -/
def body (s : List Char) : List Char :=
  let t := strip s
  match t.getLast? with
  | some 'Z' | some 'z' => t.dropLast ++ ['+', '0', '0', ':', '0', '0']
  | _ => t

end Iso

/-- The stamp that an international time stamp spells. -/
def Stamp.ofIso? (s : String) : Option Stamp := Iso.read? (Iso.body s.toList)

/-- The instant that an international time stamp spells. -/
def Instant.ofIso (s : String) : Except TimeError Instant :=
  match Stamp.ofIso? s with
  | none => .error .malformed
  | some stamp => stamp.utc

/-- The moment that a text of a fixed form spells: ten characters are a day, and all else is a
stamp. -/
def Moment.ofText? (s : String) : Option Moment :=
  let chars := s.toList
  if chars.length = 10 then (Iso.readDate? chars).map .day else (Iso.read? chars).map .stamp

end Recurrence
