import Recurrence.Calendar.Instant
import Recurrence.Text.Blank
import Recurrence.Text.Decimal
import Recurrence.Text.Uppercase

/-!
# Compact time stamps

The time stamps of rules: `20250303T235959Z` is a second of universal time, and `20250303` stands
for the last second of that day.

* `Instant.toCompact`: the second of an instant, in fixed width
* `Second.ofCompact?`: reading both forms

The reader takes its fields from left to right.  A field of two digits may also be a single digit;
among several readings the one whose first fields are longer comes first, and only the first one
counts, which then has to use up the text.
-/

namespace Recurrence

open Text

/-- Date and time without separators, as fixed-width fields. -/
def Instant.compactChars (t : Instant) : List Char :=
  let d := t.date
  padded 4 d.year ++ padded 2 d.month ++ padded 2 d.day ++
    'T' :: padded 2 t.hour ++ padded 2 t.minute ++ padded 2 t.secondOfMinute ++ ['Z']

/-- The instant to the second, such as `20250303T235959Z`. -/
def Instant.toCompact (t : Instant) : String := String.ofList t.compactChars

namespace Compact

/-- The ways to read a value from the front of a text, the preferred one first. -/
abbrev Field := List Char → List (Nat × List Char)

/-- One of the digits 0 to 9 as such, from `lo` to `hi`. -/
def plain (lo hi : Nat) (c : Char) : Option Nat :=
  if 48 + lo ≤ c.toNat ∧ c.toNat ≤ 48 + hi then some (c.toNat - 48) else none

def pair (tens units : Char → Option Nat) : Field
  | a :: b :: rest =>
    match tens a, units b with
    | some x, some y => [(10 * x + y, rest)]
    | _, _ => []
  | _ => []

def single (units : Char → Option Nat) : Field
  | a :: rest =>
    match units a with
    | some x => [(x, rest)]
    | none => []
  | _ => []

/-- A blank in the place of a leading zero. -/
def blankSingle (units : Char → Option Nat) : Field
  | ' ' :: rest => single units rest
  | _ => []

def firstOf (fields : List Field) : Field := fun s => fields.flatMap (· s)

def year : Field
  | a :: b :: c :: d :: rest =>
    match digitValue? a, digitValue? b, digitValue? c, digitValue? d with
    | some w, some x, some y, some z => [(1000 * w + 100 * x + 10 * y + z, rest)]
    | _, _, _, _ => []
  | _ => []

def month : Field :=
  firstOf [pair (plain 1 1) (plain 0 2), pair (plain 0 0) (plain 1 9), single (plain 1 9)]

def day : Field :=
  firstOf [pair (plain 3 3) (plain 0 1), pair (plain 1 2) digitValue?,
    pair (plain 0 0) (plain 1 9), single (plain 1 9), blankSingle (plain 1 9)]

def hour : Field :=
  firstOf [pair (plain 2 2) (plain 0 3), pair (plain 0 1) digitValue?, single digitValue?]

def minute : Field :=
  firstOf [pair (plain 0 5) digitValue?, single digitValue?]

/-- Also 60 and 61, which no minute has in the end. -/
def second : Field :=
  firstOf [pair (plain 6 6) (plain 0 1), pair (plain 0 5) digitValue?, single digitValue?]

/-- A field after the values already read. -/
def next (field : Field) (found : List Nat × List Char) : List (List Nat × List Char) :=
  (field found.2).map fun r => (found.1 ++ [r.1], r.2)

/-- The letter between date and time. -/
def letterT (found : List Nat × List Char) : List (List Nat × List Char) :=
  match found.2 with
  | 'T' :: rest => [(found.1, rest)]
  | _ => []

def dateReadings (s : List Char) : List (List Nat × List Char) :=
  (((next year ([], s)).flatMap (next month)).flatMap (next day))

def dateTimeReadings (s : List Char) : List (List Nat × List Char) :=
  ((((dateReadings s).flatMap letterT).flatMap (next hour)).flatMap (next minute)).flatMap
    (next second)

/-- The second with these fields, if there is one. -/
def secondOf? (year month day hour minute second : Nat) : Option Second :=
  match Date.of? year month day with
  | none => none
  | some d =>
    if h : 3600 * hour + 60 * minute + second < secondsPerDay ∧ minute < 60 ∧ second < 60 then
      some (Second.ofDate d _ h.1)
    else none

def readDateTime? (s : List Char) : Option Second :=
  match (dateTimeReadings s).head? with
  | some ([y, mo, d, h, mi, sec], []) => secondOf? y mo d h mi sec
  | _ => none

/-- A date alone stands for its last second. -/
def readDate? (s : List Char) : Option Second :=
  match (dateReadings s).head? with
  | some ([y, mo, d], []) => (Date.of? y mo d).map Second.endOfDate
  | _ => none

/-- The text without white space around it, in upper case and without one final `Z`. -/
def body (s : List Char) : List Char :=
  let t := upper (strip s)
  if t.getLast? = some 'Z' then t.dropLast else t

/-- The second that a compact time stamp spells. -/
def read? (s : List Char) : Option Second :=
  match readDateTime? (body s) with
  | some t => some t
  | none => readDate? (body s)

end Compact

/-- The second that a compact time stamp spells, with or without the final `Z`. -/
def Second.ofCompact? (s : String) : Option Second := Compact.read? s.toList

example : (Second.ofCompact? "20250303T1015").map (·.instant.toCompact) =
    some "20250303T100105Z" := by decide +kernel

example : (Second.ofCompact? " 202511z").map (·.instant.toCompact) =
    some "20250101T235959Z" := by decide +kernel

end Recurrence
