import Recurrence.Calendar.Instant
import Recurrence.Text.Decimal

/-!
# Writing international time stamps

* `Date.toIso`: `2024-01-03`
* `Stamp.toIso`, `Instant.toIso`: `2024-01-03T09:00:00+00:00`, with six digits of a fraction unless
  it is zero
* `Instant.toZulu`: `2024-01-03T09:00:00.000Z`, with three digits of a fraction unless it needs six
-/

namespace Recurrence

open Text

def Date.isoChars (d : Date) : List Char :=
  padded 4 d.year ++ '-' :: padded 2 d.month ++ '-' :: padded 2 d.day

def Date.toIso (d : Date) : String := String.ofList d.isoChars

/-- Date and time to the second. -/
def Instant.isoSeconds (t : Instant) : List Char :=
  t.date.isoChars ++ 'T' :: padded 2 t.hour ++ ':' :: padded 2 t.minute ++
    ':' :: padded 2 t.secondOfMinute

/-- The fraction of a second, left out if it is zero. -/
def isoFraction (micro : Nat) : List Char :=
  if micro = 0 then [] else '.' :: padded 6 micro

/-- Hours and minutes, and seconds where there are any. -/
def Offset.isoChars (o : Offset) : List Char :=
  let m := o.micros.natAbs
  let micro := m % microsPerSecond
  let second := m / microsPerSecond % 60
  (if o.micros < 0 then '-' else '+') :: padded 2 (m / 3600000000) ++
    ':' :: padded 2 (m / 60000000 % 60) ++
    (if second = 0 ∧ micro = 0 then [] else ':' :: padded 2 second) ++ isoFraction micro

def Stamp.isoChars (s : Stamp) : List Char :=
  s.wall.isoSeconds ++ isoFraction s.wall.microOfSecond ++
    match s.offset with
    | none => []
    | some o => o.isoChars

/-- The stamp, such as `2024-01-03T09:00:00+00:00`. -/
def Stamp.toIso (s : Stamp) : String := String.ofList s.isoChars

/-- The instant with the offset of universal time. -/
def Instant.toIso (t : Instant) : String := (Stamp.ofInstant t).toIso

def Instant.zuluChars (t : Instant) : List Char :=
  let micro := t.microOfSecond
  t.isoSeconds ++ '.' :: (if micro % 1000 = 0 then padded 3 (micro / 1000) else padded 6 micro) ++
    ['Z']

/-- The instant in milliseconds, such as `2024-01-03T09:00:00.000Z`; in microseconds where it has
some. -/
def Instant.toZulu (t : Instant) : String := String.ofList t.zuluChars

end Recurrence
