import Recurrence.Calendar.Date
import Recurrence.Calendar.Weekday

/-!
# Instants and time stamps

An `Instant` is a point of universal time in the years 1 to 9999, to the microsecond: the count of
microseconds since the start of the year 1.  A `Second` is an instant on a whole second.  A
`Stamp` is what a clock on some wall shows, with or without its distance from universal time; one
without is read as universal time.  A `Moment` is a whole calendar day or a stamp.

* `Instant.ofDay`, `Instant.day`, `Instant.timeOfDay`: an instant as a day and a time of day
* `Instant.shift?`: the instant so many microseconds later or earlier, if there is one
* `Stamp.utc`: the instant of a stamp, which fails outside the years 1 to 9999
* `Moment.opening`, `Moment.closing`: the first and the last instant that a moment covers
-/

namespace Recurrence

/-- Why a time could not be had. -/
inductive TimeError where
  /-- the text does not spell a time -/
  | malformed
  /-- the time lies outside the years 1 to 9999 -/
  | outOfRange
deriving DecidableEq, Repr

def microsPerSecond : Nat := 1000000

def secondsPerDay : Nat := 86400

def microsPerDay : Nat := 86400000000

/-- A point of universal time: `micros` microseconds after the start of the year 1. -/
@[ext] structure Instant where
  micros : Nat
  micros_lt : micros < calendarDays * microsPerDay
deriving DecidableEq

/-- A whole second of universal time, counted from the start of the year 1. -/
@[ext] structure Second where
  index : Nat
  index_lt : index < calendarDays * secondsPerDay
deriving DecidableEq

namespace Instant

instance : LT Instant := ⟨fun a b => a.micros < b.micros⟩

instance : LE Instant := ⟨fun a b => a.micros ≤ b.micros⟩

instance (a b : Instant) : Decidable (a < b) :=
  inferInstanceAs (Decidable (a.micros < b.micros))

instance (a b : Instant) : Decidable (a ≤ b) :=
  inferInstanceAs (Decidable (a.micros ≤ b.micros))

/-- The instant with this count of microseconds, if it lies in the years 1 to 9999. -/
def ofMicros? (n : Int) : Option Instant :=
  if h : 0 ≤ n ∧ n.toNat < calendarDays * microsPerDay then some ⟨n.toNat, h.2⟩ else none

/-- The instant `delta` microseconds after `t`, if it lies in the years 1 to 9999. -/
def shift? (t : Instant) (delta : Int) : Option Instant :=
  ofMicros? (t.micros + delta)

/-- The number of the day that holds the instant. -/
def day (t : Instant) : Nat := t.micros / microsPerDay

/-- The microseconds since the start of the instant's day. -/
def timeOfDay (t : Instant) : Nat := t.micros % microsPerDay

theorem day_lt (t : Instant) : t.day < calendarDays :=
  Nat.div_lt_of_lt_mul (by rw [Nat.mul_comm]; exact t.micros_lt)

theorem timeOfDay_lt (t : Instant) : t.timeOfDay < microsPerDay :=
  Nat.mod_lt _ (by decide)

theorem day_mul_add_timeOfDay (t : Instant) : t.day * microsPerDay + t.timeOfDay = t.micros := by
  rw [day, timeOfDay, Nat.mul_comm]
  exact Nat.div_add_mod _ _

def date (t : Instant) : Date := Date.ofDay t.day t.day_lt

def weekday (t : Instant) : Weekday := Weekday.ofDay t.day

def hour (t : Instant) : Nat := t.timeOfDay / 3600000000

def minute (t : Instant) : Nat := t.timeOfDay / 60000000 % 60

def secondOfMinute (t : Instant) : Nat := t.timeOfDay / microsPerSecond % 60

def microOfSecond (t : Instant) : Nat := t.micros % microsPerSecond

/-- The instant at `time` microseconds into the day numbered `n`. -/
def ofDay (n time : Nat) (hn : n < calendarDays) (ht : time < microsPerDay) : Instant where
  micros := n * microsPerDay + time
  micros_lt := by
    have : n * microsPerDay + microsPerDay ≤ calendarDays * microsPerDay := by
      rw [← Nat.succ_mul]
      exact Nat.mul_le_mul_right _ hn
    omega

/-- The first instant of a date. -/
def ofDate (d : Date) : Instant := ofDay d.toDay 0 d.toDay_lt (by decide)

/-- The second that holds the instant. -/
def second (t : Instant) : Second where
  index := t.micros / microsPerSecond
  index_lt := by
    apply Nat.div_lt_of_lt_mul
    have := t.micros_lt
    simp only [calendarDays, microsPerDay, secondsPerDay, microsPerSecond] at *
    omega

/-- The instant without its part of a second. -/
def truncate (t : Instant) : Instant where
  micros := t.micros - t.microOfSecond
  micros_lt := Nat.lt_of_le_of_lt (Nat.sub_le _ _) t.micros_lt

end Instant

namespace Second

/-- The first instant of the second. -/
def instant (s : Second) : Instant where
  micros := s.index * microsPerSecond
  micros_lt := by
    have := s.index_lt
    simp only [calendarDays, microsPerDay, secondsPerDay, microsPerSecond] at *
    omega

/-- The second at `time` seconds into a date. -/
def ofDate (d : Date) (time : Nat) (ht : time < secondsPerDay) : Second where
  index := d.toDay * secondsPerDay + time
  index_lt := by
    have := d.toDay_lt
    simp only [calendarDays, secondsPerDay] at *
    omega

/-- The last second of a date. -/
def endOfDate (d : Date) : Second := ofDate d 86399 (by decide)

@[simp] theorem second_instant (s : Second) : s.instant.second = s := by
  cases s
  simp [instant, Instant.second, microsPerSecond]

end Second

/-! ## Stamps and moments -/

/-- A distance from universal time, shorter than a day, in microseconds; east is positive. -/
structure Offset where
  micros : Int
  lower : -86400000000 < micros
  upper : micros < 86400000000
deriving DecidableEq

/-- The reading of a clock: `wall` is what it shows and `offset` how far it is ahead of universal
time, if that is known. -/
structure Stamp where
  wall : Instant
  offset : Option Offset
deriving DecidableEq

namespace Offset

/-- Universal time itself. -/
def zero : Offset := ⟨0, by decide, by decide⟩

def of? (micros : Int) : Option Offset :=
  if h : -86400000000 < micros ∧ micros < 86400000000 then some ⟨micros, h.1, h.2⟩ else none

end Offset

namespace Stamp

/-- The stamp of an instant on a clock that shows universal time. -/
def ofInstant (t : Instant) : Stamp := ⟨t, some Offset.zero⟩

/-- The universal time of the stamp in microseconds since the start of the year 1, which may lie
outside the calendar. -/
def utcMicros (s : Stamp) : Int :=
  match s.offset with
  | none => s.wall.micros
  | some o => s.wall.micros - o.micros

/-- The instant of the stamp; a clock without an offset shows universal time. -/
def utc (s : Stamp) : Except TimeError Instant :=
  match Instant.ofMicros? s.utcMicros with
  | some t => .ok t
  | none => .error .outOfRange

end Stamp

/-- A calendar day of universal time, or the reading of a clock. -/
inductive Moment where
  | day (d : Date)
  | stamp (s : Stamp)
deriving DecidableEq

namespace Moment

/-- The first instant of the moment. -/
def opening : Moment → Except TimeError Instant
  | day d => .ok (Instant.ofDate d)
  | stamp s => s.utc

/-- The last instant of the moment: for a day, the last microsecond before midnight. -/
def closing : Moment → Except TimeError Instant
  | day d => .ok (Instant.ofDay d.toDay 86399999999 d.toDay_lt (by decide))
  | stamp s => s.utc

end Moment

end Recurrence
