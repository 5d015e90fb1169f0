import Recurrence.Rule.Basic

/-!
# The days of a period

A rule walks over days, weeks, months or years, from the one that holds the start of the event
onwards, in steps of its interval.  In each such period its pattern chooses some days.

* `nthWeekday`: the day number of the n-th or last of the equal weekdays of a month
* `Pattern.periodDays`: the days that a pattern chooses in its `k`-th period, in ascending order
* `Pattern.periodCount`: how many periods begin before the calendar ends

A week that begins in the calendar may end after it; its last days then have numbers beyond the
calendar.  A month without the chosen day has none.
-/

namespace Recurrence

/-- The day number of the first of a month. -/
def firstOfMonth (year month : Nat) : Nat := daysBeforeYear year + daysBeforeMonth year month

/-- The day number of the first `w` at or after the day `n`. -/
def firstWeekday (n : Nat) (w : Weekday) : Nat := n + (w.sinceMonday + 7 - n % 7) % 7

/-- The day number of one of the equal weekdays of a month. -/
def nthWeekday (year month : Nat) (p : Position) (w : Weekday) : Nat :=
  let first := firstOfMonth year month
  let n := firstWeekday first w
  match p with
  | .first => n
  | .second => n + 7
  | .third => n + 14
  | .fourth => n + 21
  | .last => if n + 28 < first + daysInMonth year month then n + 28 else n + 21

/-- The day of a month with this number, if the month has it. -/
def dayOfMonth (year month day : Nat) : List Nat :=
  if day ≤ daysInMonth year month then [firstOfMonth year month + (day - 1)] else []

namespace Pattern

/-- The days from a Monday to the days chosen in its week. -/
def weekOffsets (days : Option DaySet) (anchorDay : Nat) : List Nat :=
  match days with
  | some s => (Weekday.week.filter (s.days.contains ·)).map Weekday.sinceMonday
  | none => [anchorDay % 7]

/-- The months from the start of the year 0 to a month. -/
def monthIndex (year month : Nat) : Nat := 12 * year + (month - 1)

/-- The days that the pattern chooses in the `k`-th period after that of the anchor. -/
def periodDays (p : Pattern) (interval anchorDay : Nat) (anchor : Date) (k : Nat) : List Nat :=
  match p with
  | daily => [anchorDay + k * interval]
  | weekly days =>
    let monday := anchorDay - anchorDay % 7 + k * interval * 7
    (weekOffsets days anchorDay).map (monday + ·)
  | monthly mode =>
    let i := monthIndex anchor.year anchor.month + k * interval
    let year := i / 12
    let month := i % 12 + 1
    match mode with
    | some (.day d) => dayOfMonth year month d.1
    | some (.nth p w) => [nthWeekday year month p w]
    | none => dayOfMonth year month anchor.day
  | yearly mode =>
    let year := anchor.year + k * interval
    match mode with
    | some (.date m d) => dayOfMonth year m.1 d.1
    | some (.nth p w m) => [nthWeekday year m.1 p w]
    | none => dayOfMonth year anchor.month anchor.day

/-- The number of periods that begin before the calendar ends. -/
def periodCount (p : Pattern) (interval anchorDay : Nat) (anchor : Date) : Nat :=
  match p with
  | daily => (calendarDays - 1 - anchorDay) / interval + 1
  | weekly _ => (calendarDays - 1 - (anchorDay - anchorDay % 7)) / (7 * interval) + 1
  | monthly _ => (monthIndex 9999 12 - monthIndex anchor.year anchor.month) / interval + 1
  | yearly _ => (9999 - anchor.year) / interval + 1

end Pattern

end Recurrence
