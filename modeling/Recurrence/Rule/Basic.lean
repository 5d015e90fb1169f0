import Recurrence.Calendar.Instant

/-!
# Recurrence rules

A rule says how an event repeats: a `Pattern` of days, an interval between the periods that count,
and an `Ending`.  The pattern belongs to one of four frequencies, and only the ways of choosing
days that fit the frequency can be written down.  A pattern that chooses no days takes them from
the start of the event.

* `Position`: which of the equal weekdays of a month is meant
* `DaySet`: a set of weekdays with at least one element
* `Pattern`, `Ending`, `Rule`
* `Frequency`, `Pattern.frequency`: the four kinds of pattern
* `Mode`, `Pattern.mode`, `Pattern.ofMode?`: the choice of days on its own

`Pattern.ofMode?_eq_some_iff` says that a pattern is the same as a frequency and a mode that fits
it.
-/

namespace Recurrence

/-- A count of at least one. -/
abbrev Positive := { n : Nat // 0 < n }

def Positive.one : Positive := ⟨1, Nat.one_pos⟩

/-- Which of the equal weekdays of a month. -/
inductive Position where
  | first | second | third | fourth | last
deriving DecidableEq, Repr

namespace Position

/-- The last one is numbered -1. -/
def number : Position → Int
  | first => 1
  | second => 2
  | third => 3
  | fourth => 4
  | last => -1

def ofNumber? (i : Int) : Option Position :=
  if i = 1 then some first
  else if i = 2 then some second
  else if i = 3 then some third
  else if i = 4 then some fourth
  else if i = -1 then some last
  else none

@[simp] theorem ofNumber?_number (p : Position) : ofNumber? p.number = some p := by
  cases p <;> rfl

end Position

/-- A set of weekdays with at least one element, listed in the order of their numbers. -/
structure DaySet where
  days : List Weekday
  sorted : days.Pairwise (·.index < ·.index)
  nonempty : days ≠ []
deriving DecidableEq

namespace DaySet

theorem pairwise_all : Weekday.all.Pairwise (·.index < ·.index) := by decide

/-- The set of the listed weekdays, unless there are none. -/
def ofList? (l : List Weekday) : Option DaySet :=
  if h : Weekday.all.filter (l.contains ·) = [] then none
  else some ⟨_, pairwise_all.filter _, h⟩

def singleton (w : Weekday) : DaySet := ⟨[w], List.pairwise_singleton _ _, by simp⟩

end DaySet

/-- The days of a month that a monthly rule chooses. -/
inductive MonthlyMode where
  | day (d : MonthDay)
  | nth (position : Position) (weekday : Weekday)
deriving DecidableEq

/-- The days of a year that a yearly rule chooses. -/
inductive YearlyMode where
  | date (month : Month) (d : MonthDay)
  | nth (position : Position) (weekday : Weekday) (month : Month)
deriving DecidableEq

/-- How often, and on which days of the period.  Where no days are given they are those of the start
of the event: its weekday, its day of the month, or its month and day. -/
inductive Pattern where
  | daily
  | weekly (days : Option DaySet)
  | monthly (mode : Option MonthlyMode)
  | yearly (mode : Option YearlyMode)
deriving DecidableEq

/-- When the repetition stops: never, after so many occurrences counted from the start of the event,
or with the last occurrence that starts no later than in a given second. -/
inductive Ending where
  | never
  | after (count : Positive)
  | on (last : Second)
deriving DecidableEq

/-- A recurrence rule; `interval` is the distance between two periods that count. -/
structure Rule where
  pattern : Pattern
  interval : Positive
  ending : Ending
deriving DecidableEq

/-- The rule with another ending. -/
def Rule.withEnding (r : Rule) (e : Ending) : Rule := { r with ending := e }

theorem Rule.withEnding_of_ending {r : Rule} {e : Ending} (h : r.ending = e) :
    r.withEnding e = r := by
  rw [← h]
  rfl

/-! ## Frequencies and modes -/

inductive Frequency where
  | daily | weekly | monthly | yearly
deriving DecidableEq, Repr

namespace Frequency

def all : List Frequency := [daily, weekly, monthly, yearly]

def name : Frequency → String
  | daily => "DAILY"
  | weekly => "WEEKLY"
  | monthly => "MONTHLY"
  | yearly => "YEARLY"

def ofName? (s : String) : Option Frequency := all.find? (·.name == s)

@[simp] theorem ofName?_name (f : Frequency) : ofName? f.name = some f := by
  cases f <;> decide

end Frequency

/-- A choice of days, without the frequency that it is for. -/
inductive Mode where
  | weeklyDays (days : DaySet)
  | monthlyDay (d : MonthDay)
  | monthlyNth (position : Position) (weekday : Weekday)
  | yearlyDate (month : Month) (d : MonthDay)
  | yearlyNth (position : Position) (weekday : Weekday) (month : Month)
deriving DecidableEq

namespace Pattern

def frequency : Pattern → Frequency
  | daily => .daily
  | weekly _ => .weekly
  | monthly _ => .monthly
  | yearly _ => .yearly

/-- The days that the pattern chooses. -/
def mode : Pattern → Option Mode
  | weekly (some days) => some (.weeklyDays days)
  | monthly (some (.day d)) => some (.monthlyDay d)
  | monthly (some (.nth p w)) => some (.monthlyNth p w)
  | yearly (some (.date m d)) => some (.yearlyDate m d)
  | yearly (some (.nth p w m)) => some (.yearlyNth p w m)
  | _ => none

/-- The pattern of a frequency that takes its days from the start of the event. -/
def plain : Frequency → Pattern
  | .daily => daily
  | .weekly => weekly none
  | .monthly => monthly none
  | .yearly => yearly none

/-- The pattern with a frequency and a mode, if the two fit. -/
def ofMode? : Frequency → Option Mode → Option Pattern
  | f, none => some (plain f)
  | .weekly, some (.weeklyDays days) => some (weekly (some days))
  | .monthly, some (.monthlyDay d) => some (monthly (some (.day d)))
  | .monthly, some (.monthlyNth p w) => some (monthly (some (.nth p w)))
  | .yearly, some (.yearlyDate m d) => some (yearly (some (.date m d)))
  | .yearly, some (.yearlyNth p w m) => some (yearly (some (.nth p w m)))
  | _, some _ => none

theorem ofMode?_frequency_mode (p : Pattern) : ofMode? p.frequency p.mode = some p := by
  rcases p with _ | (_ | _) | (_ | (_ | _)) | (_ | (_ | _)) <;> rfl

theorem ofMode?_eq_some_iff {f : Frequency} {m : Option Mode} {p : Pattern} :
    ofMode? f m = some p ↔ p.frequency = f ∧ p.mode = m := by
  constructor
  · intro h
    rcases f <;> rcases m with _ | (_ | _ | _ | _ | _) <;> simp [ofMode?, plain] at h <;>
      subst h <;> exact ⟨rfl, rfl⟩
  · rintro ⟨rfl, rfl⟩
    exact ofMode?_frequency_mode p

end Pattern

/-! ## Single parts -/

namespace Rule

/-- The weekdays of a weekly rule that names some. -/
def daysOfWeek (r : Rule) : List Weekday :=
  match r.pattern with
  | .weekly (some s) => s.days
  | _ => []

/-- The day of the month of a monthly rule. -/
def dayOfMonth (r : Rule) : Option MonthDay :=
  match r.pattern with
  | .monthly (some (.day d)) => some d
  | _ => none

/-- The month of a yearly rule. -/
def month (r : Rule) : Option Month :=
  match r.pattern with
  | .yearly (some (.date m _)) | .yearly (some (.nth _ _ m)) => some m
  | _ => none

/-- The day of the month of a yearly rule. -/
def yearDayOfMonth (r : Rule) : Option MonthDay :=
  match r.pattern with
  | .yearly (some (.date _ d)) => some d
  | _ => none

/-- The mode of a monthly rule that counts weekdays. -/
def monthlySetPosition (r : Rule) : Option Mode :=
  match r.pattern with
  | .monthly (some (.nth p w)) => some (.monthlyNth p w)
  | _ => none

/-- The mode of a yearly rule that counts weekdays. -/
def yearNthWeekday (r : Rule) : Option Mode :=
  match r.pattern with
  | .yearly (some (.nth p w m)) => some (.yearlyNth p w m)
  | _ => none

/-- The day with which the rule ends. -/
def untilDate (r : Rule) : Option Date :=
  match r.ending with
  | .on t => some t.instant.date
  | _ => none

end Rule

end Recurrence
