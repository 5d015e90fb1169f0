/-!
# Weekdays

The seven days of the week, numbered from Sunday as 0 to Saturday as 6.  A calendar week starts on
Monday.

* `Weekday.index`, `Weekday.ofIndex?`: the number of a weekday and back
* `Weekday.ofDay`: the weekday of a day number
* `Weekday.sinceMonday`: how far into its calendar week a weekday lies
* `Weekday.code`, `Weekday.name`: the two-letter code and the English name
-/

namespace Recurrence

inductive Weekday where
  | sunday | monday | tuesday | wednesday | thursday | friday | saturday
deriving DecidableEq, Repr

namespace Weekday

/-- The weekdays in the order of their numbers. -/
def all : List Weekday :=
  [sunday, monday, tuesday, wednesday, thursday, friday, saturday]

/-- The weekdays in the order of the calendar week. -/
def week : List Weekday :=
  [monday, tuesday, wednesday, thursday, friday, saturday, sunday]

/-- Sunday is 0 and Saturday is 6. -/
def index : Weekday → Nat
  | sunday => 0
  | monday => 1
  | tuesday => 2
  | wednesday => 3
  | thursday => 4
  | friday => 5
  | saturday => 6

def ofIndex? : Nat → Option Weekday
  | 0 => some sunday
  | 1 => some monday
  | 2 => some tuesday
  | 3 => some wednesday
  | 4 => some thursday
  | 5 => some friday
  | 6 => some saturday
  | _ => none

/-- The weekday so many days after a Monday. -/
def afterMonday (n : Nat) : Weekday :=
  match n % 7 with
  | 0 => monday
  | 1 => tuesday
  | 2 => wednesday
  | 3 => thursday
  | 4 => friday
  | 5 => saturday
  | _ => sunday

/-- The day number 0 is a Monday. -/
def ofDay (n : Nat) : Weekday := afterMonday n

/-- The days from the Monday of the week to the weekday. -/
def sinceMonday : Weekday → Nat
  | monday => 0
  | tuesday => 1
  | wednesday => 2
  | thursday => 3
  | friday => 4
  | saturday => 5
  | sunday => 6

def code : Weekday → String
  | sunday => "SU"
  | monday => "MO"
  | tuesday => "TU"
  | wednesday => "WE"
  | thursday => "TH"
  | friday => "FR"
  | saturday => "SA"

def ofCode? (s : String) : Option Weekday :=
  all.find? (·.code == s)

def name : Weekday → String
  | sunday => "Sunday"
  | monday => "Monday"
  | tuesday => "Tuesday"
  | wednesday => "Wednesday"
  | thursday => "Thursday"
  | friday => "Friday"
  | saturday => "Saturday"

@[simp] theorem ofIndex?_index (w : Weekday) : ofIndex? w.index = some w := by
  cases w <;> rfl

@[simp] theorem ofCode?_code (w : Weekday) : ofCode? w.code = some w := by
  cases w <;> decide

theorem mem_all (w : Weekday) : w ∈ all := by
  cases w <;> decide

theorem sinceMonday_lt (w : Weekday) : w.sinceMonday < 7 := by
  cases w <;> decide

theorem sinceMonday_ofDay (n : Nat) : (ofDay n).sinceMonday = n % 7 := by
  have small : ∀ k, k < 7 → (afterMonday k).sinceMonday = k := by decide
  have h : afterMonday (n % 7) = afterMonday n := by simp only [afterMonday, Nat.mod_mod]
  rw [ofDay, ← h]
  exact small _ (Nat.mod_lt _ (by decide))

end Weekday

end Recurrence
