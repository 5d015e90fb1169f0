/-!
# Calendar dates and day numbers

The Gregorian calendar, extended back to the year 1 and cut off after the year 9999.  A day is
named in two ways: by a `Date` (year, month and day of the month) and by a day number, the count
of days since 0001-01-01.  Arithmetic is done on day numbers; months and years are read off the
date.

* `isLeap`, `daysInMonth`, `daysInYear`: the lengths of months and years
* `leapDaysBefore`, `daysBeforeYear`, `daysBeforeMonth`: the leap days of the first years, the days
  before a year, and the days before a month in it
* `Month`, `MonthDay`: a month number and a day-of-month number
* `Date`: an existing day of the years 1 to 9999
* `Date.toDay`, `Date.ofDay`: a date's day number and back

`mem_yearOfDay` and `mem_monthDay` say that the year and the month found for a day number are the
ones whose days contain it.
-/

namespace Recurrence

/-! ## Lengths of months and years -/

/-- Every fourth year is a leap year, save the centuries that 400 does not divide. -/
def isLeap (year : Nat) : Bool :=
  year % 4 == 0 && (year % 100 != 0 || year % 400 == 0)

def daysInMonth (year month : Nat) : Nat :=
  match month with
  | 2 => if isLeap year then 29 else 28
  | 4 | 6 | 9 | 11 => 30
  | _ => 31

def daysInYear (year : Nat) : Nat :=
  if isLeap year then 366 else 365

/-- The leap days of the years 1 to `k`. -/
def leapDaysBefore (k : Nat) : Nat :=
  k / 4 - k / 100 + k / 400

/-- The days from 0001-01-01 to the first of January of `year`. -/
def daysBeforeYear (year : Nat) : Nat :=
  365 * (year - 1) + leapDaysBefore (year - 1)

/-- The days from the first of January to the first of `month`, in `year`. -/
def daysBeforeMonth (year : Nat) : Nat → Nat
  | 0 | 1 => 0
  | month + 2 => daysBeforeMonth year (month + 1) + daysInMonth year (month + 1)

/-- The number of days in the years 1 to 9999. -/
def calendarDays : Nat := 3652059

theorem daysInMonth_pos (year month : Nat) : 0 < daysInMonth year month := by
  unfold daysInMonth
  split <;> (try split) <;> omega

theorem daysInMonth_le (year month : Nat) : daysInMonth year month ≤ 31 := by
  unfold daysInMonth
  split <;> (try split) <;> omega

theorem leapDaysBefore_succ (k : Nat) :
    leapDaysBefore (k + 1) = leapDaysBefore k + if isLeap (k + 1) then 1 else 0 := by
  have h4 : (k + 1) / 4 = k / 4 + if (k + 1) % 4 = 0 then 1 else 0 := by split <;> omega
  have h100 : (k + 1) / 100 = k / 100 + if (k + 1) % 100 = 0 then 1 else 0 := by split <;> omega
  have h400 : (k + 1) / 400 = k / 400 + if (k + 1) % 400 = 0 then 1 else 0 := by split <;> omega
  have hle : k / 100 ≤ k / 4 := Nat.div_le_div_left (by decide) (by decide)
  by_cases h : (k + 1) % 4 = 0
  · by_cases h' : (k + 1) % 100 = 0
    · by_cases h'' : (k + 1) % 400 = 0 <;>
        simp only [leapDaysBefore, isLeap, h4, h100, h400, h, h', h''] <;> simp <;> omega
    · have h'' : (k + 1) % 400 ≠ 0 := by omega
      simp only [leapDaysBefore, isLeap, h4, h100, h400, h, h', h'']
      simp [h']
      omega
  · have h' : (k + 1) % 100 ≠ 0 := by omega
    have h'' : (k + 1) % 400 ≠ 0 := by omega
    simp only [leapDaysBefore, isLeap, h4, h100, h400, h, h', h'']
    simp [h]

theorem daysBeforeYear_succ {year : Nat} (h : 1 ≤ year) :
    daysBeforeYear (year + 1) = daysBeforeYear year + daysInYear year := by
  obtain ⟨k, rfl⟩ := Nat.exists_eq_add_of_le' h
  have := leapDaysBefore_succ k
  simp only [daysBeforeYear, daysInYear, Nat.add_sub_cancel]
  split at this <;> simp_all <;> omega

theorem daysBeforeMonth_succ (year : Nat) {month : Nat} (h : 1 ≤ month) :
    daysBeforeMonth year (month + 1) = daysBeforeMonth year month + daysInMonth year month := by
  match month, h with
  | m + 1, _ => rfl

theorem daysBeforeMonth_thirteen (year : Nat) : daysBeforeMonth year 13 = daysInYear year := by
  simp only [daysBeforeMonth, daysInMonth, daysInYear]
  split <;> rfl

theorem daysBeforeYear_mono {a b : Nat} (h : a ≤ b) : daysBeforeYear a ≤ daysBeforeYear b := by
  induction h with
  | refl => exact Nat.le_refl _
  | @step m _ ih =>
    match m with
    | 0 => exact ih
    | m + 1 =>
      rw [Nat.succ_eq_add_one, daysBeforeYear_succ (Nat.le_add_left 1 m)]
      exact Nat.le_trans ih (Nat.le_add_right _ _)

theorem daysBeforeMonth_mono (year : Nat) {a b : Nat} (h : a ≤ b) :
    daysBeforeMonth year a ≤ daysBeforeMonth year b := by
  induction h with
  | refl => exact Nat.le_refl _
  | @step m _ ih =>
    match m with
    | 0 => exact ih
    | m + 1 => exact Nat.le_trans ih (Nat.le_add_right _ _)

/-! ## Months, days of the month and dates -/

/-- A month, 1 for January to 12 for December. -/
abbrev Month := { m : Nat // 1 ≤ m ∧ m ≤ 12 }

/-- A day of the month, 1 to 31; whether a month has it is another matter. -/
abbrev MonthDay := { d : Nat // 1 ≤ d ∧ d ≤ 31 }

/-- A day of the years 1 to 9999. -/
structure Date where
  year : Nat
  month : Nat
  day : Nat
  year_pos : 1 ≤ year
  year_le : year ≤ 9999
  month_pos : 1 ≤ month
  month_le : month ≤ 12
  day_pos : 1 ≤ day
  day_le : day ≤ daysInMonth year month
deriving DecidableEq

namespace Date

/-- The date with these fields, if the calendar has it. -/
def of? (year month day : Nat) : Option Date :=
  if h : (1 ≤ year ∧ year ≤ 9999) ∧ (1 ≤ month ∧ month ≤ 12) ∧
      1 ≤ day ∧ day ≤ daysInMonth year month then
    some ⟨year, month, day, h.1.1, h.1.2, h.2.1.1, h.2.1.2, h.2.2.1, h.2.2.2⟩
  else none

/-- The days that lie between 0001-01-01 and the date. -/
def toDay (d : Date) : Nat :=
  daysBeforeYear d.year + daysBeforeMonth d.year d.month + (d.day - 1)

theorem toDay_lt (d : Date) : d.toDay < calendarDays := by
  have h1 := daysBeforeMonth_succ d.year d.month_pos
  have h2 := daysBeforeMonth_mono d.year (Nat.add_le_add_right d.month_le 1)
  have h3 := daysBeforeMonth_thirteen d.year
  have h4 := daysBeforeYear_succ d.year_pos
  have h5 := daysBeforeYear_mono (Nat.add_le_add_right d.year_le 1)
  have h6 : daysBeforeYear (9999 + 1) = calendarDays := by decide
  have h7 := d.day_pos
  have h8 := d.day_le
  have h9 : (12 : Nat) + 1 = 13 := rfl
  rw [h9, h3] at h2
  rw [h6] at h5
  unfold toDay
  omega

end Date

/-! ## From a day number to its date -/

/-- The year that holds a day number: the mean length of a year gives it up to one. -/
def yearOfDay (n : Nat) : Nat :=
  let k := n * 400 / 146097
  if daysBeforeYear (k + 2) ≤ n then k + 2
  else if daysBeforeYear (k + 1) ≤ n then k + 1
  else k

/-- Walks from `month` over at most `left` further months to the one that holds the day which is
`n` days after the first of `month`, and gives that month and the day in it. -/
def monthDay (year : Nat) : (left month n : Nat) → Nat × Nat
  | 0, month, n => (month, n + 1)
  | left + 1, month, n =>
    if n < daysInMonth year month then (month, n + 1)
    else monthDay year left (month + 1) (n - daysInMonth year month)

theorem leapDaysBefore_bounds (k : Nat) :
    97 * k ≤ 400 * leapDaysBefore k + 597 ∧ 400 * leapDaysBefore k ≤ 97 * k + 297 := by
  have h1 : k / 4 / 25 = k / 100 := Nat.div_div_eq_div_mul k 4 25
  have h2 : k / 100 / 4 = k / 400 := Nat.div_div_eq_div_mul k 100 4
  unfold leapDaysBefore
  rw [← h2, ← h1]
  omega

theorem mem_yearOfDay (n : Nat) :
    1 ≤ yearOfDay n ∧ daysBeforeYear (yearOfDay n) ≤ n ∧ n < daysBeforeYear (yearOfDay n + 1) := by
  unfold yearOfDay
  have hk : n * 400 / 146097 * 146097 ≤ n * 400 := Nat.div_mul_le_self _ _
  have hk' : n * 400 < (n * 400 / 146097 + 1) * 146097 := by omega
  generalize n * 400 / 146097 = k at hk hk'
  have h0 := leapDaysBefore_bounds (k - 1)
  have h2 := leapDaysBefore_bounds (k + 2)
  simp only
  split
  · rename_i h
    refine ⟨by omega, h, ?_⟩
    simp only [daysBeforeYear] at *
    simp only [Nat.add_sub_cancel] at *
    omega
  · rename_i h
    split
    · rename_i h'
      exact ⟨by omega, h', Nat.lt_of_not_le h⟩
    · rename_i h'
      refine ⟨?_, ?_, Nat.lt_of_not_le h'⟩
      · apply Nat.pos_of_ne_zero
        rintro rfl
        simp [daysBeforeYear, leapDaysBefore] at h'
      · simp only [daysBeforeYear] at *
        omega

theorem yearOfDay_le {n : Nat} (h : n < calendarDays) : yearOfDay n ≤ 9999 := by
  have hn := (mem_yearOfDay n).2.1
  apply Nat.le_of_lt_succ
  apply Nat.lt_of_not_le
  intro hy
  have h6 : daysBeforeYear 10000 = calendarDays := by decide
  have h5 : daysBeforeYear 10000 ≤ daysBeforeYear (yearOfDay n) := daysBeforeYear_mono hy
  omega

theorem mem_monthDay {year : Nat} (left : Nat) {month n : Nat} (hm : 1 ≤ month)
    (hn : daysBeforeMonth year month + n < daysBeforeMonth year (month + left + 1)) :
    month ≤ (monthDay year left month n).1 ∧ (monthDay year left month n).1 ≤ month + left ∧
      1 ≤ (monthDay year left month n).2 ∧
      (monthDay year left month n).2 ≤ daysInMonth year (monthDay year left month n).1 ∧
      daysBeforeMonth year (monthDay year left month n).1 + (monthDay year left month n).2 =
        daysBeforeMonth year month + n + 1 := by
  induction left generalizing month n with
  | zero =>
    have := daysBeforeMonth_succ year hm
    simp only [monthDay]
    refine ⟨?_, ?_, ?_, ?_, ?_⟩ <;> simp_all <;> omega
  | succ left ih =>
    have hs := daysBeforeMonth_succ year hm
    simp only [monthDay]
    by_cases h : n < daysInMonth year month
    · rw [if_pos h]
      simp only
      omega
    · rw [if_neg h]
      have he : month + (left + 1) + 1 = month + 1 + left + 1 := by omega
      rw [he] at hn
      have := @ih (month + 1) (n - daysInMonth year month) (by omega) (by omega)
      omega

theorem mem_monthDay_dayOfYear (n : Nat) :
    let md := monthDay (yearOfDay n) 11 1 (n - daysBeforeYear (yearOfDay n))
    1 ≤ md.1 ∧ md.1 ≤ 12 ∧ 1 ≤ md.2 ∧ md.2 ≤ daysInMonth (yearOfDay n) md.1 ∧
      daysBeforeMonth (yearOfDay n) md.1 + md.2 = n - daysBeforeYear (yearOfDay n) + 1 := by
  have hy := mem_yearOfDay n
  have h1 := daysBeforeYear_succ hy.1
  have h2 := daysBeforeMonth_thirteen (yearOfDay n)
  have h3 : daysBeforeMonth (yearOfDay n) 1 = 0 := rfl
  have hd : daysBeforeMonth (yearOfDay n) 1 + (n - daysBeforeYear (yearOfDay n)) <
      daysBeforeMonth (yearOfDay n) 13 := by omega
  have hmd := mem_monthDay 11 (Nat.le_refl 1) hd
  rw [h3, Nat.zero_add] at hmd
  exact hmd

namespace Date

/-- The date of a day number. -/
def ofDay (n : Nat) (h : n < calendarDays) : Date :=
  let year := yearOfDay n
  let md := Recurrence.monthDay year 11 1 (n - daysBeforeYear year)
  have hmd := mem_monthDay_dayOfYear n
  { year, month := md.1, day := md.2
    year_pos := (mem_yearOfDay n).1
    year_le := yearOfDay_le h
    month_pos := hmd.1
    month_le := hmd.2.1
    day_pos := hmd.2.2.1
    day_le := hmd.2.2.2.1 }

theorem toDay_ofDay {n : Nat} (h : n < calendarDays) : (ofDay n h).toDay = n := by
  have hy := mem_yearOfDay n
  have hmd := mem_monthDay_dayOfYear n
  simp only at hmd
  simp only [toDay, ofDay]
  omega

/-- The day of the month as one of the numbers 1 to 31. -/
def monthDay (d : Date) : MonthDay :=
  ⟨d.day, d.day_pos, Nat.le_trans d.day_le (daysInMonth_le _ _)⟩

/-- The month as one of the numbers 1 to 12. -/
def monthNumber (d : Date) : Month :=
  ⟨d.month, d.month_pos, d.month_le⟩

end Date

end Recurrence
