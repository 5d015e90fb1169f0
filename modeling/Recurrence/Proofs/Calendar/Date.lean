import Recurrence.Calendar.Instant
import Recurrence.Expansion.Period

/-!
# Dates and day numbers name the same days

`Date.toDay` and `Date.ofDay` undo each other (`Date.ofDay_toDay` beside `Date.toDay_ofDay`), so a
day that lies `j` days after the first of a month, and before the next, has that month in its date
(`Date.ofDay_firstOfMonth`).  Months follow each other without a gap: `firstOfIndex_succ` for one
step and `firstOfIndex_mono` for any number of them.
-/

namespace Recurrence

theorem daysInMonth_ge (year month : Nat) : 28 ≤ daysInMonth year month := by
  unfold daysInMonth
  split <;> (try split) <;> omega

theorem calendarDays_eq : calendarDays = daysBeforeYear (9999 + 1) := by decide

/-- The whole of a month lies within its year. -/
theorem firstOfMonth_add_daysInMonth_le {year month : Nat} (hy : 1 ≤ year)
    (hm : 1 ≤ month ∧ month ≤ 12) :
    firstOfMonth year month + daysInMonth year month ≤ daysBeforeYear (year + 1) := by
  have hnext := daysBeforeMonth_succ year hm.1
  have hmono := daysBeforeMonth_mono year (Nat.add_le_add_right hm.2 1)
  rw [show 12 + 1 = 13 from rfl, daysBeforeMonth_thirteen] at hmono
  rw [daysBeforeYear_succ hy]
  unfold firstOfMonth
  omega

/-! ## A day number has one date -/

namespace Date

theorem toDay_lt_daysBeforeYear_succ (d : Date) : d.toDay < daysBeforeYear (d.year + 1) := by
  have hmonth := firstOfMonth_add_daysInMonth_le d.year_pos ⟨d.month_pos, d.month_le⟩
  have hday : d.toDay = firstOfMonth d.year d.month + (d.day - 1) := rfl
  have hpos := d.day_pos
  have hle := d.day_le
  omega

theorem daysBeforeYear_le_toDay (d : Date) : daysBeforeYear d.year ≤ d.toDay := by
  unfold toDay
  omega

theorem year_le_of_toDay_le {d e : Date} (h : d.toDay ≤ e.toDay) : d.year ≤ e.year := by
  apply Nat.le_of_not_lt
  intro hlt
  have hmono : daysBeforeYear (e.year + 1) ≤ daysBeforeYear d.year := daysBeforeYear_mono hlt
  have hd := d.daysBeforeYear_le_toDay
  have he := e.toDay_lt_daysBeforeYear_succ
  omega

theorem month_le_of_toDay_le {d e : Date} (hy : d.year = e.year) (h : d.toDay ≤ e.toDay) :
    d.month ≤ e.month := by
  apply Nat.le_of_not_lt
  intro hlt
  have hmono : daysBeforeMonth e.year (e.month + 1) ≤ daysBeforeMonth e.year d.month :=
    daysBeforeMonth_mono e.year hlt
  rw [daysBeforeMonth_succ _ e.month_pos] at hmono
  have hpos := e.day_pos
  have hle := e.day_le
  unfold toDay at h
  rw [hy] at h
  omega

theorem eq_of_fields {d e : Date} (hyear : d.year = e.year) (hmonth : d.month = e.month)
    (hday : d.day = e.day) : d = e := by
  cases d
  cases e
  subst hyear hmonth hday
  rfl

theorem toDay_injective {d e : Date} (h : d.toDay = e.toDay) : d = e := by
  have hy : d.year = e.year :=
    Nat.le_antisymm (year_le_of_toDay_le (Nat.le_of_eq h)) (year_le_of_toDay_le (Nat.le_of_eq h.symm))
  have hm : d.month = e.month :=
    Nat.le_antisymm (month_le_of_toDay_le hy (Nat.le_of_eq h))
      (month_le_of_toDay_le hy.symm (Nat.le_of_eq h.symm))
  have hd : d.day = e.day := by
    have hd₁ := d.day_pos
    have hd₂ := e.day_pos
    unfold toDay at h
    rw [hy, hm] at h
    omega
  exact eq_of_fields hy hm hd

/-- **The date of a date's day number is the date.** -/
theorem ofDay_toDay (d : Date) : ofDay d.toDay d.toDay_lt = d :=
  toDay_injective (toDay_ofDay d.toDay_lt)

/-- A day of a month, counted from its first, has that month in its date. -/
theorem ofDay_firstOfMonth {n year month j : Nat} (h : n < calendarDays) (hy : 1 ≤ year)
    (hm : 1 ≤ month ∧ month ≤ 12) (hj : j < daysInMonth year month)
    (hn : n = firstOfMonth year month + j) :
    (ofDay n h).year = year ∧ (ofDay n h).month = month ∧ (ofDay n h).day = j + 1 := by
  have hle : year ≤ 9999 := by
    apply Nat.le_of_not_lt
    intro hlt
    have hmono : daysBeforeYear (9999 + 1) ≤ daysBeforeYear year := daysBeforeYear_mono hlt
    rw [calendarDays_eq] at h
    unfold firstOfMonth at hn
    omega
  let d : Date := ⟨year, month, j + 1, hy, hle, hm.1, hm.2, by omega, by omega⟩
  have hd : d.toDay = n := hn.symm
  have he : ofDay n h = d := toDay_injective ((toDay_ofDay h).trans hd.symm)
  rw [he]
  exact ⟨rfl, rfl, rfl⟩

end Date

/-! ## Months in a row -/

/-- The day number of the first of the month with an index; the year 0 begins with index 0. -/
def firstOfIndex (i : Nat) : Nat := firstOfMonth (i / 12) (i % 12 + 1)

theorem firstOfIndex_succ {i : Nat} (hi : 12 ≤ i) :
    firstOfIndex (i + 1) = firstOfIndex i + daysInMonth (i / 12) (i % 12 + 1) := by
  unfold firstOfIndex firstOfMonth
  have hmonth := daysBeforeMonth_succ (i / 12) (Nat.le_add_left 1 (i % 12))
  by_cases hlast : i % 12 = 11
  · have hdiv : (i + 1) / 12 = i / 12 + 1 := by omega
    have hmod : (i + 1) % 12 = 0 := by omega
    have hyear := daysBeforeYear_succ (show 1 ≤ i / 12 by omega)
    have hjanuary : daysBeforeMonth (i / 12 + 1) (0 + 1) = 0 := rfl
    rw [hlast, show 11 + 1 + 1 = 13 from rfl, daysBeforeMonth_thirteen] at hmonth
    rw [hdiv, hmod, hlast, hyear, hjanuary]
    omega
  · have hdiv : (i + 1) / 12 = i / 12 := by omega
    have hmod : (i + 1) % 12 = i % 12 + 1 := by omega
    rw [hdiv, hmod]
    omega

theorem firstOfIndex_mono {i j : Nat} (hi : 12 ≤ i) (h : i ≤ j) :
    firstOfIndex i ≤ firstOfIndex j := by
  induction h with
  | refl => exact Nat.le_refl _
  | @step m h ih =>
    have hm : 12 ≤ m := Nat.le_trans hi h
    rw [Nat.succ_eq_add_one, firstOfIndex_succ hm]
    omega

/-- The whole of a month comes before every later month. -/
theorem firstOfIndex_add_daysInMonth_le {i j : Nat} (hi : 12 ≤ i) (h : i < j) :
    firstOfIndex i + daysInMonth (i / 12) (i % 12 + 1) ≤ firstOfIndex j := by
  rw [← firstOfIndex_succ hi]
  exact firstOfIndex_mono (by omega) h

end Recurrence
