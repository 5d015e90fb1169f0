import Mathlib.Control.Monad.Basic
import Recurrence.Proofs.Calendar.Weekday
import Recurrence.Proofs.Expansion.Ending

/-!
# Monthly rules by the calendar

A monthly rule without an end starts in every so-manieth month, at the anchor's time of day, on the
day that it chooses there (`Instant.IsMonthlyStart`).  A month that does not have the day is passed
over, and one of the equal weekdays is found by counting over the whole month, also where part of it
lies before the anchor.

Every month of such a rule lies in the calendar, so the starts can be had in any window that can be
shifted by the anchor's part of a second, even if no month has the day (`Rule.monthly_starts`).
-/

namespace Recurrence

open Pattern

namespace Instant

/-- The months from the start of the year 0 to the month of the instant. -/
def month (t : Instant) : Nat := monthIndex t.date.year t.date.month

/-- Whether an instant lies on the day of its month that a monthly rule chooses; where none is given it
is the anchor's. -/
def IsMonthDay (anchor : Instant) (mode : Option MonthlyMode) (t : Instant) : Prop :=
  match mode with
  | some (.day d) => t.date.day = d.1
  | some (.nth p w) => t.date.IsNth p w
  | none => t.date.day = anchor.date.day

/-- What the calendar says about a start of a monthly rule. -/
structure IsMonthlyStart (anchor : Instant) (mode : Option MonthlyMode) (interval : Positive)
    (t : Instant) : Prop where
  notBefore : anchor ≤ t
  sameTime : t.timeOfDay = anchor.timeOfDay
  inMonth : ∃ k, t.month = anchor.month + k * interval.1
  onDay : anchor.IsMonthDay mode t

theorem month_eq_iff {t : Instant} {i : Nat} :
    t.month = i ↔ t.date.year = i / 12 ∧ t.date.month = i % 12 + 1 := by
  have hpos := t.date.month_pos
  have hle := t.date.month_le
  unfold month monthIndex
  omega

theorem month_le (t : Instant) : t.month ≤ monthIndex 9999 12 := by
  have hyear := t.date.year_le
  have hmonth := t.date.month_le
  unfold month monthIndex
  omega

/-- A day of the calendar is chosen in the `k`-th period if it lies in the month of that period. -/
theorem day_mem_periodDays_monthly (anchor t : Instant) (mode : Option MonthlyMode) (interval k : Nat) :
    t.day ∈ (monthly mode).periodDays interval anchor.day anchor.date k ↔
      t.month = anchor.month + k * interval ∧ anchor.IsMonthDay mode t := by
  have htwelve : 12 ≤ anchor.month + k * interval := twelve_le_monthIndex anchor.date _
  have hyear : 1 ≤ (anchor.month + k * interval) / 12 := by omega
  have hmonth : 1 ≤ (anchor.month + k * interval) % 12 + 1 ∧
      (anchor.month + k * interval) % 12 + 1 ≤ 12 := by omega
  rw [month_eq_iff, and_assoc]
  rcases mode with _ | ⟨d | ⟨p, w⟩⟩
  · exact day_mem_dayOfMonth_iff hyear hmonth anchor.date.day_pos
  · exact day_mem_dayOfMonth_iff hyear hmonth d.2.1
  · exact List.mem_singleton.trans (day_eq_nthWeekday_iff hyear hmonth)

end Instant

namespace Rule

variable {r : Rule} {mode : Option MonthlyMode}

/-- A day of the calendar is one of a monthly rule if its month counts and it is the day chosen
there. -/
theorem mem_days_monthly (hmonthly : r.pattern = .monthly mode) (anchor t : Instant) :
    t.day ∈ r.days anchor ↔
      (∃ k, t.month = anchor.month + k * r.interval.1) ∧ anchor.IsMonthDay mode t := by
  simp only [mem_days, hmonthly, Instant.day_mem_periodDays_monthly]
  constructor
  · rintro ⟨k, -, hk, hday⟩
    exact ⟨⟨k, hk⟩, hday⟩
  · rintro ⟨⟨k, hk⟩, hday⟩
    have hle := t.month_le
    have hcount := (steps_sub r.interval.2
      (show k * r.interval.1 ≤ monthIndex 9999 12 - anchor.month by omega)).1
    exact ⟨k, hcount, hk, hday⟩

/-- The months of a monthly rule lie in the calendar. -/
theorem days_monthly_lt (hmonthly : r.pattern = .monthly mode) (anchor : Instant) :
    ∀ n ∈ r.days anchor, n < calendarDays := by
  intro n hn
  rw [mem_days, hmonthly] at hn
  obtain ⟨k, hk, hn⟩ := hn
  obtain ⟨j, hj, rfl, -⟩ := mem_periodDays_monthly hn
  have hmul : k * r.interval.1 ≤ monthIndex 9999 12 - anchor.month :=
    (Nat.le_div_iff_mul_le r.interval.2).1 (Nat.lt_succ_iff.1 hk)
  have hle := anchor.month_le
  have hnext : monthIndex 9999 12 + 1 = monthIndex 10000 1 := rfl
  have hend := firstOfIndex_add_daysInMonth_le (twelve_le_monthIndex anchor.date _)
    (show anchor.month + k * r.interval.1 < monthIndex 10000 1 by omega)
  have hcalendar : firstOfIndex (monthIndex 10000 1) = calendarDays := by decide
  omega

/-- **A monthly rule without an end starts when the calendar says so.** -/
theorem monthly_starts (hmonthly : r.pattern = .monthly mode) (hnever : r.ending = .never)
    {anchor lower upper : Instant} {l : List Instant} :
    r.starts anchor (Stamp.ofInstant lower) (Stamp.ofInstant upper) = .ok l ↔
      (anchor.microOfSecond ≤ lower.micros ∧ anchor.microOfSecond ≤ upper.micros) ∧
        l.Pairwise (· < ·) ∧
          ∀ t, t ∈ l ↔ (lower ≤ t ∧ t ≤ upper) ∧ anchor.IsMonthlyStart mode r.interval t := by
  have hstart (t : Instant) : anchor.IsMonthlyStart mode r.interval t ↔
      anchor ≤ t ∧ t.timeOfDay = anchor.timeOfDay ∧
        (∃ k, t.month = anchor.month + k * r.interval.1) ∧ anchor.IsMonthDay mode t :=
    ⟨fun h => ⟨h.notBefore, h.sameTime, h.inMonth, h.onDay⟩,
      fun ⟨hle, htime, hmonth, hday⟩ => ⟨hle, htime, hmonth, hday⟩⟩
  simp only [hstart]
  exact starts_never_iff hnever (days_monthly_lt hmonthly anchor) (mem_days_monthly hmonthly anchor)

/-- The first Monday of every fifth month. -/
def firstMondays : Rule := ⟨.monthly (some (.nth .first .monday)), ⟨5, by decide⟩, .never⟩

/-- 5 November 2024, the day after the first Monday, at 08:00:00.000005. -/
def afterFirstMonday : Instant := Instant.ofDay 739194 28800000005 (by decide) (by decide)

/-- 1 November 2024, at midnight. -/
def novemberOpening : Instant := Instant.ofDate (Date.ofDay 739190 (by decide))

/-- 28 February 2026, at midnight. -/
def februaryClosing : Instant := Instant.ofDate (Date.ofDay 739674 (by decide))

/-- The anchor's own month has no start left, and its second Monday does not stand in. -/
theorem monthly_starts_firstMondays :
    ∃ l, firstMondays.starts afterFirstMonday (Stamp.ofInstant novemberOpening)
        (Stamp.ofInstant februaryClosing) = .ok l ∧
      l.map Instant.day = [739347, 739494, 739648] ∧
      l.Pairwise (· < ·) ∧
      ∀ t, t ∈ l ↔ (novemberOpening ≤ t ∧ t ≤ februaryClosing) ∧
        afterFirstMonday.IsMonthlyStart (some (.nth .first .monday)) firstMondays.interval t := by
  have hok : firstMondays.starts afterFirstMonday (Stamp.ofInstant novemberOpening)
      (Stamp.ofInstant februaryClosing) =
        .ok ([739347, 739494, 739648].filterMap afterFirstMonday.onDay?) := by
    decide +kernel
  exact ⟨_, hok, by decide +kernel, ((monthly_starts rfl rfl).1 hok).2⟩

end Rule

end Recurrence
