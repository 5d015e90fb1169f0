import Mathlib.Control.Monad.Basic
import Recurrence.Proofs.Calendar.Weekday
import Recurrence.Proofs.Expansion.Ending

/-!
# Yearly rules by the calendar

A yearly rule without an end starts in every so-manieth year, at the anchor's time of day, on the date
that it chooses there (`Instant.IsYearlyStart`).  A year that does not have the date is passed over:
29 February comes in leap years only, and 30 February never.

Every year of such a rule lies in the calendar, so the starts can be had in any window that can be
shifted by the anchor's part of a second, even if no year has the date (`Rule.yearly_starts`).
-/

namespace Recurrence

open Pattern

namespace Instant

/-- Whether an instant lies on the date that a yearly rule chooses in its year; where none is given it
has the anchor's month and day. -/
def IsYearDay (anchor : Instant) (mode : Option YearlyMode) (t : Instant) : Prop :=
  match mode with
  | some (.date m d) => t.date.month = m.1 ∧ t.date.day = d.1
  | some (.nth p w m) => t.date.month = m.1 ∧ t.date.IsNth p w
  | none => t.date.month = anchor.date.month ∧ t.date.day = anchor.date.day

/-- What the calendar says about a start of a yearly rule. -/
structure IsYearlyStart (anchor : Instant) (mode : Option YearlyMode) (interval : Positive)
    (t : Instant) : Prop where
  notBefore : anchor ≤ t
  sameTime : t.timeOfDay = anchor.timeOfDay
  inYear : ∃ k, t.date.year = anchor.date.year + k * interval.1
  onDate : anchor.IsYearDay mode t

/-- A day of the calendar is chosen in the `k`-th period if it lies in the year of that period. -/
theorem day_mem_periodDays_yearly (anchor t : Instant) (mode : Option YearlyMode) (interval k : Nat) :
    t.day ∈ (yearly mode).periodDays interval anchor.day anchor.date k ↔
      t.date.year = anchor.date.year + k * interval ∧ anchor.IsYearDay mode t := by
  have hyear : 1 ≤ anchor.date.year + k * interval :=
    Nat.le_trans anchor.date.year_pos (Nat.le_add_right _ _)
  rcases mode with _ | ⟨⟨m, d⟩ | ⟨p, w, m⟩⟩
  · exact day_mem_dayOfMonth_iff hyear anchor.date.monthNumber.2 anchor.date.day_pos
  · exact day_mem_dayOfMonth_iff hyear m.2 d.2.1
  · exact List.mem_singleton.trans (day_eq_nthWeekday_iff hyear m.2)

end Instant

namespace Rule

variable {r : Rule} {mode : Option YearlyMode}

/-- A day of the calendar is one of a yearly rule if its year counts and it is the date chosen
there. -/
theorem mem_days_yearly (hyearly : r.pattern = .yearly mode) (anchor t : Instant) :
    t.day ∈ r.days anchor ↔
      (∃ k, t.date.year = anchor.date.year + k * r.interval.1) ∧ anchor.IsYearDay mode t := by
  simp only [mem_days, hyearly, Instant.day_mem_periodDays_yearly]
  constructor
  · rintro ⟨k, -, hk, hdate⟩
    exact ⟨⟨k, hk⟩, hdate⟩
  · rintro ⟨⟨k, hk⟩, hdate⟩
    have hle := t.date.year_le
    have hcount := (steps_sub r.interval.2
      (show k * r.interval.1 ≤ 9999 - anchor.date.year by omega)).1
    exact ⟨k, hcount, hk, hdate⟩

/-- The years of a yearly rule lie in the calendar. -/
theorem days_yearly_lt (hyearly : r.pattern = .yearly mode) (anchor : Instant) :
    ∀ n ∈ r.days anchor, n < calendarDays := by
  intro n hn
  rw [mem_days, hyearly] at hn
  obtain ⟨k, hk, hn⟩ := hn
  obtain ⟨month, hmonth, j, hj, rfl, -⟩ := mem_periodDays_yearly hn
  have hmul : k * r.interval.1 ≤ 9999 - anchor.date.year :=
    (Nat.le_div_iff_mul_le r.interval.2).1 (Nat.lt_succ_iff.1 hk)
  have hpos := anchor.date.year_pos
  have hle := anchor.date.year_le
  have hyear := firstOfMonth_add_daysInMonth_le
    (show 1 ≤ anchor.date.year + k * r.interval.1 by omega) hmonth
  have hend : daysBeforeYear (anchor.date.year + k * r.interval.1 + 1) ≤ daysBeforeYear (9999 + 1) :=
    daysBeforeYear_mono (by omega)
  rw [← calendarDays_eq] at hend
  omega

/-- **A yearly rule without an end starts when the calendar says so.** -/
theorem yearly_starts (hyearly : r.pattern = .yearly mode) (hnever : r.ending = .never)
    {anchor lower upper : Instant} {l : List Instant} :
    r.starts anchor (Stamp.ofInstant lower) (Stamp.ofInstant upper) = .ok l ↔
      (anchor.microOfSecond ≤ lower.micros ∧ anchor.microOfSecond ≤ upper.micros) ∧
        l.Pairwise (· < ·) ∧
          ∀ t, t ∈ l ↔ (lower ≤ t ∧ t ≤ upper) ∧ anchor.IsYearlyStart mode r.interval t := by
  have hstart (t : Instant) : anchor.IsYearlyStart mode r.interval t ↔
      anchor ≤ t ∧ t.timeOfDay = anchor.timeOfDay ∧
        (∃ k, t.date.year = anchor.date.year + k * r.interval.1) ∧ anchor.IsYearDay mode t :=
    ⟨fun h => ⟨h.notBefore, h.sameTime, h.inYear, h.onDate⟩,
      fun ⟨hle, htime, hyear, hdate⟩ => ⟨hle, htime, hyear, hdate⟩⟩
  simp only [hstart]
  exact starts_never_iff hnever (days_yearly_lt hyearly anchor) (mem_days_yearly hyearly anchor)

/-- The anchor's date in every year. -/
def anniversaries : Rule := ⟨.yearly none, Positive.one, .never⟩

/-- 29 February 1896 at 07:00:00.000005. -/
def leapDay : Instant := Instant.ofDay 692193 25200000005 (by decide) (by decide)

/-- 1 January 1896, at midnight. -/
def openingOf1896 : Instant := Instant.ofDate (Date.ofDay 692134 (by decide))

/-- 1 January 1909, at midnight. -/
def openingOf1909 : Instant := Instant.ofDate (Date.ofDay 696882 (by decide))

/-- From 1896 to 1904 no year has the date: 1900 is no leap year. -/
theorem yearly_starts_anniversaries :
    ∃ l, anniversaries.starts leapDay (Stamp.ofInstant openingOf1896)
        (Stamp.ofInstant openingOf1909) = .ok l ∧
      l.map Instant.day = [692193, 695114, 696575] ∧
      l.Pairwise (· < ·) ∧
      ∀ t, t ∈ l ↔ (openingOf1896 ≤ t ∧ t ≤ openingOf1909) ∧
        leapDay.IsYearlyStart none anniversaries.interval t := by
  have hok : anniversaries.starts leapDay (Stamp.ofInstant openingOf1896)
      (Stamp.ofInstant openingOf1909) =
        .ok ([692193, 695114, 696575].filterMap leapDay.onDay?) := by
    decide +kernel
  exact ⟨_, hok, by decide +kernel, ((yearly_starts rfl rfl).1 hok).2⟩

end Rule

end Recurrence
