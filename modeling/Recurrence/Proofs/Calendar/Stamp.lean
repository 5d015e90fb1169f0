import Recurrence.Proofs.Calendar.Instant

/-!
# Stamps in the calendar

A stamp has an instant if its universal time lies in the years 1 to 9999 (`Stamp.exists_utc_iff`).  One
without an offset always does, and so does one whose clock shows neither the first nor the last day of
the calendar, since offsets are shorter than a day (`Stamp.inCalendar_of_naive`,
`Stamp.inCalendar_of_inner`).  A moment has its first and its last instant under the same condition; a
day always has both.
-/

namespace Recurrence

/-- The microseconds in the calendar. -/
def calendarMicros : Int := calendarDays * microsPerDay

/-! ## Stamps and moments in the calendar -/

namespace Stamp

/-- The universal time of the stamp lies in the years 1 to 9999. -/
def InCalendar (s : Stamp) : Prop := 0 ≤ s.utcMicros ∧ s.utcMicros < calendarMicros

theorem utc_eq_ok_iff {s : Stamp} {t : Instant} :
    s.utc = .ok t ↔ (t.micros : Int) = s.utcMicros := by
  have hlt := t.micros_lt
  unfold utc Instant.ofMicros?
  split
  · rename_i u hu
    split at hu
    · obtain rfl := Option.some.inj hu
      rw [Except.ok.injEq, Instant.ext_iff]
      simp only
      omega
    · cases hu
  · rename_i hnone
    split at hnone
    · cases hnone
    · constructor
      · rintro ⟨⟩
      · intro h
        omega

theorem exists_utc_iff {s : Stamp} : (∃ t, s.utc = .ok t) ↔ s.InCalendar := by
  constructor
  · rintro ⟨t, ht⟩
    have hmicros := utc_eq_ok_iff.1 ht
    have hlt := t.micros_lt
    unfold InCalendar calendarMicros
    omega
  · rintro ⟨hlower, hupper⟩
    unfold calendarMicros at hupper
    exact ⟨⟨s.utcMicros.toNat, by omega⟩, utc_eq_ok_iff.2 (Int.toNat_of_nonneg hlower)⟩

theorem utc_of_not_inCalendar {s : Stamp} (h : ¬s.InCalendar) : s.utc = .error .outOfRange := by
  cases hs : s.utc with
  | ok t => exact absurd (exists_utc_iff.1 ⟨t, hs⟩) h
  | error e =>
    unfold utc at hs
    split at hs
    · exact absurd hs nofun
    · exact hs.symm

/-- A clock without an offset shows a time of the calendar. -/
theorem inCalendar_of_naive {s : Stamp} (h : s.offset = none) : s.InCalendar := by
  have hlt := s.wall.micros_lt
  unfold InCalendar utcMicros calendarMicros
  rw [h]
  simp only
  omega

/-- An offset is shorter than a day. -/
theorem inCalendar_of_inner {s : Stamp} (hfirst : microsPerDay ≤ s.wall.micros)
    (hlast : s.wall.micros + microsPerDay ≤ calendarDays * microsPerDay) : s.InCalendar := by
  unfold InCalendar utcMicros calendarMicros
  cases hoffset : s.offset with
  | none =>
    have hlt := s.wall.micros_lt
    simp only
    omega
  | some o =>
    have hlower := o.lower
    have hupper := o.upper
    simp only [microsPerDay] at *
    omega

end Stamp

namespace Moment

/-- The microseconds before the moment begins, since the start of the year 1. -/
def openingMicros : Moment → Int
  | day d => (Instant.ofDate d).micros
  | stamp s => s.utcMicros

/-- The microseconds before the last instant of the moment. -/
def closingMicros : Moment → Int
  | day d => (Instant.ofDate d).micros + 86399999999
  | stamp s => s.utcMicros

/-- The moment lies in the years 1 to 9999 of universal time. -/
def InCalendar (m : Moment) : Prop := 0 ≤ m.openingMicros ∧ m.closingMicros < calendarMicros

theorem inCalendar_day (d : Date) : (day d).InCalendar := by
  have hlt := d.toDay_lt
  unfold InCalendar openingMicros closingMicros calendarMicros Instant.ofDate Instant.ofDay
  simp only [calendarDays, microsPerDay] at *
  omega

theorem opening_eq_ok_iff {m : Moment} {t : Instant} :
    m.opening = .ok t ↔ (t.micros : Int) = m.openingMicros := by
  cases m with
  | day d =>
    rw [opening, openingMicros, Except.ok.injEq, Instant.ext_iff]
    omega
  | stamp s => exact Stamp.utc_eq_ok_iff

theorem closing_eq_ok_iff {m : Moment} {t : Instant} :
    m.closing = .ok t ↔ (t.micros : Int) = m.closingMicros := by
  cases m with
  | day d =>
    rw [closing, closingMicros, Except.ok.injEq, Instant.ext_iff, Instant.ofDate]
    simp only [Instant.ofDay]
    omega
  | stamp s => exact Stamp.utc_eq_ok_iff

theorem bounds_of_inCalendar {m : Moment} (h : m.InCalendar) :
    (∃ t, m.opening = .ok t) ∧ ∃ t, m.closing = .ok t := by
  cases m with
  | day d => exact ⟨⟨_, rfl⟩, _, rfl⟩
  | stamp s => exact ⟨Stamp.exists_utc_iff.2 h, Stamp.exists_utc_iff.2 h⟩

theorem bounds_of_not_inCalendar {m : Moment} (h : ¬m.InCalendar) :
    m.opening = .error .outOfRange ∧ m.closing = .error .outOfRange := by
  cases m with
  | day d => exact absurd (inCalendar_day d) h
  | stamp s => exact ⟨Stamp.utc_of_not_inCalendar h, Stamp.utc_of_not_inCalendar h⟩

end Moment

end Recurrence
