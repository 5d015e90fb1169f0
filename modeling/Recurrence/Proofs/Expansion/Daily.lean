import Recurrence.Proofs.Expansion.Ending

/-!
# Daily rules by the calendar

A walk that keeps a year, a month and a day goes on by adding to the day and carrying what is too much
over the ends of months and years (`Date.carry`, `Date.walk`).  It comes to the days whose numbers are
in arithmetic progression, and stops where the calendar ends (`Date.walk_eq_some_iff`).

These are the days of a daily rule (`Rule.mem_days_daily`).  So without an end it starts at the anchor
and every so many days later, to the microsecond, over any month ends, leap days and turns of the year;
an interval beyond the end of the calendar leaves the anchor alone (`Rule.daily_starts`).
-/

namespace Recurrence

open Pattern

/-! ## Walking by year, month and day -/

namespace Date

/-- The date of a day of a month that may be longer than the month is; the surplus goes over to the
following months, as far as the calendar has them. -/
def carry (year month day : Nat) : Option Date :=
  if day ≤ daysInMonth year month then of? year month day
  else if month < 12 then carry year (month + 1) (day - daysInMonth year month)
  else if year < 9999 then carry (year + 1) 1 (day - daysInMonth year month)
  else none
termination_by day
decreasing_by
  all_goals
    have hpos := daysInMonth_pos year month
    omega

/-- The date after `k` steps of so many days each, if the calendar has it. -/
def walk (d : Date) (interval : Nat) : (k : Nat) → Option Date
  | 0 => some d
  | k + 1 => (walk d interval k).bind fun e => carry e.year e.month (e.day + interval)

theorem of?_eq_some_iff {year month day : Nat} {e : Date} :
    of? year month day = some e ↔ e.year = year ∧ e.month = month ∧ e.day = day := by
  constructor
  · intro h
    unfold of? at h
    split at h
    · rw [← Option.some.inj h]
      exact ⟨rfl, rfl, rfl⟩
    · exact absurd h.symm (Option.some_ne_none e)
  · rintro ⟨rfl, rfl, rfl⟩
    exact of?_fields e

theorem firstOfMonth_succ {year month : Nat} (hm : 1 ≤ month) :
    firstOfMonth year (month + 1) = firstOfMonth year month + daysInMonth year month := by
  unfold firstOfMonth
  rw [daysBeforeMonth_succ year hm, Nat.add_assoc]

theorem firstOfMonth_succ_year {year : Nat} (hy : 1 ≤ year) :
    firstOfMonth (year + 1) 1 = firstOfMonth year 12 + daysInMonth year 12 := by
  have hdecember : firstOfMonth year 12 + daysInMonth year 12 =
      daysBeforeYear year + daysBeforeMonth year 13 := Nat.add_assoc _ _ _
  rw [hdecember, daysBeforeMonth_thirteen, ← daysBeforeYear_succ hy]
  rfl

/-- **Carrying keeps count of the days.** -/
theorem carry_eq_some_iff {year month day : Nat} (hy : 1 ≤ year ∧ year ≤ 9999)
    (hm : 1 ≤ month ∧ month ≤ 12) (hd : 1 ≤ day) {e : Date} :
    carry year month day = some e ↔ e.toDay = firstOfMonth year month + (day - 1) := by
  induction day using Nat.strongRecOn generalizing year month with
  | ind day ih =>
    have hpos := daysInMonth_pos year month
    rw [carry]
    by_cases hfits : day ≤ daysInMonth year month
    · rw [if_pos hfits]
      let d : Date := ⟨year, month, day, hy.1, hy.2, hm.1, hm.2, hd, hfits⟩
      have hof : of? year month day = some d := of?_eq_some_iff.2 ⟨rfl, rfl, rfl⟩
      have hday : d.toDay = firstOfMonth year month + (day - 1) := rfl
      rw [hof, ← hday]
      constructor
      · intro h
        rw [Option.some.inj h]
      · intro h
        rw [toDay_injective h]
    · rw [if_neg hfits]
      by_cases hmonth : month < 12
      · rw [if_pos hmonth, ih (day - daysInMonth year month) (by omega) hy (by omega) (by omega),
          firstOfMonth_succ hm.1]
        omega
      · obtain rfl : month = 12 := by omega
        rw [if_neg hmonth]
        by_cases hyear : year < 9999
        · rw [if_pos hyear, ih (day - daysInMonth year 12) (by omega) (by omega) (by decide) (by omega),
            firstOfMonth_succ_year hy.1]
          omega
        · -- December 9999: what is left lies behind the calendar, where no date is.
          obtain rfl : year = 9999 := by omega
          have hend : firstOfMonth 9999 12 + daysInMonth 9999 12 = calendarDays := by decide
          have hlt := e.toDay_lt
          rw [if_neg hyear]
          constructor
          · exact nofun
          · intro h
            omega

/-- **A walk comes to the days in arithmetic progression.** -/
theorem walk_eq_some_iff {d e : Date} {interval k : Nat} :
    d.walk interval k = some e ↔ e.toDay = d.toDay + k * interval := by
  induction k generalizing e with
  | zero =>
    rw [walk, Nat.zero_mul, Nat.add_zero, Option.some_inj]
    constructor
    · rintro rfl
      rfl
    · intro h
      exact (toDay_injective h).symm
  | succ k ih =>
    have hstep : ∀ c : Date, carry c.year c.month (c.day + interval) = some e ↔
        e.toDay = c.toDay + interval := by
      intro c
      have hday : c.toDay = firstOfMonth c.year c.month + (c.day - 1) := rfl
      have hpos := c.day_pos
      rw [carry_eq_some_iff ⟨c.year_pos, c.year_le⟩ ⟨c.month_pos, c.month_le⟩ (by omega), hday]
      omega
    rw [walk, Option.bind_eq_some_iff, Nat.succ_mul]
    constructor
    · rintro ⟨c, hc, he⟩
      rw [(hstep c).1 he, ih.1 hc, Nat.add_assoc]
    · intro he
      have hlt : d.toDay + k * interval < calendarDays := by
        have hlt := e.toDay_lt
        omega
      have hday := toDay_ofDay hlt
      exact ⟨ofDay _ hlt, ih.2 hday, (hstep _).2 (by omega)⟩

end Date

/-! ## Walking from an instant -/

/-- Some days later it is the same time on the date that a walk comes to. -/
theorem Instant.shift?_days_iff {s t : Instant} {interval k : Nat} :
    s.shift? (k * (interval * microsPerDay) : Nat) = some t ↔
      s.date.walk interval k = some t.date ∧ t.timeOfDay = s.timeOfDay := by
  have hs := s.day_mul_add_timeOfDay
  have ht := t.day_mul_add_timeOfDay
  have hstime := s.timeOfDay_lt
  have httime := t.timeOfDay_lt
  rw [shift?_eq_some_iff, Date.walk_eq_some_iff, toDay_date, toDay_date, ← Nat.mul_assoc]
  generalize k * interval = n
  constructor
  · intro h
    simp only [microsPerDay] at *
    omega
  · rintro ⟨hday, htime⟩
    simp only [microsPerDay] at *
    omega

namespace Rule

variable {r : Rule} {anchor lower upper : Instant} {l : List Instant}

/-- A day of the calendar is one of a daily rule if a walk from the anchor comes to it. -/
theorem mem_days_daily (hdaily : r.pattern = .daily) (anchor t : Instant) :
    t.day ∈ r.days anchor ↔ ∃ k, anchor.date.walk r.interval.1 k = some t.date := by
  simp only [mem_days, hdaily, periodDays, List.mem_singleton, Date.walk_eq_some_iff,
    Instant.toDay_date]
  constructor
  · rintro ⟨k, -, hk⟩
    exact ⟨k, hk⟩
  · rintro ⟨k, hk⟩
    have hlt := t.day_lt
    have hcount := (steps_sub r.interval.2
      (show k * r.interval.1 ≤ calendarDays - 1 - anchor.day by omega)).1
    exact ⟨k, hcount, hk⟩

/-- The days of a daily rule lie in the calendar. -/
theorem days_daily_lt (hdaily : r.pattern = .daily) (anchor : Instant) :
    ∀ n ∈ r.days anchor, n < calendarDays := by
  intro n hn
  rw [mem_days, hdaily] at hn
  obtain ⟨k, hk, hn⟩ := hn
  have hmul : k * r.interval.1 ≤ calendarDays - 1 - anchor.day :=
    (Nat.le_div_iff_mul_le r.interval.2).1 (Nat.lt_succ_iff.1 hk)
  have hlt := anchor.day_lt
  rw [List.mem_singleton.1 hn]
  omega

/-- **A daily rule without an end starts every so many days from the anchor on.** -/
theorem daily_starts (hdaily : r.pattern = .daily) (hnever : r.ending = .never) :
    r.starts anchor (Stamp.ofInstant lower) (Stamp.ofInstant upper) = .ok l ↔
      (anchor.microOfSecond ≤ lower.micros ∧ anchor.microOfSecond ≤ upper.micros) ∧
        l.Pairwise (· < ·) ∧
          ∀ t, t ∈ l ↔ (lower ≤ t ∧ t ≤ upper) ∧
            ∃ k, anchor.shift? (k * (r.interval.1 * microsPerDay) : Nat) = some t := by
  have hlater (t : Instant) :
      (∃ k, anchor.shift? (k * (r.interval.1 * microsPerDay) : Nat) = some t) ↔
        anchor ≤ t ∧ t.timeOfDay = anchor.timeOfDay ∧
          ∃ k, anchor.date.walk r.interval.1 k = some t.date := by
    constructor
    · rintro ⟨k, hk⟩
      have hle : anchor ≤ t := by
        have hmicros := Instant.shift?_eq_some_iff.1 hk
        show anchor.micros ≤ t.micros
        omega
      obtain ⟨hwalk, htime⟩ := Instant.shift?_days_iff.1 hk
      exact ⟨hle, htime, k, hwalk⟩
    · rintro ⟨-, htime, k, hwalk⟩
      exact ⟨k, Instant.shift?_days_iff.2 ⟨hwalk, htime⟩⟩
  simp only [hlater]
  exact starts_never_iff hnever (days_daily_lt hdaily anchor) (mem_days_daily hdaily anchor)

/-- Every forty-five days. -/
def everyFortyFiveDays : Rule := ⟨.daily, ⟨45, by decide⟩, .never⟩

/-- 17 November 2023 at 23:59:59.999998. -/
def lateInNovember : Instant := Instant.ofDay 738840 86399999998 (by decide) (by decide)

/-- 18 November 2023, at midnight. -/
def dayAfter : Instant := Instant.ofDate (Date.ofDay 738841 (by decide))

/-- 15 May 2024 at 23:59:59.999998. -/
def lateInMay : Instant := Instant.ofDay 739020 86399999998 (by decide) (by decide)

/-- New Year's Day, 15 February, the last of March in a leap year, and the last instant of the window. -/
theorem daily_starts_everyFortyFiveDays :
    ∃ l, everyFortyFiveDays.starts lateInNovember (Stamp.ofInstant dayAfter)
        (Stamp.ofInstant lateInMay) = .ok l ∧
      l.map (fun t => (t.date.year, t.date.month, t.date.day)) =
        [(2024, 1, 1), (2024, 2, 15), (2024, 3, 31), (2024, 5, 15)] ∧
      l.Pairwise (· < ·) ∧
      ∀ t, t ∈ l ↔ (dayAfter ≤ t ∧ t ≤ lateInMay) ∧
        ∃ k, lateInNovember.shift? (k * (everyFortyFiveDays.interval.1 * microsPerDay) : Nat) =
          some t := by
  have hok : everyFortyFiveDays.starts lateInNovember (Stamp.ofInstant dayAfter)
      (Stamp.ofInstant lateInMay) =
        .ok ([738885, 738930, 738975, 739020].filterMap lateInNovember.onDay?) := by
    decide +kernel
  exact ⟨_, hok, by decide +kernel, ((daily_starts rfl rfl).1 hok).2⟩

end Rule

end Recurrence
