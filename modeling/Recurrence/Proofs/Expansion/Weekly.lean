import Mathlib.Control.Monad.Basic
import Recurrence.Proofs.Calendar.Weekday
import Recurrence.Proofs.Expansion.Scan

/-!
# Weekly rules by the calendar

A weekly rule without an end starts on the chosen weekdays of every so-manieth calendar week, at the
anchor's time of day, from the anchor on (`Instant.IsWeeklyStart`).  The starts found in a window are
all of these that lie in it, in ascending order, and nothing else (`Rule.weekly_starts`).
-/

namespace Recurrence

open Pattern

namespace Instant

/-- The number of the Monday with which the instant's calendar week begins. -/
def monday (t : Instant) : Nat := t.day - t.day % 7

/-- It is the only Monday among the day of the instant and the six before it. -/
theorem eq_monday_iff (t : Instant) (n : Nat) :
    n = t.monday ↔ Weekday.ofDay n = .monday ∧ n ≤ t.day ∧ t.day < n + 7 := by
  have hmonday : Weekday.ofDay n = .monday ↔ n % 7 = 0 := by
    have hsince : (Weekday.ofDay n).sinceMonday = n % 7 := Weekday.sinceMonday_ofDay n
    constructor
    · intro h
      rw [← hsince, h]
      rfl
    · intro h
      exact Weekday.sinceMonday_injective (hsince.trans h)
  rw [hmonday, monday]
  omega

/-- The weekdays of a weekly rule; where none are given it is the anchor's. -/
def weekdaysOr (anchor : Instant) : Option DaySet → List Weekday
  | some s => s.days
  | none => [anchor.weekday]

/-- What the calendar says about a start of a weekly rule. -/
structure IsWeeklyStart (anchor : Instant) (days : Option DaySet) (interval : Positive)
    (t : Instant) : Prop where
  notBefore : anchor ≤ t
  sameTime : t.timeOfDay = anchor.timeOfDay
  onWeekday : t.weekday ∈ anchor.weekdaysOr days
  inWeek : ∃ k, t.monday = anchor.monday + k * (interval.1 * 7)

end Instant

/-- A day is so far into its week as one of the chosen weekdays if it is that weekday. -/
theorem mem_weekOffsets_iff (anchor t : Instant) (days : Option DaySet) :
    t.day % 7 ∈ weekOffsets days anchor.day ↔ t.weekday ∈ anchor.weekdaysOr days := by
  have hday : t.weekday.sinceMonday = t.day % 7 := Weekday.sinceMonday_ofDay t.day
  have hanchor : anchor.weekday.sinceMonday = anchor.day % 7 := Weekday.sinceMonday_ofDay anchor.day
  cases days with
  | some s =>
    simp only [weekOffsets, Instant.weekdaysOr, List.mem_map, List.mem_filter,
      List.contains_iff_mem]
    constructor
    · rintro ⟨w, ⟨-, hw⟩, he⟩
      rwa [← Weekday.sinceMonday_injective (he.trans hday.symm)]
    · intro hw
      exact ⟨t.weekday, ⟨Weekday.mem_week _, hw⟩, hday⟩
  | none =>
    simp only [weekOffsets, Instant.weekdaysOr, List.mem_singleton]
    constructor
    · intro he
      exact Weekday.sinceMonday_injective (by rw [hday, hanchor, he])
    · intro he
      rw [← hday, ← hanchor, he]

/-- A day of the calendar is one of a weekly rule if its weekday is chosen and its week counts. -/
theorem mem_days_weekly {r : Rule} {days : Option DaySet} (hweekly : r.pattern = .weekly days)
    (anchor t : Instant) :
    t.day ∈ r.days anchor ↔
      t.weekday ∈ anchor.weekdaysOr days ∧ ∃ k, t.monday = anchor.monday + k * (r.interval.1 * 7) := by
  rw [← mem_weekOffsets_iff]
  unfold Rule.days Instant.monday
  rw [hweekly, List.mem_flatMap]
  constructor
  · rintro ⟨k, -, hk⟩
    obtain ⟨o, ho, hday⟩ := List.mem_map.1 hk
    have hlt := weekOffsets_lt ho
    have hoffset : t.day % 7 = o := by omega
    refine ⟨hoffset ▸ ho, k, ?_⟩
    rw [← Nat.mul_assoc]
    omega
  · rintro ⟨ho, k, hk⟩
    have hlt := t.day_lt
    have hmul : k * (r.interval.1 * 7) = k * (7 * r.interval.1) := by rw [Nat.mul_comm 7]
    have hpos : 0 < 7 * r.interval.1 := Nat.mul_pos (by decide) r.interval.2
    have hcount : k ≤ (calendarDays - 1 - (anchor.day - anchor.day % 7)) / (7 * r.interval.1) := by
      apply (Nat.le_div_iff_mul_le hpos).2
      omega
    refine ⟨k, ?_, List.mem_map.2 ⟨t.day % 7, ho, ?_⟩⟩
    · rw [List.mem_range'_1]
      exact ⟨Nat.zero_le k, by simp only [periodCount]; omega⟩
    · rw [Nat.mul_assoc, ← hk]
      omega

namespace Rule

/-- **A weekly rule without an end starts when the calendar says so.** -/
theorem weekly_starts {r : Rule} {days : Option DaySet} (hweekly : r.pattern = .weekly days)
    (hnever : r.ending = .never) {anchor lower upper : Instant} {l : List Instant}
    (h : r.starts anchor (Stamp.ofInstant lower) (Stamp.ofInstant upper) = .ok l) :
    l.Pairwise (· < ·) ∧
      ∀ t, t ∈ l ↔ lower ≤ t ∧ t ≤ upper ∧ anchor.IsWeeklyStart days r.interval t := by
  obtain ⟨-, -, rfl⟩ := starts_eq_ok_iff.1 h
  have hallowed : r.allowed anchor = r.candidates anchor := by
    unfold allowed Ending.reaches
    rw [hnever]
    exact List.filter_eq_self.2 fun _ _ => rfl
  refine ⟨(r.allowed_sorted anchor).filter _, ?_⟩
  intro t
  rw [hallowed, List.mem_filter, Bool.and_eq_true, decide_eq_true_iff, decide_eq_true_iff, candidates,
    Instant.mem_candidates]
  constructor
  · rintro ⟨⟨hday, htime, hle⟩, hlower, hupper⟩
    obtain ⟨hweekday, hweek⟩ := (mem_days_weekly hweekly anchor t).1 hday
    exact ⟨hlower, hupper, hle, htime, hweekday, hweek⟩
  · rintro ⟨hlower, hupper, hstart⟩
    have hday := (mem_days_weekly hweekly anchor t).2
      ⟨hstart.onWeekday, hstart.inWeek⟩
    exact ⟨⟨hday, hstart.sameTime, hstart.notBefore⟩, hlower, hupper⟩

/-- Sunday and Monday, the last and the first day of a calendar week. -/
def sundayMonday : DaySet := ⟨[.sunday, .monday], by decide, by decide⟩

def alternateSundays : Rule where
  pattern := .weekly (some sundayMonday)
  interval := ⟨2, by decide⟩
  ending := .never

/-- 22 December 2024, a Sunday, at 23:30:00.000001. -/
def lateSunday : Instant := Instant.ofDay 739241 84600000001 (by decide) (by decide)

/-- 20 December 2024, at midnight. -/
def beforeChristmas : Instant := Instant.ofDate (Date.ofDay 739239 (by decide))

/-- 13 January 2025, a Monday, at 23:30:00.000001. -/
def afterHolidays : Instant := Instant.ofDay 739263 84600000001 (by decide) (by decide)

/-- The Monday of a counted week comes before its Sunday, also where a new year lies between. -/
theorem weekly_starts_alternateSundays :
    ∃ l, alternateSundays.starts lateSunday (Stamp.ofInstant beforeChristmas)
        (Stamp.ofInstant afterHolidays) = .ok l ∧
      l.map Instant.day = [739241, 739249, 739255, 739263] ∧
      l.Pairwise (· < ·) ∧
      ∀ t, t ∈ l ↔ beforeChristmas ≤ t ∧ t ≤ afterHolidays ∧
        lateSunday.IsWeeklyStart (some sundayMonday) alternateSundays.interval t := by
  have hok : alternateSundays.starts lateSunday (Stamp.ofInstant beforeChristmas)
      (Stamp.ofInstant afterHolidays) =
        .ok ([739241, 739249, 739255, 739263].filterMap lateSunday.onDay?) := by
    decide +kernel
  exact ⟨_, hok, by decide +kernel, weekly_starts rfl rfl hok⟩

end Rule

end Recurrence
