import Recurrence.Proofs.Expansion.Weekly
import Recurrence.Proofs.Expansion.Window
import Recurrence.Rule.Preset
import Recurrence.Rule.Summary

/-!
# Days that are left to the anchor

A pattern that names no days takes them from the anchor.  This is done in three places: the preset of an
editor writes them out, the summary puts them into words, and the expansion walks over them.  All three
take the same days: with the preset's days written out, a rule has the same periods with the same days in
them (`Pattern.periodDays_ofAnchor`), so the same starts in every window (`Rule.starts_ofAnchor`), and the
same summary (`Rule.render_ofAnchor`).

The anchor lies on its own days, so it is the first candidate of the preset
(`Rule.head?_candidates_ofAnchor`), and where a window holds it and closes before the year 9999, it is the
first start there (`Rule.starts_ofAnchor_within`).  `Rule.preset_follows_anchor` puts all of this together.
-/

namespace Recurrence

/-! ## The days written out -/

namespace Pattern

variable (f : Frequency) (anchor : Instant)

theorem frequency_ofAnchor : (ofAnchor f anchor).frequency = f := by
  cases f <;> rfl

theorem weekOffsets_singleton (w : Weekday) (anchorDay : Nat) :
    weekOffsets (some (DaySet.singleton w)) anchorDay = [w.sinceMonday] := by
  cases w <;> rfl

theorem periodDays_ofAnchor (interval k : Nat) :
    (ofAnchor f anchor).periodDays interval anchor.day anchor.date k =
      (plain f).periodDays interval anchor.day anchor.date k := by
  cases f with
  | weekly =>
    have hoffset : anchor.weekday.sinceMonday = anchor.day % 7 := Weekday.sinceMonday_ofDay anchor.day
    simp only [ofAnchor, plain, periodDays, weekOffsets_singleton, hoffset]
    rfl
  | _ => rfl

theorem periodCount_ofAnchor (interval : Nat) :
    (ofAnchor f anchor).periodCount interval anchor.day anchor.date =
      (plain f).periodCount interval anchor.day anchor.date := by
  cases f <;> rfl

theorem phrase_ofAnchor : (ofAnchor f anchor).phrase anchor = (plain f).phrase anchor := by
  cases f <;> rfl

end Pattern

namespace Rule

variable (f : Frequency) (anchor : Instant) {lower upper : Instant}

/-- **The days of the preset do not change the starts**, whatever the interval, the ending and the
window are. -/
theorem starts_ofAnchor (interval : Positive) (ending : Ending) (lower upper : Stamp) :
    (Rule.mk (Pattern.ofAnchor f anchor) interval ending).starts anchor lower upper =
      (Rule.mk (Pattern.plain f) interval ending).starts anchor lower upper := by
  have hdays := funext (Pattern.periodDays_ofAnchor f anchor interval.1)
  have hcount := Pattern.periodCount_ofAnchor f anchor interval.1
  simp only [starts, scanAll, scan, hdays, hcount]

/-- **The days of the preset do not change the summary.** -/
theorem render_ofAnchor (interval : Positive) (ending : Ending) :
    (Rule.mk (Pattern.ofAnchor f anchor) interval ending).render anchor =
      (Rule.mk (Pattern.plain f) interval ending).render anchor := by
  have hplain : (Pattern.plain f).frequency = f := by cases f <;> rfl
  simp only [render, Pattern.phrase_ofAnchor, Pattern.frequency_ofAnchor, hplain]

/-! ## The anchor as a start -/

theorem mem_candidates_ofAnchor : anchor ∈ (ofAnchor f anchor).candidates anchor := by
  refine Instant.mem_candidates.2 ⟨?_, rfl, Nat.le_refl _⟩
  -- The anchor lies in the first of the periods.
  cases f with
  | daily => exact (mem_days_daily rfl anchor anchor).2 ⟨0, rfl⟩
  | weekly => exact (mem_days_weekly rfl anchor anchor).2 ⟨List.mem_singleton_self _, 0, by simp⟩
  | monthly =>
    have hday : anchor.IsMonthDay (some (.day anchor.date.monthDay)) anchor := rfl
    exact (mem_days_monthly rfl anchor anchor).2 ⟨⟨0, by simp⟩, hday⟩
  | yearly =>
    have hdate : anchor.IsYearDay (some (.date anchor.date.monthNumber anchor.date.monthDay)) anchor :=
      ⟨rfl, rfl⟩
    exact (mem_days_yearly rfl anchor anchor).2 ⟨⟨0, by simp⟩, hdate⟩

/-- **The anchor is the first candidate of its preset.** -/
theorem head?_candidates_ofAnchor : ((ofAnchor f anchor).candidates anchor).head? = some anchor := by
  refine head?_of_sorted (candidates_sorted _ anchor) (mem_candidates_ofAnchor f anchor) ?_
  intro t ht
  exact Instant.not_lt.2 (Instant.mem_candidates.1 ht).2.2

/-- The weekly preset has a candidate every week after the anchor. -/
theorem mem_candidates_weeks_later {t : Instant} {k : Nat} (hday : t.day = anchor.day + k * 7)
    (htime : t.timeOfDay = anchor.timeOfDay) : t ∈ (ofAnchor .weekly anchor).candidates anchor := by
  have hweekday : t.weekday = anchor.weekday := by
    refine Weekday.ofDay_eq_iff.2 ?_
    rw [Instant.weekday, Weekday.sinceMonday_ofDay, hday, Nat.add_mul_mod_self_right]
  have hmonday : t.monday = anchor.monday + k * 7 := by
    unfold Instant.monday
    omega
  have hle : anchor ≤ t := by
    have hmul : anchor.day * microsPerDay ≤ t.day * microsPerDay := Nat.mul_le_mul_right _ (by omega)
    show anchor.micros ≤ t.micros
    rw [← anchor.day_mul_add_timeOfDay, ← t.day_mul_add_timeOfDay, htime]
    exact Nat.add_le_add_right hmul _
  refine Instant.mem_candidates.2 ⟨(mem_days_weekly rfl anchor t).2 ⟨?_, k, hmonday⟩, htime, hle⟩
  rw [hweekday]
  exact List.mem_singleton_self _

/-- The last week of the calendar lies in the year 9999. -/
theorem day_add_seven_lt {t : Instant} (h : t.date.year ≤ 9998) : t.day + 7 < calendarDays := by
  have hlt := t.date.toDay_lt_daysBeforeYear_succ
  have hyear : daysBeforeYear (t.date.year + 1) ≤ daysBeforeYear 9999 := daysBeforeYear_mono (by omega)
  have hlast : daysBeforeYear 9999 + 365 = calendarDays := by decide
  rw [Instant.toDay_date] at hlt
  omega

/-- Within a week after the window comes a candidate at which the search ends. -/
theorem not_runsPast_ofAnchor (hle : anchor ≤ upper) (hyear : upper.date.year ≤ 9998) :
    ¬(ofAnchor f anchor).RunsPast anchor upper := by
  intro hpast
  have hlast := day_add_seven_lt hyear
  have hday : anchor.day ≤ upper.day := Nat.div_le_div_right hle
  -- Only weeks may run past the calendar.
  obtain ⟨days, hweekly⟩ := exists_weekly_of_runsPast hpast
  obtain rfl : f = .weekly := by
    rw [← Pattern.frequency_ofAnchor f anchor]
    exact congrArg Pattern.frequency hweekly
  obtain ⟨k, hbefore, hafter⟩ :
      ∃ k, upper.day < anchor.day + k * 7 ∧ anchor.day + k * 7 ≤ upper.day + 7 :=
    ⟨(upper.day - anchor.day) / 7 + 1, by omega, by omega⟩
  let next := Instant.ofDay (anchor.day + k * 7) anchor.timeOfDay (by omega) anchor.timeOfDay_lt
  have hnext : next.day = anchor.day + k * 7 := Instant.day_ofDay _ _
  have hmem := mem_candidates_weeks_later anchor hnext (Instant.timeOfDay_ofDay _ _)
  have hlt : upper < next := Instant.lt_of_day_lt (by omega)
  exact Instant.lt_irrefl upper (Nat.lt_of_lt_of_le hlt (hpast.reached next hmem).2)

/-- **The anchor is the first start of its preset** in every window that holds it and closes before the
year 9999. -/
theorem starts_ofAnchor_within (hlower : lower ≤ anchor) (hupper : anchor ≤ upper)
    (hyear : upper.date.year ≤ 9998) (hopens : anchor.microOfSecond ≤ lower.micros) :
    ∃ later, (ofAnchor f anchor).starts anchor (Stamp.ofInstant lower) (Stamp.ofInstant upper) =
      .ok (anchor :: later) := by
  obtain ⟨rest, hcandidates⟩ := List.head?_eq_some_iff.1 (head?_candidates_ofAnchor f anchor)
  have hallowed : (ofAnchor f anchor).allowed anchor = anchor :: rest := by
    rw [allowed_never rfl, hcandidates]
  have hwithin : (decide (lower ≤ anchor) && decide (anchor ≤ upper)) = true := by
    rw [decide_eq_true hlower, decide_eq_true hupper]
    rfl
  have hcloses : anchor.microOfSecond ≤ upper.micros :=
    Nat.le_trans hopens (Nat.le_trans hlower hupper)
  refine ⟨rest.filter fun t => decide (lower ≤ t) && decide (t ≤ upper), ?_⟩
  refine starts_eq_ok_iff.2 ⟨⟨hopens, hcloses⟩, not_runsPast_ofAnchor f anchor hupper hyear, ?_⟩
  rw [hallowed, List.filter_cons, if_pos hwithin]

/-! ## The preset -/

/-- **The preset, the summary and the expansion agree on the days of the anchor.**  A rule without days
and the one with those of the preset have the same starts in every window and the same summary, and the
preset starts with the anchor. -/
theorem preset_follows_anchor {stamp : Stamp} {anchor : Instant} (h : stamp.utc = .ok anchor)
    (f : Frequency) :
    ∃ preset, Rule.preset f stamp = .ok preset ∧ preset.pattern.frequency = f ∧
      (∀ interval ending lower upper,
        (Rule.mk (.plain f) interval ending).starts anchor lower upper =
          (Rule.mk preset.pattern interval ending).starts anchor lower upper) ∧
      (∀ interval ending, (Rule.mk (.plain f) interval ending).render anchor =
        (Rule.mk preset.pattern interval ending).render anchor) ∧
      (preset.candidates anchor).head? = some anchor ∧
      ∀ lower upper, lower ≤ anchor → anchor ≤ upper → upper.date.year ≤ 9998 →
        anchor.microOfSecond ≤ lower.micros →
          ∃ later, preset.starts anchor (Stamp.ofInstant lower) (Stamp.ofInstant upper) =
            .ok (anchor :: later) := by
  refine ⟨ofAnchor f anchor, ?_, Pattern.frequency_ofAnchor f anchor, ?_, ?_,
    head?_candidates_ofAnchor f anchor, ?_⟩
  · rw [preset, h]
    rfl
  · intro interval ending lower upper
    exact (starts_ofAnchor f anchor interval ending lower upper).symm
  · intro interval ending
    exact (render_ofAnchor f anchor interval ending).symm
  · intro lower upper hlower hupper hyear hopens
    exact starts_ofAnchor_within f anchor hlower hupper hyear hopens

/-- Half past midnight on Wednesday, 22 May 2024, on a clock that is three hours ahead. -/
def nightShift : Stamp :=
  ⟨Instant.ofDay 739027 1800000007 (by decide) (by decide), some ⟨10800000000, by decide, by decide⟩⟩

/-- The same instant, which is still on Tuesday. -/
def lateTuesday : Instant := Instant.ofDay 739026 77400000007 (by decide) (by decide)

/-- The preset repeats on Tuesdays, and so do the summary and the starts of a rule without days. -/
theorem preset_follows_anchor_nightShift :
    ∃ preset later, Rule.preset .weekly nightShift = .ok preset ∧
      preset.pattern = .weekly (some (DaySet.singleton .tuesday)) ∧
      (Rule.mk (.weekly none) ⟨2, by decide⟩ .never).render lateTuesday = "every 2 weeks on Tuesday" ∧
      (Rule.mk preset.pattern ⟨2, by decide⟩ .never).render lateTuesday = "every 2 weeks on Tuesday" ∧
      preset.starts lateTuesday (Stamp.ofInstant lateTuesday) (Stamp.ofInstant lateTuesday) =
        .ok (lateTuesday :: later) := by
  have hutc : nightShift.utc = .ok lateTuesday := by decide
  obtain ⟨preset, hpreset, -, -, hrender, -, hstarts⟩ := preset_follows_anchor hutc .weekly
  obtain ⟨later, hlater⟩ :=
    hstarts lateTuesday lateTuesday (by decide) (by decide) (by decide) (by decide)
  have hdays : preset.pattern = .weekly (some (DaySet.singleton .tuesday)) := by
    obtain rfl : Rule.ofAnchor .weekly lateTuesday = preset := Except.ok.inj hpreset
    decide
  have htext : (Rule.mk (.weekly none) ⟨2, by decide⟩ .never).render lateTuesday =
      "every 2 weeks on Tuesday" := by
    decide +kernel
  exact ⟨preset, later, hpreset, hdays, htext, (hrender _ _).symm.trans htext, hlater⟩

end Rule

end Recurrence
