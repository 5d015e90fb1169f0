import Recurrence.Proofs.Expansion.Overrun
import Recurrence.Proofs.Rule.Clamped

/-!
# A clamped text stops the series

Whatever text is stored for a series, and whatever else the series is: once the text is clamped, no
occurrence starts at the cutoff or later, unless a count comes to light (`Series.clamp_stops`).  Of a
text like `;RRULE:COUNT=3;FREQ=DAILY` the next reader counts three occurrences, wherever the cutoff
lies (`Series.count_outlives_clamp`).
-/

namespace Recurrence

namespace Series

variable {s : Series} {first final : Moment} {extra : List Stamp} {found : List Occurrence}
  {o : Occurrence}

theorem exists_rule_of_mem_expand (hfound : s.expand first final extra = .ok found)
    (ho : o ∈ found) : ∃ r, s.rule? = some r := by
  obtain ⟨lower, upper, -, -, hbetween⟩ := bounds_of_expand hfound
  cases hrule : s.rule? with
  | some r => exact ⟨r, rfl⟩
  | none =>
    unfold expandBetween at hbetween
    rw [hrule] at hbetween
    split at hbetween
    · rw [← Except.ok.inj hbetween] at ho
      exact absurd ho List.not_mem_nil
    · rw [← Except.ok.inj hbetween] at ho
      exact absurd ho List.not_mem_nil

/-- **A clamped text stops the series.**  Clamping any text gives a text whose rule, if it has one, ends
with the second before the cutoff or with the count that comes to light.  Without such a count, no
series with the clamped text has an occurrence at the cutoff or later, in any window. -/
theorem clamp_stops (rule : String) {cutoff : Stamp} {c last : Instant}
    (hcutoff : cutoff.utc = .ok c) (hlast : c.shift? (-1000000) = some last) :
    ∃ text, clampUntil rule cutoff = .ok text ∧
      (∀ r, Rule.decode? text = some r → r.ending =
        ((TokenList.ofText rule.toList).hiddenCount?.map Ending.after).getD (.on last.second)) ∧
      ((TokenList.ofText rule.toList).hiddenCount? = none →
        ∀ {s : Series} {first final : Moment} {extra : List Stamp} {found : List Occurrence},
          s.rule = text → s.expand first final extra = .ok found → ∀ o ∈ found, o.start < c) := by
  obtain ⟨text, hclamp, hending⟩ := Rule.ending_of_clampUntil rule hcutoff hlast
  refine ⟨text, hclamp, hending, fun hhidden => ?_⟩
  intro s first final extra found hrule hfound o ho
  obtain ⟨r, hr⟩ := exists_rule_of_mem_expand hfound ho
  have hon : r.ending = .on last.second := by
    rw [hending r (hrule ▸ hr), hhidden]
    rfl
  obtain ⟨hstart, -⟩ := mem_expand hr hfound ho
  rw [← Rule.withEnding_of_ending hon] at hstart
  exact Nat.lt_of_lt_of_le (Rule.lt_of_mem_allowed_clamped hlast hstart) (Nat.sub_le _ _)

/-- A text with a count and two last seconds, in a loose spelling. -/
def looseRule : String := " freq = daily ;;Count=9;X-NOTE;until=20991231T000000Z;UNTIL=tomorrow; "

/-- 07:00 on 3 January 2025. -/
def thirdMorning : Instant := thirdRun.start

/-- The run with another rule. -/
def runWith (rule : String) : Series := { run with rule := rule }

/-- The runs of these days. -/
def runsOn (days : List Nat) : List Occurrence :=
  days.filterMap fun n => (run.start.onDay? n).bind (Occurrence.ofStart? run)

/-- Of five runs in the loose spelling, clamping leaves the two before the cutoff. -/
theorem clamp_stops_looseRule :
    ∃ text, clampUntil looseRule (Stamp.ofInstant thirdMorning) = .ok text ∧
      (runWith looseRule).expand fiveDays.1 fiveDays.2 [] =
        .ok (runsOn [739251, 739252, 739253, 739254, 739255]) ∧
      (runWith text).expand fiveDays.1 fiveDays.2 [] = .ok (runsOn [739251, 739252]) ∧
      ∀ o ∈ runsOn [739251, 739252], o.start < thirdMorning := by
  have hlast : thirdMorning.shift? (-1000000) =
      some (Instant.ofDay 739253 25199000000 (by decide) (by decide)) := by
    decide +kernel
  obtain ⟨text, hclamp, -, hstops⟩ := clamp_stops looseRule (Stamp.utc_ofInstant thirdMorning) hlast
  have htext : clampUntil looseRule (Stamp.ofInstant thirdMorning) =
      .ok "freq = daily ;X-NOTE;until=20250103T065959Z" := by
    decide +kernel
  obtain rfl := Except.ok.inj (hclamp.symm.trans htext)
  have hkept : (runWith "freq = daily ;X-NOTE;until=20250103T065959Z").expand fiveDays.1 fiveDays.2
      [] = .ok (runsOn [739251, 739252]) := by
    decide +kernel
  exact ⟨_, hclamp, by decide +kernel, hkept, hstops (by decide +kernel) rfl hkept⟩

/-- A count behind a prefix that does not count as one, since an empty part stands before it. -/
def shelteredCount : String := ";RRULE:COUNT=3;FREQ=DAILY"

/-- **The count comes to light** when the text is clamped, and outlives the cutoff: the third occurrence
starts there. -/
theorem count_outlives_clamp :
    (thirdMorning.shift? (-1000000)).isSome = true ∧
      ∃ text kept, clampUntil shelteredCount (Stamp.ofInstant thirdMorning) = .ok text ∧
        (runWith text).expand fiveDays.1 fiveDays.2 [] = .ok kept ∧
        ∃ o ∈ kept, ¬o.start < thirdMorning := by
  refine ⟨by decide +kernel, "RRULE:COUNT=3;FREQ=DAILY;UNTIL=20250103T065959Z",
    runsOn [739251, 739252, 739253], ?_, ?_, ?_⟩ <;> decide +kernel

end Series

end Recurrence
