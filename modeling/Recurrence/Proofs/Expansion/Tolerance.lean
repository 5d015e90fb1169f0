import Recurrence.Proofs.Calendar.Stamp
import Recurrence.Proofs.Expansion.Survivors
import Recurrence.Proofs.Rule.Summary

/-!
# When the tolerant operations fail

Expanding, clamping and describing take any text for a rule, and what they cannot read they pass over.
What remains is the arithmetic of instants: stamps are turned into universal time, which can lie
outside the calendar, and a cutoff is moved back by a second.

An expansion and clamping fail then (`Series.expand_answers`, `clampUntil_answers`), and a description
falls back on a word (`describe_eq_fallback_iff`).  `tolerant_answers` is the account of all three.
-/

namespace Recurrence

/-! ## Expanding -/

theorem eq_outOfRange_of_instantsOf {extra : List Stamp} {e : TimeError}
    (h : instantsOf extra = .error e) : e = .outOfRange := by
  induction extra with
  | nil => cases h
  | cons x extra ih =>
    unfold instantsOf at h
    by_cases hx : x.InCalendar
    · obtain ⟨t, ht⟩ := Stamp.exists_utc_iff.2 hx
      cases hextra : instantsOf extra with
      | error e' =>
        simp only [ht, hextra] at h
        exact ih (hextra.trans h)
      | ok l =>
        simp only [ht, hextra] at h
        cases h
    · simp only [Stamp.utc_of_not_inCalendar hx] at h
      exact (Except.error.inj h).symm

namespace Series

/-- What an expansion turns into universal time has an instant: both ends of the window, and what is
handed over with a window that has a length, unless there is no rule to follow. -/
structure Answers (s : Series) (lower upper : Moment) (extra : List Stamp) : Prop where
  lowerInCalendar : lower.InCalendar
  upperInCalendar : upper.InCalendar
  extraInCalendar : lower.openingMicros < upper.closingMicros → s.rule?.isSome = true →
    ∀ x ∈ extra, x.InCalendar

/-- **An expansion fails for a time outside the calendar, and for nothing else.** -/
theorem expand_answers (s : Series) (lower upper : Moment) (extra : List Stamp) :
    s.Answers lower upper extra ∧ (∃ found, s.expand lower upper extra = .ok found) ∨
      ¬s.Answers lower upper extra ∧ s.expand lower upper extra = .error .outOfRange := by
  by_cases hlower : lower.InCalendar
  case neg =>
    refine .inr ⟨fun h => hlower h.lowerInCalendar, ?_⟩
    unfold expand
    rw [(Moment.bounds_of_not_inCalendar hlower).1]
    rfl
  obtain ⟨l, hl⟩ := (Moment.bounds_of_inCalendar hlower).1
  by_cases hupper : upper.InCalendar
  case neg =>
    refine .inr ⟨fun h => hupper h.upperInCalendar, ?_⟩
    unfold expand
    rw [hl, (Moment.bounds_of_not_inCalendar hupper).2]
    rfl
  obtain ⟨u, hu⟩ := (Moment.bounds_of_inCalendar hupper).2
  have hlt : lower.openingMicros < upper.closingMicros ↔ l < u := by
    rw [← Moment.opening_eq_ok_iff.1 hl, ← Moment.closing_eq_ok_iff.1 hu]
    exact Int.ofNat_lt
  rw [expand_of_bounds hl hu]
  cases hextra : instantsOf extra with
  | ok cancelled =>
    refine .inl ⟨⟨hlower, hupper, fun _ _ x hx => ?_⟩, _, expandBetween_eq_shown s l u hextra⟩
    exact Stamp.exists_utc_iff.1 (exists_instantsOf_iff.1 ⟨_, hextra⟩ x hx)
  | error e =>
    obtain rfl := eq_outOfRange_of_instantsOf hextra
    by_cases hempty : u ≤ l
    · refine .inl ⟨⟨hlower, hupper, fun h => ?_⟩, [], if_pos hempty⟩
      exact absurd (hlt.1 h) (Instant.not_lt.2 hempty)
    cases hrule : s.rule? with
    | none =>
      refine .inl ⟨⟨hlower, hupper, fun _ h => ?_⟩, [], ?_⟩
      · rw [hrule] at h
        exact absurd h nofun
      · unfold expandBetween
        rw [if_neg hempty, hrule]
    | some r =>
      refine .inr ⟨fun h => ?_, expandBetween_of_error hrule (Instant.not_le.1 hempty) hextra⟩
      have hall := h.extraInCalendar (hlt.2 (Instant.not_le.1 hempty)) (by rw [hrule]; rfl)
      obtain ⟨l, hl⟩ := exists_instantsOf_iff.2 fun x hx => Stamp.exists_utc_iff.2 (hall x hx)
      exact absurd (hextra.symm.trans hl) nofun

end Series

/-! ## Clamping -/

/-- The cutoff can be turned into universal time and moved back by a second, or it is not looked at. -/
def Clampable (rule : String) (cutoff : Stamp) : Prop :=
  (TokenList.ofText rule.toList).hasFrequency = true →
    (microsPerSecond : Int) ≤ cutoff.utcMicros ∧ cutoff.utcMicros < calendarMicros

theorem secondBefore_of_le {t : Instant} (h : microsPerSecond ≤ t.micros) :
    ∃ u, secondBefore t = .ok u := by
  obtain ⟨u, hu⟩ := Instant.exists_shift?_neg h
  exact ⟨u, by rw [secondBefore, show (-1000000 : Int) = -(microsPerSecond : Int) from rfl, hu]⟩

theorem secondBefore_of_lt {t : Instant} (h : t.micros < microsPerSecond) :
    secondBefore t = .error .outOfRange := by
  have hnone : t.shift? (-1000000) = none := by
    refine Option.eq_none_iff_forall_ne_some.2 fun u hu => ?_
    have hback : u.micros + 1000000 = t.micros := Instant.shift?_neg_eq_some_iff.1 hu
    simp only [microsPerSecond] at h
    omega
  rw [secondBefore, hnone]

/-- **Clamping fails for a cutoff outside the calendar or in its first second.** -/
theorem clampUntil_answers (rule : String) (cutoff : Stamp) :
    Clampable rule cutoff ∧ (∃ text, clampUntil rule cutoff = .ok text) ∨
      ¬Clampable rule cutoff ∧ clampUntil rule cutoff = .error .outOfRange := by
  unfold Clampable clampUntil
  by_cases hfrequency : (TokenList.ofText rule.toList).hasFrequency = true
  case neg => exact .inl ⟨fun h => absurd h hfrequency, rule, if_neg hfrequency⟩
  simp only [hfrequency, forall_const, if_true]
  by_cases hcutoff : cutoff.InCalendar
  case neg =>
    refine .inr ⟨fun h => hcutoff ⟨?_, h.2⟩, ?_⟩
    · exact Int.le_trans (Int.natCast_nonneg microsPerSecond) h.1
    · rw [Stamp.utc_of_not_inCalendar hcutoff]
      rfl
  obtain ⟨t, ht⟩ := Stamp.exists_utc_iff.2 hcutoff
  rw [ht, ← Stamp.utc_eq_ok_iff.1 ht]
  rcases Nat.lt_or_ge t.micros microsPerSecond with hlt | hle
  · refine .inr ⟨fun h => Nat.not_le.2 hlt (Int.ofNat_le.1 h.1), ?_⟩
    simp only [bind, Except.bind, secondBefore_of_lt hlt]
  · obtain ⟨u, hu⟩ := secondBefore_of_le hle
    refine .inl ⟨⟨Int.ofNat_le.2 hle, ?_⟩, String.ofList
      ((TokenList.ofText rule.toList).clampAt u).toText, ?_⟩
    · rw [Stamp.utc_eq_ok_iff.1 ht]
      exact hcutoff.2
    · simp only [bind, Except.bind, hu]
      rfl

/-! ## Describing -/

theorem render_ne_fallbackText (r : Rule) (t : Instant) : r.render t ≠ fallbackText := by
  intro h
  have hchars := congrArg String.toList h
  rw [Rule.toList_render, Frequency.every, List.append_assoc] at hchars
  have hfirst : 'e' = 'R' := (List.cons.inj hchars).1
  exact absurd hfirst (by decide)

/-- **A description falls back on a word for a text without a rule or a start outside the
calendar.** -/
theorem describe_eq_fallback_iff (rule : String) (anchor : Stamp) :
    describe rule anchor = fallbackText ↔ Rule.decode? rule = none ∨ ¬anchor.InCalendar := by
  unfold describe
  cases hrule : Rule.decode? rule with
  | none => simp
  | some r =>
    by_cases hanchor : anchor.InCalendar
    · obtain ⟨t, ht⟩ := Stamp.exists_utc_iff.2 hanchor
      simp [ht, hanchor, render_ne_fallbackText]
    · simp [Stamp.utc_of_not_inCalendar hanchor, hanchor]

/-! ## All three -/

/-- **What the tolerant operations answer.**  They never fail for the sake of a rule: an expansion
gives occurrences and clamping a text whenever the times that they look at lie in the calendar, a
second behind its start in the case of a cutoff, and otherwise they fail with that.  A description is
always given. -/
theorem tolerant_answers (s : Series) (lower upper : Moment) (extra : List Stamp) (rule : String)
    (cutoff anchor : Stamp) :
    (s.Answers lower upper extra ∧ (∃ found, s.expand lower upper extra = .ok found) ∨
      ¬s.Answers lower upper extra ∧ s.expand lower upper extra = .error .outOfRange) ∧
    (Clampable rule cutoff ∧ (∃ text, clampUntil rule cutoff = .ok text) ∨
      ¬Clampable rule cutoff ∧ clampUntil rule cutoff = .error .outOfRange) ∧
    (describe rule anchor = fallbackText ↔ Rule.decode? rule = none ∨ ¬anchor.InCalendar) :=
  ⟨s.expand_answers lower upper extra, clampUntil_answers rule cutoff,
    describe_eq_fallback_iff rule anchor⟩

/-- A window that opens before the calendar does, and a cutoff at the start of the calendar. -/
theorem edges_fail :
    Series.dailyHour.expand (.stamp Series.beforeCalendar) Series.fourthOfMarch [] =
        .error .outOfRange ∧
      clampUntil Series.dailyHour.rule ⟨Instant.ofDate (Date.ofDay 0 (by decide)), none⟩ =
        .error .outOfRange := by
  constructor <;> decide +kernel

end Recurrence
