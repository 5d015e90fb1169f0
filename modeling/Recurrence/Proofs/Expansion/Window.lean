import Recurrence.Proofs.Expansion.Clamp
import Recurrence.Proofs.Expansion.Daily
import Recurrence.Proofs.Expansion.Monthly
import Recurrence.Proofs.Expansion.Yearly

/-!
# Windows inside windows

A series whose starts can be had in a window has them in every window inside it, and there they are
those of the wider window that lie in the narrower one (`Rule.starts_within`); so it is for the starts
that are shown (`Series.shown_within`).

An expansion that fails shows nothing.  It fails where the window opens within the anchor's part of a
second after the start of the calendar, and where the search gets to a week that runs past the end of
it (`Series.cases_of_not_followed`).  Then the wider window hides what the narrower one shows, as at
the end of the year 9999 (`Series.lastFriday_hides`), and the expansions fit together only where there
is nothing to hide (`Series.expand_within_iff`).
-/

namespace Recurrence

namespace Instant

/-- Whether an instant lies between two others, both included. -/
def within (lower upper t : Instant) : Bool := decide (lower ≤ t) && decide (t ≤ upper)

theorem within_eq_true_iff {lower upper t : Instant} :
    within lower upper t = true ↔ lower ≤ t ∧ t ≤ upper := by
  rw [within, Bool.and_eq_true, decide_eq_true_iff, decide_eq_true_iff]

end Instant

/-! ## The starts of a rule in two windows -/

namespace Rule

variable {r : Rule} {anchor lower upper lower' upper' : Instant}

/-- Only the weeks of a rule may run past the end of the calendar. -/
theorem exists_weekly_of_runsPast (h : r.RunsPast anchor upper) :
    ∃ days, r.pattern = .weekly days := by
  obtain ⟨n, hn, hbeyond⟩ := h.beyond
  cases hp : r.pattern with
  | daily => exact absurd (days_daily_lt hp anchor n hn) (Nat.not_lt.2 hbeyond)
  | weekly days => exact ⟨days, rfl⟩
  | monthly mode => exact absurd (days_monthly_lt hp anchor n hn) (Nat.not_lt.2 hbeyond)
  | yearly mode => exact absurd (days_yearly_lt hp anchor n hn) (Nat.not_lt.2 hbeyond)

/-- Looking further gets past the end of the calendar as well. -/
theorem RunsPast.mono (h : r.RunsPast anchor upper) (hle : upper ≤ upper') :
    r.RunsPast anchor upper' := by
  refine ⟨fun t ht => ?_, h.counted, h.beyond⟩
  obtain ⟨hreached, hupper⟩ := h.reached t ht
  exact ⟨hreached, Nat.le_trans hupper hle⟩

/-- **Starts that can be had in a window can be had in every window inside it.** -/
theorem starts_within {starts : List Instant} (hlower : lower' ≤ lower) (hlt : lower < upper)
    (hupper : upper ≤ upper')
    (h : r.starts anchor (Stamp.ofInstant lower') (Stamp.ofInstant upper') = .ok starts) :
    r.starts anchor (Stamp.ofInstant lower) (Stamp.ofInstant upper) =
      .ok (starts.filter (Instant.within lower upper)) := by
  obtain ⟨⟨hfirst, -⟩, hends, rfl⟩ := starts_eq_ok_iff.1 h
  have hopens : anchor.microOfSecond ≤ lower.micros := Nat.le_trans hfirst hlower
  have hcloses : anchor.microOfSecond ≤ upper.micros := Nat.le_trans hopens (Nat.le_of_lt hlt)
  refine starts_eq_ok_iff.2 ⟨⟨hopens, hcloses⟩, fun hpast => hends (hpast.mono hupper), ?_⟩
  rw [List.filter_filter]
  refine List.filter_congr fun t _ => Bool.eq_iff_iff.2 ?_
  rw [Bool.and_eq_true, Instant.within_eq_true_iff, Bool.and_eq_true, decide_eq_true_iff,
    decide_eq_true_iff, Bool.and_eq_true, decide_eq_true_iff, decide_eq_true_iff]
  constructor
  · rintro ⟨⟨hl, hu⟩, -⟩
    exact ⟨hl, hu⟩
  · rintro ⟨hl, hu⟩
    exact ⟨⟨hl, hu⟩, Nat.le_trans hlower hl, Nat.le_trans hu hupper⟩

end Rule

namespace Series

variable {s : Series} {r : Rule} {lower upper lower' upper' : Instant} {extra : List Stamp}

/-! ## The starts that are shown in two windows -/

/-- The rule of a series, if it has one, has its starts between two instants. -/
def Followed (s : Series) (lower upper : Instant) : Prop :=
  ∀ r, s.rule? = some r →
    ∃ starts, r.starts s.start (Stamp.ofInstant lower) (Stamp.ofInstant upper) = .ok starts

/-- **When a rule can be followed.** -/
theorem followed_iff (hrule : s.rule? = some r) :
    s.Followed lower upper ↔
      (s.start.microOfSecond ≤ lower.micros ∧ s.start.microOfSecond ≤ upper.micros) ∧
        ¬r.RunsPast s.start upper := by
  constructor
  · intro h
    obtain ⟨starts, hstarts⟩ := h r hrule
    obtain ⟨hshift, hends, -⟩ := Rule.starts_eq_ok_iff.1 hstarts
    exact ⟨hshift, hends⟩
  · rintro ⟨hshift, hends⟩ r' hrule'
    obtain rfl : r' = r := Option.some.inj (hrule'.symm.trans hrule)
    exact ⟨_, Rule.starts_eq_ok_iff.2 ⟨hshift, hends, rfl⟩⟩

/-- **Where a rule cannot be followed.**  The window opens before the part of a second that the anchor
has, or the search gets to a week that the calendar does not have to its end. -/
theorem cases_of_not_followed (hlt : lower < upper) (h : ¬s.Followed lower upper) :
    lower.micros < s.start.microOfSecond ∨
      ∃ r days, s.rule? = some r ∧ r.pattern = .weekly days ∧ r.RunsPast s.start upper := by
  cases hrule : s.rule? with
  | none => exact absurd (fun r hr => absurd (hr.symm.trans hrule) (Option.some_ne_none r)) h
  | some r =>
    by_cases hopens : s.start.microOfSecond ≤ lower.micros
    · have hcloses : s.start.microOfSecond ≤ upper.micros := Nat.le_trans hopens (Nat.le_of_lt hlt)
      have hpast : r.RunsPast s.start upper := by
        by_contra hends
        exact h ((followed_iff hrule).2 ⟨⟨hopens, hcloses⟩, hends⟩)
      obtain ⟨days, hdays⟩ := Rule.exists_weekly_of_runsPast hpast
      exact .inr ⟨r, days, rfl, hdays, hpast⟩
    · exact .inl (Nat.lt_of_not_le hopens)

theorem shown_of_not_followed (h : ¬s.Followed lower upper) (cancelled : List Instant) :
    s.shown lower upper cancelled = [] := by
  unfold shown
  split
  · rfl
  · cases hrule : s.rule? with
    | none => rfl
    | some r =>
      cases hstarts : r.starts s.start (Stamp.ofInstant lower) (Stamp.ofInstant upper) with
      | error e => simp only [hstarts]
      | ok starts =>
        refine absurd (fun r' hrule' => ?_) h
        obtain rfl : r' = r := Option.some.inj (hrule'.symm.trans hrule)
        exact ⟨starts, hstarts⟩

/-- **What is shown in a window inside another** is what the other shows there. -/
theorem shown_within (hlower : lower' ≤ lower) (hlt : lower < upper) (hupper : upper ≤ upper')
    (h : s.Followed lower' upper') (cancelled : List Instant) :
    s.shown lower upper cancelled =
      (s.shown lower' upper' cancelled).filter (Instant.within lower upper) := by
  have hlt' : lower' < upper' := Nat.lt_of_lt_of_le (Nat.lt_of_le_of_lt hlower hlt) hupper
  unfold shown
  rw [if_neg (Instant.not_le.2 hlt), if_neg (Instant.not_le.2 hlt')]
  cases hrule : s.rule? with
  | none => rfl
  | some r =>
    obtain ⟨starts, hstarts⟩ := h r hrule
    simp only [hstarts, Rule.starts_within hlower hlt hupper hstarts]
    exact List.filter_comm _ _ _

/-! ## Expansions over two windows -/

/-- **Windows compose where nothing is hidden.**  The expansion over a window gives what the expansion
over a wider one gives inside it, unless the rule cannot be followed over the wider one, which then
shows nothing, and there is something to be seen.  Any other rule than a weekly one can be followed in
all windows but those that open in the first second of the calendar. -/
theorem expand_within_iff {first last first' last' : Moment} (hfirst : first.opening = .ok lower)
    (hlast : last.closing = .ok upper) (hfirst' : first'.opening = .ok lower')
    (hlast' : last'.closing = .ok upper') (hlt : lower < upper) (hlower : lower' ≤ lower)
    (hupper : upper ≤ upper') (extra : List Stamp) :
    (s.expand first last extra =
          (s.expand first' last' extra).map
            (List.filter fun o => Instant.within lower upper o.start) ↔
        s.Followed lower' upper' ∨ ∀ found, s.expand first last extra = .ok found → found = []) ∧
      (¬s.Followed lower' upper' → lower'.micros < s.start.microOfSecond ∨
        ∃ r days, s.rule? = some r ∧ r.pattern = .weekly days ∧ r.RunsPast s.start upper') := by
  have hlt' : lower' < upper' := Nat.lt_of_lt_of_le (Nat.lt_of_le_of_lt hlower hlt) hupper
  refine ⟨?_, cases_of_not_followed hlt'⟩
  rw [expand_of_bounds hfirst hlast, expand_of_bounds hfirst' hlast']
  cases hextra : instantsOf extra with
  | error e =>
    cases hrule : s.rule? with
    | none =>
      have hnone : ∀ r, s.rule? ≠ some r := by simp [hrule]
      have hfollowed : s.Followed lower' upper' := fun r hr => absurd hr (hnone r)
      refine ⟨fun _ => .inl hfollowed, fun _ => ?_⟩
      unfold expandBetween
      rw [if_neg (Instant.not_le.2 hlt), if_neg (Instant.not_le.2 hlt'), hrule]
      rfl
    | some r =>
      rw [expandBetween_of_error hrule hlt hextra, expandBetween_of_error hrule hlt' hextra]
      exact ⟨fun _ => .inr nofun, fun _ => rfl⟩
  | ok cancelled =>
    rw [expandBetween_eq_shown s lower upper hextra, expandBetween_eq_shown s lower' upper' hextra]
    show Except.ok _ = Except.ok _ ↔ _
    rw [filter_start_filterMap s (Instant.within lower upper)]
    by_cases hfollowed : s.Followed lower' upper'
    · rw [shown_within hlower hlt hupper hfollowed]
      exact ⟨fun _ => .inl hfollowed, fun _ => rfl⟩
    · rw [shown_of_not_followed hfollowed]
      constructor
      · intro h
        refine .inr fun found hfound => ?_
        rw [← Except.ok.inj hfound, Except.ok.inj h]
        rfl
      · intro h
        rw [h.resolve_left hfollowed _ rfl]
        rfl

/-- 21 January 2026, as a day. -/
def twentyFirstOfJanuary : Moment := .day (Date.ofDay 739636 (by decide))

/-- From its fourth start to the evening of 21 January the stand-up has two of its January
occurrences; the window opens at the first of them. -/
theorem expand_within_iff_standUp :
    ∃ lower upper lower' upper', (Moment.stamp fourthStandUp).opening = .ok lower ∧
      twentyFirstOfJanuary.closing = .ok upper ∧ fifthOfJanuary.opening = .ok lower' ∧
      endOfJanuary.closing = .ok upper' ∧ standUp.Followed lower' upper' ∧
      (standUp.expand (.stamp fourthStandUp) twentyFirstOfJanuary []).map
        (List.map fun o => o.start.day) = .ok [739630, 739634] ∧
      standUp.expand (.stamp fourthStandUp) twentyFirstOfJanuary [] =
        (standUp.expand fifthOfJanuary endOfJanuary []).map
          (List.filter fun o => Instant.within lower upper o.start) := by
  have hstandUp : standUp.rule? = some mondaysThursdays :=
    Rule.decode?_encode ⟨by decide, by rintro n ⟨⟩; decide⟩
  have hfirst : (Moment.stamp fourthStandUp).opening =
      .ok (Instant.ofDay 739630 37800000005 (by decide) (by decide)) := by
    decide +kernel
  have hlast : twentyFirstOfJanuary.closing =
      .ok (Instant.ofDay 739636 86399999999 (by decide) (by decide)) := by
    decide +kernel
  have hfirst' : fifthOfJanuary.opening = .ok (Instant.ofDay 739620 0 (by decide) (by decide)) := by
    decide +kernel
  have hlast' : endOfJanuary.closing =
      .ok (Instant.ofDay 739646 86399999999 (by decide) (by decide)) := by
    decide +kernel
  have hstarts : mondaysThursdays.starts standUp.start
      (Stamp.ofInstant (Instant.ofDay 739620 0 (by decide) (by decide)))
      (Stamp.ofInstant (Instant.ofDay 739646 86399999999 (by decide) (by decide))) =
        .ok ([739620, 739623, 739627, 739630, 739634, 739637].filterMap standUp.start.onDay?) := by
    decide +kernel
  have hfollowed : standUp.Followed (Instant.ofDay 739620 0 (by decide) (by decide))
      (Instant.ofDay 739646 86399999999 (by decide) (by decide)) := by
    intro r hrule
    obtain rfl : r = mondaysThursdays := Option.some.inj (hrule.symm.trans hstandUp)
    exact ⟨_, hstarts⟩
  refine ⟨_, _, _, _, hfirst, hlast, hfirst', hlast', hfollowed, by decide +kernel, ?_⟩
  exact (expand_within_iff hfirst hlast hfirst' hlast' (by decide) (by decide) (by decide) []).1.2
    (.inl hfollowed)

/-! ## A window that hides what is in it -/

/-- Fridays and Saturdays. -/
def fridaysSaturdays : Rule :=
  ⟨.weekly (some ⟨[.friday, .saturday], by decide, by decide⟩), Positive.one, .never⟩

/-- An hour from 06:45 on, the first on 24 December 9999, which is a Friday. -/
def lastFridays : Series where
  id := "run"
  start := Instant.ofDay 3652051 24300000000 (by decide) (by decide)
  finish := Instant.ofDay 3652051 27900000000 (by decide) (by decide)
  rule := fridaysSaturdays.encode
  exceptions := []

/-- 24 December 9999, as a day. -/
def lastChristmasEve : Moment := .day (Date.ofDay 3652051 (by decide))

/-- 30 December 9999, as a day. -/
def lastThursday : Moment := .day (Date.ofDay 3652057 (by decide))

/-- 31 December 9999, as a day. -/
def lastFriday : Moment := .day (Date.ofDay 3652058 (by decide))

/-- Up to the Thursday there are two occurrences.  With the Friday, the search goes on to a Saturday
that the calendar does not have, and nothing is shown. -/
theorem lastFriday_hides :
    ∃ lower upper upper', lastChristmasEve.opening = .ok lower ∧ lastThursday.closing = .ok upper ∧
      lastFriday.closing = .ok upper' ∧ lower < upper ∧ upper ≤ upper' ∧
      (lastFridays.expand lastChristmasEve lastThursday []).map (List.map fun o => o.start.day) =
        .ok [3652051, 3652052] ∧
      lastFridays.expand lastChristmasEve lastFriday [] = .ok [] ∧
      lastFridays.expand lastChristmasEve lastThursday [] ≠
        (lastFridays.expand lastChristmasEve lastFriday []).map
          (List.filter fun o => Instant.within lower upper o.start) := by
  refine ⟨_, _, _, rfl, rfl, rfl, ?_, ?_, ?_, ?_, ?_⟩ <;> decide +kernel

end Series

end Recurrence
