import Mathlib.Control.Monad.Basic
import Recurrence.Proofs.Expansion.Ending
import Recurrence.Proofs.Expansion.Reanchor
import Recurrence.Proofs.Expansion.Series
import Recurrence.Proofs.Rule.RoundTrip

/-!
# A clamped series

A rule that is clamped at a cutoff ends with the second before it, and that second is taken whole.  So
two kinds of cutoff are exact (`Rule.ClampsAt`).  At one of the allowed starts, the candidates share
its part of a second, and those up to the second before are those before the cutoff.  At a whole
second this is so for all instants, but then the rule must not have had an ending that the new one
replaces.

At such a cutoff the clamped rule allows the starts before it (`Rule.allowed_clamped`), in every window
in which the starts of the rule can be had (`Rule.starts_clamped`), and the clamped series has the
occurrences that start before it (`Series.expand_clamped`).
-/

namespace Recurrence

namespace Rule

variable {r : Rule} {a c last : Instant}

/-- A cutoff at which clamping is exact: an allowed start or, without an end, a whole second. -/
def ClampsAt (r : Rule) (a c : Instant) : Prop :=
  c ∈ r.allowed a ∨ r.ending = .never ∧ c.microOfSecond = 0

/-- The second before a cutoff takes in what comes before the second that holds the cutoff. -/
theorem reaches_before_second (hlast : c.shift? (-1000000) = some last) (t : Instant) :
    (Ending.on last.second).reaches t = decide (t < c.truncate) := by
  have hback : last.micros + 1000000 = c.micros := Instant.shift?_neg_eq_some_iff.1 hlast
  show decide (t.micros / 1000000 ≤ last.micros / 1000000) =
    decide (t.micros < c.micros - c.micros % 1000000)
  rw [decide_eq_decide]
  omega

theorem reaches_before_whole_second (hlast : c.shift? (-1000000) = some last)
    (hwhole : c.microOfSecond = 0) (t : Instant) :
    (Ending.on last.second).reaches t = decide (t < c) := by
  have htruncate : c.truncate = c := Instant.ext (congrArg (c.micros - ·) hwhole)
  rw [reaches_before_second hlast, htruncate]

/-- **The allowed starts of a clamped rule are those before the cutoff.** -/
theorem allowed_clamped (hc : r.ClampsAt a c) (hlast : c.shift? (-1000000) = some last) :
    (r.withEnding (.on last.second)).allowed a = (r.allowed a).filter fun t => decide (t < c) := by
  rcases hc with hc | ⟨hnever, hwhole⟩
  · obtain ⟨e, he⟩ := minus?_isSome hc
    have hbefore : ((r.before a c).filter fun t => decide (t < c)) = r.before a c :=
      List.filter_eq_self.2 fun t ht => decide_eq_true (mem_before.1 ht).2
    have hfrom : (((r.withEnding e).allowed c).filter fun t => decide (t < c)) = [] := by
      apply List.filter_eq_nil_iff.2
      intro t ht hlt
      have hle : c ≤ t := (Instant.mem_candidates.1 (mem_candidates_of_mem_allowed ht)).2.2
      exact Instant.not_le.2 (of_decide_eq_true hlt) hle
    rw [allowed_earlier (mem_candidates_of_mem_allowed hc) hlast, allowed_eq_append hc he,
      List.filter_append, hbefore, hfrom, List.append_nil]
  · rw [allowed_never hnever]
    show (r.candidates a).filter (Ending.on last.second).reaches = _
    exact List.filter_congr fun t _ => reaches_before_whole_second hlast hwhole t

/-- **Where the starts of a rule can be had, those of the clamped rule are the ones before the
cutoff.** -/
theorem starts_clamped {lower upper : Instant} {starts : List Instant} (hc : r.ClampsAt a c)
    (hlast : c.shift? (-1000000) = some last)
    (h : r.starts a (Stamp.ofInstant lower) (Stamp.ofInstant upper) = .ok starts) :
    (r.withEnding (.on last.second)).starts a (Stamp.ofInstant lower) (Stamp.ofInstant upper) =
      .ok (starts.filter fun t => decide (t < c)) := by
  obtain ⟨clamped, hclamped⟩ : ∃ clamped, (r.withEnding (.on last.second)).starts a
      (Stamp.ofInstant lower) (Stamp.ofInstant upper) = .ok clamped := by
    rcases hc with hc | ⟨hnever, -⟩
    · exact ⟨_, starts_eq_ok_iff.2 ⟨(starts_eq_ok_iff.1 h).1,
        not_runsPast_earlier (mem_candidates_of_mem_allowed hc) hlast, rfl⟩⟩
    · rw [← withEnding_of_ending hnever] at h
      exact exists_starts h
  rw [hclamped, starts_eq_filter hclamped, starts_eq_filter h, allowed_clamped hc hlast,
    List.filter_filter, List.filter_filter]
  simp only [Bool.and_comm]

end Rule

namespace Series

/-- Instances are kept by their starts. -/
theorem filter_start_filterMap (s : Series) (p : Instant → Bool) (l : List Instant) :
    (l.filterMap (Occurrence.ofStart? s)).filter (fun o => p o.start) =
      (l.filter p).filterMap (Occurrence.ofStart? s) := by
  rw [List.filter_filterMap, List.filterMap_filter]
  refine congrArg (List.filterMap · l) (funext fun t => ?_)
  cases ht : Occurrence.ofStart? s t with
  | none => simp
  | some o =>
    obtain ⟨-, rfl, -⟩ := Occurrence.ofStart?_eq_some_iff.1 ht
    by_cases hp : p o.start <;> simp [hp]

/-- **Clamping is exact.**  The rule of a series is clamped at one of its starts, or at a whole second if
it has no end.  Over any window in which the series expands without an error, the clamped series has
the occurrences that start before the cutoff. -/
theorem expand_clamped {s : Series} {r : Rule} {cutoff : Stamp} {c last : Instant} (hr : r.Storable)
    (hrule : s.rule = r.encode) (hcutoff : cutoff.utc = .ok c)
    (hlast : c.shift? (-1000000) = some last) (hc : r.ClampsAt s.start c) :
    ∃ rule, clampUntil s.rule cutoff = .ok rule ∧
      ∀ {first final : Moment} {extra : List Stamp} {found : List Occurrence},
        s.ExpandsTo first final extra found →
          { s with rule := rule }.ExpandsTo first final extra
            (found.filter fun o => decide (o.start < c)) := by
  refine ⟨_, hrule ▸ Rule.clampUntil_encode r hcutoff hlast, ?_⟩
  intro first final extra found hfound
  have hdecode : s.rule? = some r := by
    rw [Series.rule?, hrule]
    exact Rule.decode?_encode hr
  have hclamped : Series.rule? { s with rule := (r.withEnding (.on last.second)).encode } =
      some (r.withEnding (.on last.second)) :=
    Rule.decode?_encode (Rule.storable_withEnding_on hr _)
  obtain ⟨lower, upper, hlower, hupper, hcases⟩ := (expandsTo_iff hdecode).1 hfound
  refine (expandsTo_iff hclamped).2 ⟨lower, upper, hlower, hupper, ?_⟩
  rcases hcases with ⟨hle, rfl⟩ | ⟨hlt, cancelled, starts, hextra, hstarts, rfl⟩
  · exact .inl ⟨hle, rfl⟩
  · refine .inr ⟨hlt, cancelled, _, hextra, Rule.starts_clamped hc hlast hstarts, ?_⟩
    rw [filter_start_filterMap s fun t => decide (t < c), List.filter_filter, List.filter_filter]
    simp only [Bool.and_comm]
    rfl

/-- Mondays and Thursdays, six times. -/
def mondaysThursdays : Rule :=
  ⟨.weekly (some ⟨[.monday, .thursday], by decide, by decide⟩), Positive.one, .after ⟨6, by decide⟩⟩

/-- An hour from 10:30:00.000005 on, beginning on 5 January 2026 and without 8 January. -/
def standUp : Series where
  id := "stand-up"
  start := Instant.ofDay 739620 37800000005 (by decide) (by decide)
  finish := Instant.ofDay 739620 41400000005 (by decide) (by decide)
  rule := mondaysThursdays.encode
  exceptions := [Instant.ofDay 739623 37800000005 (by decide) (by decide)]

/-- The start of 15 January 2026, on a clock that is an hour ahead. -/
def fourthStandUp : Stamp :=
  ⟨Instant.ofDay 739630 41400000005 (by decide) (by decide), some ⟨3600000000, by decide, by decide⟩⟩

/-- 5 January 2026, as a day. -/
def fifthOfJanuary : Moment := .day (Date.ofDay 739620 (by decide))

/-- 31 January 2026, as a day. -/
def endOfJanuary : Moment := .day (Date.ofDay 739646 (by decide))

/-- Clamped at its fourth start, the stand-up of 15 January is gone with those after it. -/
theorem expand_clamped_standUp :
    ∃ rule found, clampUntil standUp.rule fourthStandUp = .ok rule ∧
      standUp.ExpandsTo fifthOfJanuary endOfJanuary [] found ∧
      { standUp with rule := rule }.ExpandsTo fifthOfJanuary endOfJanuary []
        (found.filter fun o => decide
          (o.start < Instant.ofDay 739630 37800000005 (by decide) (by decide))) ∧
      found.map (·.start.day) = [739620, 739627, 739630, 739634, 739637] := by
  have hstorable : mondaysThursdays.Storable := ⟨by decide, by rintro n ⟨⟩; decide⟩
  have hcutoff : fourthStandUp.utc =
      .ok (Instant.ofDay 739630 37800000005 (by decide) (by decide)) := by
    decide +kernel
  have hlast : (Instant.ofDay 739630 37800000005 (by decide) (by decide)).shift? (-1000000) =
      some (Instant.ofDay 739630 37799000005 (by decide) (by decide)) := by
    decide +kernel
  have hstarts : mondaysThursdays.starts standUp.start
      (Stamp.ofInstant (Instant.ofDay 739620 0 (by decide) (by decide)))
      (Stamp.ofInstant (Instant.ofDay 739646 86399999999 (by decide) (by decide))) =
        .ok ([739620, 739623, 739627, 739630, 739634, 739637].filterMap standUp.start.onDay?) := by
    decide +kernel
  have hstart : Instant.ofDay 739630 37800000005 (by decide) (by decide) ∈
      mondaysThursdays.allowed standUp.start :=
    Rule.mem_allowed_of_starts hstarts (by decide +kernel)
  have hrule : standUp.rule? = some mondaysThursdays := Rule.decode?_encode hstorable
  have hfound : standUp.ExpandsTo fifthOfJanuary endOfJanuary []
      ([739620, 739627, 739630, 739634, 739637].filterMap fun n =>
        (standUp.start.onDay? n).bind (Occurrence.ofStart? standUp)) := by
    refine (expandsTo_iff hrule).2 ⟨_, _, ?_, ?_, .inr ⟨?_, [], _, rfl, hstarts, ?_⟩⟩ <;>
      decide +kernel
  obtain ⟨rule, hclamp, hclamped⟩ := expand_clamped hstorable rfl hcutoff hlast (.inl hstart)
  exact ⟨rule, _, hclamp, hfound, hclamped hfound, by decide +kernel⟩

end Series

end Recurrence
