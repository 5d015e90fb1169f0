import Mathlib.Data.List.Basic
import Recurrence.Proofs.Expansion.Clamp

/-!
# Clamping behind the end

Clamping gives a rule a new ending and does not look at the old one.  Behind the end of a series it
makes the series longer: `Series.run_revived` is a series of two days that has three after it is
clamped.

What the old ending allows can be told from each candidate (`Rule.grants`): a count is used up by the
candidates before it.  So the series and the clamped series have the same occurrences among those that
the old ending grants and that start before the second of the cutoff, and no other occurrence of one
belongs to the other (`Series.Overlap`, `Series.overlap_of_clamped`).  In particular the clamped series
adds those of its occurrences that the old ending does not grant, and no others
(`Series.clamp_overlaps`).
-/

namespace Recurrence

namespace Rule

variable {r : Rule} {a c last : Instant}

/-- Whether the ending of a rule allows a candidate: of a count, each candidate before it has used up
one. -/
def grants (r : Rule) (a t : Instant) : Bool :=
  match r.ending with
  | .never => true
  | .after n => decide ((r.before a t).length < n.1)
  | .on s => decide (t.micros < s.instant.micros + microsPerSecond)

/-- **The allowed starts are the candidates that the ending grants.** -/
theorem allowed_eq_filter (r : Rule) (a : Instant) :
    r.allowed a = (r.candidates a).filter (r.grants a) := by
  cases h : r.ending with
  | never =>
    have hgrants : r.grants a = fun _ => true := funext fun t => by rw [grants, h]
    rw [allowed_never h, hgrants]
    exact (List.filter_eq_self.2 fun _ _ => rfl).symm
  | after n =>
    have hgrants : r.grants a = fun t => decide ((r.before a t).length < n.1) :=
      funext fun t => by rw [grants, h]
    rw [allowed_after h, hgrants]
    exact take_eq_filter Instant.lt_irrefl (fun _ _ => Instant.lt_asymm) (r.candidates_sorted a) n.1
  | on s =>
    have hgrants : r.grants a = fun t => decide (t.micros < s.instant.micros + microsPerSecond) :=
      funext fun t => by rw [grants, h]
    rw [allowed_on h, hgrants]

theorem grants_of_mem_allowed {t : Instant} (ht : t ∈ r.allowed a) : r.grants a t = true := by
  rw [allowed_eq_filter] at ht
  exact (List.mem_filter.1 ht).2

theorem allowed_before_second (hlast : c.shift? (-1000000) = some last) :
    (r.withEnding (.on last.second)).allowed a =
      (r.candidates a).filter fun t => decide (t < c.truncate) := by
  rw [← funext (reaches_before_second hlast)]
  rfl

theorem lt_of_mem_allowed_clamped {t : Instant} (hlast : c.shift? (-1000000) = some last)
    (ht : t ∈ (r.withEnding (.on last.second)).allowed a) : t < c.truncate := by
  rw [allowed_before_second hlast] at ht
  exact of_decide_eq_true (List.mem_filter.1 ht).2

variable {lower upper : Stamp} {starts clamped : List Instant}

/-- **What the starts of a rule and those of the clamped rule share**: those that the old ending grants
and that come before the second of the cutoff. -/
theorem filter_grants_clamped (hlast : c.shift? (-1000000) = some last)
    (h : r.starts a lower upper = .ok starts)
    (hclamped : (r.withEnding (.on last.second)).starts a lower upper = .ok clamped) :
    clamped.filter (r.grants a) = starts.filter fun t => decide (t < c.truncate) := by
  rw [starts_eq_filter h, starts_eq_filter hclamped, allowed_before_second hlast, allowed_eq_filter]
  simp only [List.filter_filter, Bool.and_assoc, Bool.and_left_comm, Bool.and_comm]

end Rule

namespace Series

/-- The occurrences of a clamped series beside those of the whole.  The whole has those that its ending
grants, the clamped series those before the cut, and they share all that are both. -/
structure Overlap (r : Rule) (anchor cut : Instant) (whole clamped : List Occurrence) : Prop where
  granted : ∀ o ∈ whole, r.grants anchor o.start = true
  early : ∀ o ∈ clamped, o.start < cut
  shared : (clamped.filter fun o => r.grants anchor o.start) =
    whole.filter fun o => decide (o.start < cut)

namespace Overlap

variable {r : Rule} {anchor cut : Instant} {whole clamped : List Occurrence} {o : Occurrence}

theorem nil (r : Rule) (anchor cut : Instant) : Overlap r anchor cut [] [] :=
  ⟨fun _ h => absurd h List.not_mem_nil, fun _ h => absurd h List.not_mem_nil, rfl⟩

/-- An occurrence of the clamped series is one of the whole if the old ending grants it. -/
theorem mem_iff (h : Overlap r anchor cut whole clamped) (ho : o ∈ clamped) :
    o ∈ whole ↔ r.grants anchor o.start = true := by
  refine ⟨h.granted o, fun hgrants => ?_⟩
  have hshared : o ∈ clamped.filter fun o => r.grants anchor o.start :=
    List.mem_filter.2 ⟨ho, hgrants⟩
  rw [h.shared] at hshared
  exact (List.mem_filter.1 hshared).1

/-- Both have the same occurrences if the clamped series adds none and the whole has none from the
cut on. -/
theorem eq_iff (h : Overlap r anchor cut whole clamped) :
    clamped = whole ↔
      (∀ o ∈ clamped, r.grants anchor o.start = true) ∧ ∀ o ∈ whole, o.start < cut := by
  constructor
  · rintro rfl
    exact ⟨h.granted, h.early⟩
  · rintro ⟨hgranted, hearly⟩
    have hshared := h.shared
    rwa [List.filter_eq_self.2 hgranted,
      List.filter_eq_self.2 fun o ho => decide_eq_true (hearly o ho)] at hshared

end Overlap

variable {s : Series} {r : Rule} {c last : Instant} {text : String} {kept cancelled : List Instant}
  {first final : Moment} {extra : List Stamp} {found clamped : List Occurrence}

/-- The instances of two lists of starts overlap as the starts do. -/
theorem overlap_filterMap {starts starts' : List Instant} {lower upper : Stamp}
    (hlast : c.shift? (-1000000) = some last)
    (hstarts : r.starts s.start lower upper = .ok starts)
    (hstarts' : (r.withEnding (.on last.second)).starts s.start lower upper = .ok starts')
    (hkept : ∀ t, t < c → kept.contains t = cancelled.contains t) :
    Overlap r s.start c.truncate
      ((starts.filter fun t => !cancelled.contains t).filterMap (Occurrence.ofStart? s))
      ((starts'.filter fun t => !kept.contains t).filterMap (Occurrence.ofStart? s)) := by
  have hearly : ∀ t ∈ starts', t < c.truncate := fun t ht =>
    Rule.lt_of_mem_allowed_clamped hlast (Rule.mem_allowed_of_starts hstarts' ht)
  refine ⟨fun o ho => ?_, fun o ho => ?_, ?_⟩
  · have hstart := (List.mem_filter.1 (start_mem_of_mem_filterMap ho)).1
    exact Rule.grants_of_mem_allowed (Rule.mem_allowed_of_starts hstarts hstart)
  · exact hearly o.start (List.mem_filter.1 (start_mem_of_mem_filterMap ho)).1
  · have hcancelled : (starts'.filter fun t => !kept.contains t) =
        starts'.filter fun t => !cancelled.contains t := by
      refine List.filter_congr fun t ht => ?_
      have hlt : t < c := Nat.lt_of_lt_of_le (hearly t ht) (Nat.sub_le _ _)
      rw [hkept t hlt]
    rw [filter_start_filterMap s (r.grants s.start),
      filter_start_filterMap s fun t => decide (t < c.truncate), hcancelled,
      List.filter_comm, Rule.filter_grants_clamped hlast hstarts hstarts', List.filter_comm]

/-- **A series and the clamped series share what both bounds let through**, where the clamped series
has the same cancelled starts before the cutoff. -/
theorem overlap_of_clamped (hrule : s.rule? = some r)
    (htext : Rule.decode? text = some (r.withEnding (.on last.second)))
    (hlast : c.shift? (-1000000) = some last)
    (hkept : ∀ t, t < c → ∀ extra, (kept ++ extra).contains t = (s.exceptions ++ extra).contains t)
    (hfound : s.ExpandsTo first final extra found)
    (hclamped : { s with rule := text, exceptions := kept }.ExpandsTo first final extra clamped) :
    Overlap r s.start c.truncate found clamped := by
  have hrule' : Series.rule? { s with rule := text, exceptions := kept } =
      some (r.withEnding (.on last.second)) := htext
  obtain ⟨lower, upper, hlower, hupper, hcases⟩ := (expandsTo_iff hrule).1 hfound
  obtain ⟨lower', upper', hlower', hupper', hcases'⟩ := (expandsTo_iff hrule').1 hclamped
  have hlowers : lower' = lower := Except.ok.inj (hlower'.symm.trans hlower)
  have huppers : upper' = upper := Except.ok.inj (hupper'.symm.trans hupper)
  rw [hlowers, huppers] at hcases'
  rcases hcases with ⟨hle, rfl⟩ | ⟨hlt, cancelled, starts, hextra, hstarts, rfl⟩
  · rcases hcases' with ⟨-, rfl⟩ | ⟨hlt, -⟩
    · exact Overlap.nil r s.start c.truncate
    · exact absurd hlt (Instant.not_lt.2 hle)
  · rcases hcases' with ⟨hle, -⟩ | ⟨-, cancelled', starts', hextra', hstarts', rfl⟩
    · exact absurd hlt (Instant.not_lt.2 hle)
    · have hsame : cancelled' = cancelled := Except.ok.inj (hextra'.symm.trans hextra)
      rw [hsame]
      exact overlap_filterMap hlast hstarts hstarts' fun t ht => hkept t ht cancelled

/-- **What clamping adds.**  Over any window in which both expand without an error, the clamped series
shares with the series the occurrences that the old ending grants and that start before the second of
the cutoff.  An occurrence of the clamped series belongs to the series only if the old ending grants
it. -/
theorem clamp_overlaps {cutoff : Stamp} (hr : r.Storable) (hrule : s.rule = r.encode)
    (hcutoff : cutoff.utc = .ok c) (hlast : c.shift? (-1000000) = some last) :
    ∃ rule, clampUntil s.rule cutoff = .ok rule ∧
      ∀ {first final : Moment} {extra : List Stamp} {found clamped : List Occurrence},
        s.ExpandsTo first final extra found →
        { s with rule := rule }.ExpandsTo first final extra clamped →
          Overlap r s.start c.truncate found clamped ∧
            ∀ o ∈ clamped, o ∈ found ↔ r.grants s.start o.start = true := by
  refine ⟨_, hrule ▸ Rule.clampUntil_encode r hcutoff hlast, ?_⟩
  intro first final extra found clamped hfound hclamped
  have hdecode : s.rule? = some r := by
    rw [Series.rule?, hrule]
    exact Rule.decode?_encode hr
  have htext := Rule.decode?_encode (Rule.storable_withEnding_on hr last.second)
  have hoverlap : Overlap r s.start c.truncate found clamped :=
    overlap_of_clamped hdecode htext hlast (fun _ _ _ => rfl) hfound hclamped
  exact ⟨hoverlap, fun o ho => hoverlap.mem_iff ho⟩

/-- The start of February 2026. -/
def firstOfFebruary : Instant := Instant.ofDate (Date.ofDay 739647 (by decide))

/-- The rule of the stand-up when it is clamped there. -/
def standUpUntil : Rule :=
  mondaysThursdays.withEnding (.on ⟨63905500799, by decide⟩)

/-- Clamped behind its end, the stand-up has two more occurrences. -/
theorem clamp_overlaps_standUp :
    ∃ rule found clamped, clampUntil standUp.rule (Stamp.ofInstant firstOfFebruary) = .ok rule ∧
      standUp.ExpandsTo fifthOfJanuary endOfJanuary [] found ∧
      { standUp with rule := rule }.ExpandsTo fifthOfJanuary endOfJanuary [] clamped ∧
      found.map (·.start.day) = [739620, 739627, 739630, 739634, 739637] ∧
      clamped.map (·.start.day) = [739620, 739627, 739630, 739634, 739637, 739641, 739644] ∧
      ∀ o ∈ clamped, o ∈ found ↔ mondaysThursdays.grants standUp.start o.start = true := by
  have hstorable : mondaysThursdays.Storable := ⟨by decide, by rintro n ⟨⟩; decide⟩
  have hlast : firstOfFebruary.shift? (-1000000) =
      some (Instant.ofDay 739646 86399000000 (by decide) (by decide)) := by
    decide +kernel
  have hstarts : mondaysThursdays.starts standUp.start
      (Stamp.ofInstant (Instant.ofDay 739620 0 (by decide) (by decide)))
      (Stamp.ofInstant (Instant.ofDay 739646 86399999999 (by decide) (by decide))) =
        .ok ([739620, 739623, 739627, 739630, 739634, 739637].filterMap standUp.start.onDay?) := by
    decide +kernel
  have hfound : standUp.ExpandsTo fifthOfJanuary endOfJanuary []
      ([739620, 739627, 739630, 739634, 739637].filterMap fun n =>
        (standUp.start.onDay? n).bind (Occurrence.ofStart? standUp)) := by
    have hdecode : standUp.rule? = some mondaysThursdays := Rule.decode?_encode hstorable
    refine (expandsTo_iff hdecode).2 ⟨_, _, ?_, ?_, .inr ⟨?_, [], _, rfl, hstarts, ?_⟩⟩ <;>
      decide +kernel
  obtain ⟨rule, hclamp, hoverlap⟩ :=
    clamp_overlaps (s := standUp) hstorable rfl (Stamp.utc_ofInstant firstOfFebruary) hlast
  have htext : clampUntil standUp.rule (Stamp.ofInstant firstOfFebruary) = .ok standUpUntil.encode := by
    decide +kernel
  obtain rfl : rule = standUpUntil.encode := Except.ok.inj (hclamp.symm.trans htext)
  have hclamped : { standUp with rule := standUpUntil.encode }.ExpandsTo fifthOfJanuary endOfJanuary []
      ([739620, 739627, 739630, 739634, 739637, 739641, 739644].filterMap fun n =>
        (standUp.start.onDay? n).bind (Occurrence.ofStart? standUp)) := by
    have hstarts : standUpUntil.starts standUp.start
        (Stamp.ofInstant (Instant.ofDay 739620 0 (by decide) (by decide)))
        (Stamp.ofInstant (Instant.ofDay 739646 86399999999 (by decide) (by decide))) =
          .ok ([739620, 739623, 739627, 739630, 739634, 739637, 739641, 739644].filterMap
            standUp.start.onDay?) := by
      decide +kernel
    have hdecode : Series.rule? { standUp with rule := standUpUntil.encode } = some standUpUntil :=
      Rule.decode?_encode (Rule.storable_withEnding_on hstorable _)
    refine (expandsTo_iff hdecode).2 ⟨_, _, ?_, ?_, .inr ⟨?_, [], _, rfl, hstarts, ?_⟩⟩ <;>
      decide +kernel
  exact ⟨_, _, _, hclamp, hfound, hclamped, by decide +kernel, by decide +kernel,
    (hoverlap hfound hclamped).2⟩

/-! ## A series that is revived -/

/-- Every day until the end of 2 January 2025. -/
def untilSecondOfJanuary : Rule := ⟨.daily, Positive.one, .on ⟨63871459199, by decide⟩⟩

/-- Half an hour from 07:00 on, on 1 and 2 January 2025. -/
def run : Series where
  id := "run"
  start := Instant.ofDay 739251 25200000000 (by decide) (by decide)
  finish := Instant.ofDay 739251 27000000000 (by decide) (by decide)
  rule := untilSecondOfJanuary.encode
  exceptions := []

/-- 07:00 on 4 January, two days behind the end of the run. -/
def fourthMorning : Instant := Instant.ofDay 739254 25200000000 (by decide) (by decide)

/-- The rule of the run when it is clamped there. -/
def untilFourthOfJanuary : Rule := untilSecondOfJanuary.withEnding (.on ⟨63871570799, by decide⟩)

/-- The run of 3 January. -/
def thirdRun : Occurrence where
  seriesId := "run"
  start := Instant.ofDay 739253 25200000000 (by decide) (by decide)
  finish := Instant.ofDay 739253 27000000000 (by decide) (by decide)

/-- The first five days of January 2025. -/
def fiveDays : Moment × Moment :=
  (.day (Date.ofDay 739251 (by decide)), .day (Date.ofDay 739255 (by decide)))

/-- Clamped behind its end, the run has a third occurrence. -/
theorem run_revived :
    untilSecondOfJanuary.Storable ∧
      ∃ rule found clamped,
        clampUntil run.rule (Stamp.ofInstant fourthMorning) = .ok rule ∧
        run.ExpandsTo fiveDays.1 fiveDays.2 [] found ∧
        { run with rule := rule }.ExpandsTo fiveDays.1 fiveDays.2 [] clamped ∧
        thirdRun ∈ clamped ∧ thirdRun ∉ found := by
  have hstorable : untilSecondOfJanuary.Storable := ⟨by decide, by rintro n ⟨⟩⟩
  have hstarts : untilSecondOfJanuary.starts run.start
      (Stamp.ofInstant (Instant.ofDay 739251 0 (by decide) (by decide)))
      (Stamp.ofInstant (Instant.ofDay 739255 86399999999 (by decide) (by decide))) =
        .ok ([739251, 739252].filterMap run.start.onDay?) := by
    decide +kernel
  have hrevived : untilFourthOfJanuary.starts run.start
      (Stamp.ofInstant (Instant.ofDay 739251 0 (by decide) (by decide)))
      (Stamp.ofInstant (Instant.ofDay 739255 86399999999 (by decide) (by decide))) =
        .ok ([739251, 739252, 739253].filterMap run.start.onDay?) := by
    decide +kernel
  have hrule : run.rule? = some untilSecondOfJanuary := Rule.decode?_encode hstorable
  have hclamped : Series.rule? { run with rule := untilFourthOfJanuary.encode } =
      some untilFourthOfJanuary :=
    Rule.decode?_encode (Rule.storable_withEnding_on hstorable _)
  refine ⟨hstorable, untilFourthOfJanuary.encode, _, _, by decide +kernel,
    (expandsTo_iff hrule).2 ⟨_, _, ?_, ?_, .inr ⟨?_, [], _, rfl, hstarts, rfl⟩⟩,
    (expandsTo_iff hclamped).2 ⟨_, _, ?_, ?_, .inr ⟨?_, [], _, rfl, hrevived, rfl⟩⟩, ?_, ?_⟩ <;>
    decide +kernel

end Series

end Recurrence
