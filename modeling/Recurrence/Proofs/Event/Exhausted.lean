import Mathlib.Data.List.Infix
import Recurrence.Proofs.Event.Count
import Recurrence.Proofs.Expansion.Overrun

/-!
# Splitting a series whose count is used up

A counted series that is split where its count is used up (`Rule.count_le_of_continuationRule`) has no
continuation.  What stays behind is clamped all the same, and clamping puts a last second in the place
of the count.  So what stays behind differs from the series in two ways: it has the occurrences between
the end of the count and the split, and it lacks those of the second of the split
(`EventRecord.split_exhausted`).  A series of two days that is split two days later has four
(`EventRecord.twoRuns_revived`).

Nothing changes where as many candidates as the rule counts come before the second of the split
(`Rule.allowed_clamped_of_length_eq`).
-/

namespace Recurrence

namespace Rule

variable {r : Rule} {a c t last : Instant} {n : Positive}

/-- Without an end, a rule has all candidates before a cut as its starts. -/
theorem before_of_starts {lower u : Instant} {starts : List Instant} (hu : c.shift? (-1) = some u)
    (hlower : lower ≤ a)
    (h : (r.withEnding .never).starts a (Stamp.ofInstant lower) (Stamp.ofInstant u) = .ok starts) :
    r.before a c = starts := by
  have hnext : u.micros + 1 = c.micros := Instant.shift?_neg_eq_some_iff.1 hu
  obtain ⟨-, -, rfl⟩ := starts_eq_ok_iff.1 h
  have hall : (r.withEnding .never).allowed a = r.candidates a := allowed_never rfl
  rw [before, hall]
  refine List.filter_congr fun t ht => ?_
  have hle : lower ≤ t := Nat.le_trans hlower (Instant.mem_candidates.1 ht).2.2
  rw [decide_eq_true hle, Bool.true_and, decide_eq_decide]
  show t.micros < c.micros ↔ t.micros ≤ u.micros
  omega

/-- **Without a continuation, the count is used up.** -/
theorem count_le_of_continuationRule {text : String} (hending : r.ending = .after n)
    (h : continuationRule text r a c = .ok none) : n.1 ≤ (r.before a c).length := by
  rcases continuationRule_counted hending h with ⟨-, hspent⟩ | ⟨m, -, hsome⟩
  · exact hspent ▸ spent_le_before
  · exact absurd hsome nofun

/-- **Where the counted candidates are those before the second of a cutoff, clamping changes
nothing.** -/
theorem allowed_clamped_of_length_eq (hending : r.ending = .after n)
    (hlast : c.shift? (-1000000) = some last) (h : (r.before a c.truncate).length = n.1) :
    (r.withEnding (.on last.second)).allowed a = r.allowed a := by
  have hprefix : r.before a c.truncate <+: r.candidates a := by
    have hpast : ∀ s t : Instant, s < t → decide (t < c.truncate) = true →
        decide (s < c.truncate) = true := by
      intro s t hst ht
      exact decide_eq_true (Nat.lt_trans hst (of_decide_eq_true ht))
    rw [before, ← takeWhile_eq_filter (r.candidates_sorted a) hpast]
    exact List.takeWhile_prefix _
  rw [allowed_before_second hlast, allowed_after hending, ← h]
  exact List.prefix_iff_eq_take.1 hprefix

/-- Behind the last of the counted candidates there is no allowed start. -/
theorem lt_of_count_le (hending : r.ending = .after n) (h : n.1 ≤ (r.before a c).length)
    (ht : t ∈ r.allowed a) : t < c := by
  apply Instant.not_le.1
  intro hct
  have hcount : r.ending.count? = some n.1 := by rw [hending]; rfl
  have hmono : (r.before a c).length ≤ (r.before a t).length := by
    refine (List.monotone_filter_right (r.candidates a) fun u hu => ?_).length_le
    exact decide_eq_true (Nat.lt_of_lt_of_le (of_decide_eq_true hu) hct)
  have hlt := length_before_lt_count ht hcount
  omega

/-- Clamping a canonical text takes a second before the cutoff. -/
theorem exists_last_of_clampUntil {cutoff : Stamp} {text : String} (hc : cutoff.utc = .ok c)
    (h : clampUntil r.encode cutoff = .ok text) :
    ∃ last, c.shift? (-1000000) = some last ∧ text = (r.withEnding (.on last.second)).encode := by
  cases hlast : c.shift? (-1000000) with
  | none =>
    simp only [clampUntil, r.ofText_encode, TokenList.hasFrequency_toTokens, if_true, hc] at h
    have hbefore : secondBefore c = .error .outOfRange := by rw [secondBefore, hlast]
    change (secondBefore c >>= _) = _ at h
    rw [hbefore] at h
    cases h
  | some last =>
    refine ⟨last, rfl, ?_⟩
    exact Except.ok.inj (h.symm.trans (clampUntil_encode r hc hlast))

end Rule

namespace EventRecord

section Exhausted

variable {record : EventRecord} {r : Rule} {n : Positive} {cancelled : List Instant} {point : Stamp}
  {c : Instant} {newId : Option String} {fresh : String} {s : SeriesSplit}

/-- **What a split leaves behind without a continuation**: the event is clamped, and the count was used
up. -/
theorem split_none (hr : r.Storable) (hrule : record.recurrence = some r.encode)
    (hcount : r.ending = .after n) (hpoint : point.utc = .ok c)
    (hsplit : record.split point newId fresh = .ok s) (hnone : s.continuation = none) :
    ∃ last, c.shift? (-1000000) = some last ∧
      s.earlierRule = (r.withEnding (.on last.second)).encode ∧
      s.earlierExceptions = (partitionExceptions c record.exceptions).1 ∧
      n.1 ≤ (r.before record.start c).length := by
  obtain ⟨rule, r', c', next, hfound⟩ := splitsAt_of_split hsplit
  obtain rfl : rule = r.encode := Option.some.inj (hfound.recurrence.symm.trans hrule)
  obtain rfl : r' = r := Option.some.inj (hfound.decoded.symm.trans (Rule.decode?_encode hr))
  obtain rfl : c' = c := Except.ok.inj (hfound.cutoff.symm.trans hpoint)
  obtain ⟨last, hlast, htext⟩ := Rule.exists_last_of_clampUntil hpoint hfound.clamped
  refine ⟨last, hlast, htext, hfound.divided, ?_⟩
  cases next with
  | none => exact Rule.count_le_of_continuationRule hcount hfound.counted
  | some text =>
    obtain ⟨finish, -, hcontinued⟩ := hfound.continued text rfl
    exact absurd (hnone.symm.trans hcontinued) nofun

/-- **A split without a continuation.**  All occurrences of the series start before the split.  Over any
window in which both expand without an error, what stays behind has the same occurrences exactly if
it shows none behind the count and the series shows none in the second of the split.  That is so in
every window if as many candidates as the rule counts come before that second. -/
theorem split_exhausted {series : Series} (hr : r.Storable)
    (hrule : record.recurrence = some r.encode) (hcount : r.ending = .after n)
    (hparse : ∀ s ∈ record.exceptions, ∃ t, Instant.ofIso s = .ok t)
    (hseries : Series.ofRecord record = .ok (some series)) (hpoint : point.utc = .ok c)
    (hsplit : record.split point newId fresh = .ok s) (hnone : s.continuation = none) :
    ∃ left, Series.ofRecord (record.shortened s) = .ok (some left) ∧
      ∀ {first final : Moment} {extra : List Stamp} {whole remaining : List Occurrence},
        series.ExpandsTo first final extra whole → left.ExpandsTo first final extra remaining →
          (∀ o ∈ whole, o.start < c) ∧ Series.Overlap r record.start c.truncate whole remaining ∧
          (remaining = whole ↔ (∀ o ∈ remaining, (r.before record.start o.start).length < n.1) ∧
            ∀ o ∈ whole, o.start < c.truncate) ∧
          ((r.before record.start c.truncate).length = n.1 → remaining = whole) := by
  obtain ⟨cancelled, early, late, hcancelled, hearly, -, hdivided⟩ :=
    readExceptions_partition c hparse
  obtain ⟨last, hlast, htext, hexceptions, hused⟩ :=
    split_none hr hrule hcount hpoint hsplit hnone
  rw [Series.ofRecord_of_encode hrule hcancelled] at hseries
  obtain rfl := Option.some.inj (Except.ok.inj hseries)
  have hstorable := Rule.storable_withEnding_on hr last.second
  have hdecode : (record.series r cancelled).rule? = some r := rule?_series hr
  have hleft : Series.ofRecord (record.shortened s) =
      .ok (some ((record.shortened s).series (r.withEnding (.on last.second)) early)) := by
    refine Series.ofRecord_of_encode (congrArg some htext) ?_
    show readExceptions s.earlierExceptions = _
    rw [hexceptions, hearly]
  refine ⟨_, hleft, ?_⟩
  intro first final extra whole remaining hwhole hremaining
  have hoverlap : Series.Overlap r record.start c.truncate whole remaining :=
    Series.overlap_of_clamped hdecode (Rule.decode?_encode hstorable) hlast
      (fun t ht => hdivided.contains_early ht) hwhole hremaining
  have hgrants : ∀ t, r.grants record.start t = true ↔ (r.before record.start t).length < n.1 := by
    intro t
    rw [Rule.grants, hcount, decide_eq_true_iff]
  have hmem : ∀ o ∈ whole, o.start ∈ r.allowed record.start := fun o ho =>
    (Series.mem_expand hdecode hwhole.expands ho).1
  refine ⟨fun o ho => ?_, hoverlap, ?_, fun hexact => ?_⟩
  · exact Rule.lt_of_count_le hcount hused (hmem o ho)
  · simp only [hoverlap.eq_iff, hgrants]
  · have hallowed := Rule.allowed_clamped_of_length_eq hcount hlast hexact
    refine hoverlap.eq_iff.2 ⟨fun o ho => ?_, fun o ho => ?_⟩
    · have hstart := (Series.mem_expand (rule?_series hstorable) hremaining.expands ho).1
      exact Rule.grants_of_mem_allowed (hallowed ▸ hstart)
    · exact Rule.lt_of_mem_allowed_clamped hlast (hallowed ▸ hmem o ho)

end Exhausted

/-- The start of May 2024. -/
def firstOfMay : Instant := Instant.ofDate (Date.ofDay 739006 (by decide))

/-- The rule of the call when it is clamped there. -/
def lastFridaysUntilMay : Rule := lastFridays.withEnding (.on ⟨63850118399, by decide⟩)

/-- What a split there makes of the call. -/
def lastFridaySplit : SeriesSplit := ⟨lastFridaysUntilMay.encode, lastFridayCall.exceptions, none⟩

/-- The shortened call, with the two cancelled starts. -/
def lastFridaySeriesUntilMay : Series :=
  (lastFridayCall.shortened lastFridaySplit).series lastFridaysUntilMay
    ([738938, 739001].filterMap lastFridayCall.start.onDay?)

/-- Split after its four last Fridays and before the fifth, the call has no continuation and keeps its
occurrences. -/
theorem split_exhausted_lastFridayCall :
    ∃ whole remaining,
      lastFridayCall.split (Stamp.ofInstant firstOfMay) none "rest" = .ok lastFridaySplit ∧
      lastFridaySplit.continuation = none ∧
      Series.ofRecord (lastFridayCall.shortened lastFridaySplit) =
        .ok (some lastFridaySeriesUntilMay) ∧
      lastFridaySeries.ExpandsTo newYearsEve2023 newYearsEve2024 [] whole ∧
      lastFridaySeriesUntilMay.ExpandsTo newYearsEve2023 newYearsEve2024 [] remaining ∧
      whole.length = 2 ∧ remaining = whole := by
  have hstorable : lastFridays.Storable := ⟨by decide, by rintro n ⟨⟩; decide⟩
  have hread : readExceptions lastFridayCall.exceptions =
      .ok ([738938, 739001].filterMap lastFridayCall.start.onDay?) := by
    decide +kernel
  have hparse : ∀ s ∈ lastFridayCall.exceptions, ∃ t, Instant.ofIso s = .ok t := by
    intro s hs
    rcases List.mem_cons.1 hs with rfl | hs
    · exact ⟨Instant.ofDay 738938 32400000005 (by decide) (by decide), by decide +kernel⟩
    · rw [List.mem_singleton.1 hs]
      exact ⟨Instant.ofDay 739001 32400000005 (by decide) (by decide), by decide +kernel⟩
  have hsplit : lastFridayCall.split (Stamp.ofInstant firstOfMay) none "rest" =
      .ok lastFridaySplit := by
    decide +kernel
  have hleft : Series.ofRecord (lastFridayCall.shortened lastFridaySplit) =
      .ok (some lastFridaySeriesUntilMay) :=
    Series.ofRecord_of_encode rfl hread
  have hstarts : ∀ r ∈ [lastFridays, lastFridaysUntilMay], r.starts lastFridayCall.start
      (Stamp.ofInstant (Instant.ofDay 738884 0 (by decide) (by decide)))
      (Stamp.ofInstant (Instant.ofDay 739250 86399999999 (by decide) (by decide))) =
        .ok ([738910, 738938, 738973, 739001].filterMap lastFridayCall.start.onDay?) := by
    decide +kernel
  have hwhole : lastFridaySeries.ExpandsTo newYearsEve2023 newYearsEve2024 []
      ([738910, 738973].filterMap fun n =>
        (lastFridayCall.start.onDay? n).bind (Occurrence.ofStart? lastFridaySeries)) := by
    have hdecode : lastFridaySeries.rule? = some lastFridays := rule?_series hstorable
    refine (Series.expandsTo_iff hdecode).2
      ⟨_, _, ?_, ?_, .inr ⟨?_, [], _, rfl, hstarts lastFridays (by simp), ?_⟩⟩ <;> decide +kernel
  have hremaining : lastFridaySeriesUntilMay.ExpandsTo newYearsEve2023 newYearsEve2024 []
      ([738910, 738973].filterMap fun n =>
        (lastFridayCall.start.onDay? n).bind (Occurrence.ofStart? lastFridaySeriesUntilMay)) := by
    have hdecode : lastFridaySeriesUntilMay.rule? = some lastFridaysUntilMay :=
      rule?_series (Rule.storable_withEnding_on hstorable _)
    refine (Series.expandsTo_iff hdecode).2
      ⟨_, _, ?_, ?_, .inr ⟨?_, [], _, rfl, hstarts lastFridaysUntilMay (by simp), ?_⟩⟩ <;>
      decide +kernel
  have hall : (lastFridays.withEnding .never).starts lastFridayCall.start
      (Stamp.ofInstant lastFridayCall.start)
      (Stamp.ofInstant (Instant.ofDay 739005 86399999999 (by decide) (by decide))) =
        .ok ([738910, 738938, 738973, 739001].filterMap lastFridayCall.start.onDay?) := by
    decide +kernel
  have hexact : (lastFridays.before lastFridayCall.start firstOfMay.truncate).length = 4 := by
    rw [Rule.before_of_starts (by decide +kernel) (Nat.le_refl _) hall]
    decide +kernel
  obtain ⟨left, hleft', hsame⟩ := split_exhausted hstorable rfl rfl hparse
    (Series.ofRecord_of_encode rfl hread) (Stamp.utc_ofInstant firstOfMay) hsplit rfl
  obtain rfl := Option.some.inj (Except.ok.inj (hleft.symm.trans hleft'))
  exact ⟨_, _, hsplit, rfl, hleft, hwhole, hremaining, by decide +kernel,
    (hsame hwhole hremaining).2.2.2 hexact⟩

/-- Every day, twice. -/
def twoDaysLong : Rule := ⟨.daily, Positive.one, .after ⟨2, Nat.two_pos⟩⟩

/-- Half an hour from 07:00 on, on 1 and 2 January 2025. -/
def twoRuns : EventRecord where
  id := "run"
  start := Series.run.start
  finish := Series.run.finish
  recurrence := some twoDaysLong.encode
  exceptions := []

/-- 07:00 on 5 January 2025. -/
def fifthMorning : Instant := ⟨63871657200000000, by decide⟩

/-- The rule of the runs when they are split then. -/
def fourDaysLong : Rule := twoDaysLong.withEnding (.on ⟨63871657199, by decide⟩)

/-- What stays behind. -/
def fourRuns : EventRecord := twoRuns.shortened ⟨fourDaysLong.encode, [], none⟩

/-- Split two days behind its end, the run has no continuation, and four occurrences in place of
two. -/
theorem twoRuns_revived :
    twoDaysLong.Storable ∧
      ∃ s whole remaining,
        twoRuns.split (Stamp.ofInstant fifthMorning) none "rest" = .ok s ∧ s.continuation = none ∧
        twoRuns.shortened s = fourRuns ∧
        Series.ofRecord twoRuns = .ok (some (twoRuns.series twoDaysLong [])) ∧
        Series.ofRecord fourRuns = .ok (some (fourRuns.series fourDaysLong [])) ∧
        (twoRuns.series twoDaysLong []).ExpandsTo Series.fiveDays.1 Series.fiveDays.2 [] whole ∧
        (fourRuns.series fourDaysLong []).ExpandsTo Series.fiveDays.1 Series.fiveDays.2 [] remaining ∧
        whole.length = 2 ∧ remaining.length = 4 := by
  have hstorable : twoDaysLong.Storable := ⟨by decide, by rintro n ⟨⟩; decide⟩
  have hstarts : twoDaysLong.starts twoRuns.start
      (Stamp.ofInstant (Instant.ofDay 739251 0 (by decide) (by decide)))
      (Stamp.ofInstant (Instant.ofDay 739255 86399999999 (by decide) (by decide))) =
        .ok ([739251, 739252].filterMap twoRuns.start.onDay?) := by
    decide +kernel
  have hrevived : fourDaysLong.starts fourRuns.start
      (Stamp.ofInstant (Instant.ofDay 739251 0 (by decide) (by decide)))
      (Stamp.ofInstant (Instant.ofDay 739255 86399999999 (by decide) (by decide))) =
        .ok ([739251, 739252, 739253, 739254].filterMap fourRuns.start.onDay?) := by
    decide +kernel
  have hrule : (twoRuns.series twoDaysLong []).rule? = some twoDaysLong := rule?_series hstorable
  have hleft : (fourRuns.series fourDaysLong []).rule? = some fourDaysLong :=
    rule?_series (Rule.storable_withEnding_on hstorable _)
  refine ⟨hstorable, ⟨fourDaysLong.encode, [], none⟩, _, _, ?_, rfl, rfl,
    Series.ofRecord_of_encode rfl rfl, Series.ofRecord_of_encode rfl rfl,
    (Series.expandsTo_iff hrule).2 ⟨_, _, ?_, ?_, .inr ⟨?_, [], _, rfl, hstarts, rfl⟩⟩,
    (Series.expandsTo_iff hleft).2 ⟨_, _, ?_, ?_, .inr ⟨?_, [], _, rfl, hrevived, rfl⟩⟩, ?_, ?_⟩ <;>
    decide +kernel

end EventRecord

end Recurrence
