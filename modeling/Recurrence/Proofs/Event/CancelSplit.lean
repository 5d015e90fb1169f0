import Recurrence.Proofs.Event.Cancel

/-!
# Cancelling a start and splitting a series

A start can be cancelled before a series is split, or afterwards in the part in which it lies.  It makes
no difference (`EventRecord.exclude_split_comm`).

Dividing the texts of cancelled starts keeps those that spell an instant on one side of the cutoff, so
the new text goes to the side of its instant (`filter_withCancelled_of`) and the other side stays as it
is (`filter_withCancelled_of_not`).  Whether the instant has been cancelled already is told on its side
alone.
-/

namespace Recurrence

/-! ## Some of the texts -/

section Filter

variable {p : String → Bool} {Q : Instant → Prop} {t : Instant}
  (hp : ∀ s, p s = true ↔ ∃ u, Instant.ofIso s = .ok u ∧ Q u)

include hp

/-- **The text of an instant goes where the instant belongs.** -/
theorem filter_withCancelled_of (ht : Q t) (texts : List String) :
    (withCancelled texts t).filter p = withCancelled (texts.filter p) t := by
  have hspells : p t.toZulu = true := (hp _).2 ⟨t, t.ofIso_toZulu, ht⟩
  have hmem : t ∈ spelledInstants (texts.filter p) ↔ t ∈ spelledInstants texts :=
    (mem_spelledInstants_filter hp).trans (and_iff_left ht)
  unfold withCancelled
  by_cases hold : t ∈ spelledInstants texts
  · rw [if_pos hold, if_pos (hmem.2 hold)]
  · rw [if_neg hold, if_neg fun h => hold (hmem.1 h), List.filter_append,
      List.filter_cons_of_pos hspells, List.filter_nil]

/-- **Elsewhere nothing changes.** -/
theorem filter_withCancelled_of_not (ht : ¬Q t) (texts : List String) :
    (withCancelled texts t).filter p = texts.filter p := by
  have hspells : ¬p t.toZulu = true := by
    rintro h
    obtain ⟨u, hu, hQ⟩ := (hp _).1 h
    obtain rfl : t = u := Except.ok.inj (t.ofIso_toZulu.symm.trans hu)
    exact ht hQ
  unfold withCancelled
  split
  · rfl
  · rw [List.filter_append, List.filter_cons_of_neg hspells, List.filter_nil, List.append_nil]

end Filter

/-! ## In either order -/

section Sharing

variable {c t : Instant} (s : SeriesSplit) (texts : List String)

/-- An instant before the cutoff is cancelled in the earlier part. -/
theorem SeriesSplit.sharing_withCancelled_of_lt (ht : t < c) :
    s.sharing c (withCancelled texts t) =
      { s.sharing c texts with
        earlierExceptions := withCancelled (texts.filter (spellsBefore c)) t } := by
  have hearly := filter_withCancelled_of (fun s => spellsBefore_eq_true_iff) ht texts
  have hlate := filter_withCancelled_of_not (fun s => spellsFrom_eq_true_iff) (Instant.not_le.2 ht)
    texts
  simp only [sharing, hearly, hlate]

/-- An instant from the cutoff on is cancelled in the continuation. -/
theorem SeriesSplit.sharing_withCancelled_of_le (ht : c ≤ t) :
    s.sharing c (withCancelled texts t) =
      { s.sharing c texts with
        continuation := s.continuation.map fun next =>
          { next with exceptions := withCancelled (texts.filter (spellsFrom c)) t } } := by
  have hearly := filter_withCancelled_of_not (fun s => spellsBefore_eq_true_iff)
    (Instant.not_lt.2 ht) texts
  have hlate := filter_withCancelled_of (fun s => spellsFrom_eq_true_iff) ht texts
  simp only [sharing, hearly, hlate]

end Sharing

namespace EventRecord

/-- **Cancelling and splitting commute.**  Of an event that a split continues, any instant can be
cancelled.  Split then, it has the two parts that it had, with the instant cancelled in the earlier one
if it comes before the cutoff, and otherwise in the continuation. -/
theorem exclude_split_comm {record next : EventRecord} {point start : Stamp} {c t : Instant}
    {newId : Option String} {fresh : String} {s : SeriesSplit} (hpoint : point.utc = .ok c)
    (hsplit : record.split point newId fresh = .ok s) (hnext : s.continuation = some next)
    (hstart : start.utc = .ok t) :
    ∃ exceptions, excludeOccurrence record.exceptions start = .ok exceptions ∧
      (t < c → ∃ early, excludeOccurrence s.earlierExceptions start = .ok early ∧
        { record with exceptions := exceptions }.split point newId fresh =
          .ok { s with earlierExceptions := early }) ∧
      (c ≤ t → ∃ late, excludeOccurrence next.exceptions start = .ok late ∧
        { record with exceptions := exceptions }.split point newId fresh =
          .ok { s with continuation := some { next with exceptions := late } }) := by
  have hread := inRange_of_split hsplit
  let cancelled : EventRecord := { record with exceptions := withCancelled record.exceptions t }
  have hcancelled : ∀ u ∈ cancelled.exceptions, Instant.ofIso u ≠ .error .outOfRange :=
    inRange_withCancelled hread
  rw [split_of_utc hread hpoint] at hsplit
  -- The split of the event without cancelled starts is the same before and after.
  obtain ⟨bare, hbare⟩ : ∃ bare, record.uncancelled.split point newId fresh = .ok bare := by
    cases hbare : record.uncancelled.split point newId fresh with
    | error e =>
      rw [hbare] at hsplit
      cases hsplit
    | ok bare => exact ⟨bare, rfl⟩
  have hafter : cancelled.split point newId fresh = .ok (bare.sharing c cancelled.exceptions) := by
    have hbare' : cancelled.uncancelled.split point newId fresh = .ok bare := hbare
    rw [split_of_utc hcancelled hpoint, hbare']
    rfl
  rw [hbare] at hsplit
  obtain rfl : bare.sharing c record.exceptions = s := Except.ok.inj hsplit
  obtain ⟨rest, hrest, rfl⟩ := Option.map_eq_some_iff.1 hnext
  refine ⟨_, excludeOccurrence_of_inRange hstart hread, fun ht => ?_, fun ht => ?_⟩
  · refine ⟨_, excludeOccurrence_of_inRange hstart (inRange_filter hread (spellsBefore c)), ?_⟩
    exact hafter.trans (congrArg Except.ok (bare.sharing_withCancelled_of_lt record.exceptions ht))
  · refine ⟨_, excludeOccurrence_of_inRange hstart (inRange_filter hread (spellsFrom c)), ?_⟩
    refine hafter.trans (congrArg Except.ok ?_)
    rw [bare.sharing_withCancelled_of_le record.exceptions ht, hrest]
    rfl

/-- The swimming event without 13 February as well. -/
def swimmingUntilCarnival : EventRecord :=
  { swimming with exceptions := swimming.exceptions ++ ["2024-02-13T18:00:00.000005Z"] }

theorem exclude_earlier_swimming : excludeOccurrence swimmingSplit.earlierExceptions poolClock =
    .ok ["2024-01-18T18:00:00.000005Z", "2024-02-01T19:00:00.000005+01:00",
      "2024-01-30T18:00:00.000005Z"] := by
  have hread : ∀ s ∈ swimmingSplit.earlierExceptions, Instant.ofIso s ≠ .error .outOfRange := by
    simp [swimmingSplit, ofIso_swimming]
  have hnew : secondTuesday.start ∉
      [swimmingOn 738902 (by decide), swimmingOn 738916 (by decide)] := by
    decide
  rw [excludeOccurrence_of_inRange utc_poolClock hread]
  simp [withCancelled, swimmingSplit, spelledInstants, ofIso_swimming, Except.toOption, hnew,
    toZulu_tuesdays]

theorem exclude_later_swimming :
    excludeOccurrence ["2024-02-15T18:00:00.000005Z"] ⟨thirdTuesday.start, none⟩ =
      .ok ["2024-02-15T18:00:00.000005Z", "2024-02-13T18:00:00.000005Z"] := by
  have hread : ∀ s ∈ ["2024-02-15T18:00:00.000005Z"], Instant.ofIso s ≠ .error .outOfRange := by
    simp [ofIso_swimming]
  have hnew : thirdTuesday.start ≠ swimmingOn 738930 (by decide) := by decide
  have hnaive : (Stamp.mk thirdTuesday.start none).utc = .ok thirdTuesday.start := rfl
  rw [excludeOccurrence_of_inRange hnaive hread]
  simp [withCancelled, spelledInstants, ofIso_swimming, Except.toOption, hnew, toZulu_tuesdays]

/-- Swimming is split at its third Tuesday.  The second, given on the clock of the pool, is cancelled in
the earlier part, and the third itself, given on no clock, in the continuation. -/
theorem exclude_split_comm_swimming :
    ∃ s next early late,
      swimming.split (Stamp.ofInstant thirdTuesday.start) (some "late") "" = .ok s ∧
      s.continuation = some next ∧
      excludeOccurrence s.earlierExceptions poolClock = .ok early ∧
      early = ["2024-01-18T18:00:00.000005Z", "2024-02-01T19:00:00.000005+01:00",
        "2024-01-30T18:00:00.000005Z"] ∧
      shorterSwimming.split (Stamp.ofInstant thirdTuesday.start) (some "late") "" =
        .ok { s with earlierExceptions := early } ∧
      excludeOccurrence next.exceptions ⟨thirdTuesday.start, none⟩ = .ok late ∧
      late = ["2024-02-15T18:00:00.000005Z", "2024-02-13T18:00:00.000005Z"] ∧
      swimmingUntilCarnival.split (Stamp.ofInstant thirdTuesday.start) (some "late") "" =
        .ok { s with continuation := some { next with exceptions := late } } := by
  have hpoint := Stamp.utc_ofInstant thirdTuesday.start
  have hnaive : (Stamp.mk thirdTuesday.start none).utc = .ok thirdTuesday.start := rfl
  have hthird : excludeOccurrence swimming.exceptions ⟨thirdTuesday.start, none⟩ =
      .ok swimmingUntilCarnival.exceptions := by
    have hnew : thirdTuesday.start ∉ spelledInstants swimming.exceptions := by
      rw [spelledInstants_swimming]
      decide
    rw [excludeOccurrence_of_inRange hnaive inRange_swimming, withCancelled, if_neg hnew,
      toZulu_tuesdays.2]
    rfl
  obtain ⟨_, hshorter, hbefore, -⟩ := exclude_split_comm hpoint split_swimming rfl utc_poolClock
  obtain ⟨early, hearly, hsame⟩ := hbefore (by decide)
  obtain ⟨_, huntil, -, hfrom⟩ := exclude_split_comm hpoint split_swimming rfl hnaive
  obtain ⟨late, hlate, hsame'⟩ := hfrom (by decide)
  obtain rfl := Except.ok.inj (hshorter.symm.trans exclude_swimming)
  obtain rfl := Except.ok.inj (huntil.symm.trans hthird)
  exact ⟨_, _, early, late, split_swimming, rfl, hearly,
    Except.ok.inj (hearly.symm.trans exclude_earlier_swimming), hsame, hlate,
    Except.ok.inj (hlate.symm.trans exclude_later_swimming), hsame'⟩

end EventRecord

end Recurrence
