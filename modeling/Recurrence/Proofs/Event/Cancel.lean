import Recurrence.Proofs.Event.Faulty
import Recurrence.Proofs.Expansion.Clamp
import Recurrence.Proofs.Timestamp.Iso

/-!
# Cancelling one start

An occurrence is cancelled by its start, which goes into the event as a text and comes back twice: where
the series is made, and where the same start is cancelled once more.  It comes back as the same instant,
so the texts spell the instants that they spelled and the new one
(`mem_spelledInstants_withCancelled`), and cancelling it once more changes nothing
(`withCancelled_withCancelled`).

A series with one more cancelled start has its occurrences but for those that start then, over every
window (`Series.expand_withException`), and so has the event (`EventRecord.cancel_removes`).
-/

namespace Recurrence

/-! ## One more text -/

section Texts

variable {texts : List String} {t u : Instant}

theorem spelledInstants_concat (texts : List String) (t : Instant) :
    spelledInstants (texts ++ [t.toZulu]) = spelledInstants texts ++ [t] := by
  have hlast : spelledInstants [t.toZulu] = [t] := spelledInstants_cons t.ofIso_toZulu []
  rw [← hlast]
  exact List.filterMap_append

/-- **The texts spell one more instant.** -/
theorem mem_spelledInstants_withCancelled :
    u ∈ spelledInstants (withCancelled texts t) ↔ u ∈ spelledInstants texts ∨ u = t := by
  unfold withCancelled
  split
  · rename_i ht
    refine ⟨.inl, fun h => h.elim id ?_⟩
    rintro rfl
    exact ht
  · rw [spelledInstants_concat, List.mem_append, List.mem_singleton]

theorem inRange_withCancelled (h : ∀ s ∈ texts, Instant.ofIso s ≠ .error .outOfRange) :
    ∀ s ∈ withCancelled texts t, Instant.ofIso s ≠ .error .outOfRange := by
  unfold withCancelled
  split
  · exact h
  · intro s hs
    rcases List.mem_append.1 hs with hs | hs
    · exact h s hs
    · rw [List.mem_singleton.1 hs, t.ofIso_toZulu]
      exact nofun

/-- **Cancelling a start once more changes nothing.** -/
theorem withCancelled_withCancelled :
    withCancelled (withCancelled texts t) t = withCancelled texts t :=
  if_pos (mem_spelledInstants_withCancelled.2 (.inr rfl))

theorem prefix_withCancelled (texts : List String) (t : Instant) : texts <+: withCancelled texts t := by
  unfold withCancelled
  split
  · exact List.prefix_refl texts
  · exact List.prefix_append texts _

end Texts

/-! ## One more exception -/

namespace Series

variable (s : Series) {t : Instant} {l : List Instant}

/-- The starts that are shown, without the one that is cancelled. -/
theorem shown_withException (hl : ∀ u, u ∈ l ↔ u ∈ s.exceptions ∨ u = t) (lower upper : Instant)
    (cancelled : List Instant) :
    Series.shown { s with exceptions := l } lower upper cancelled =
      (s.shown lower upper cancelled).filter fun u => decide (u ≠ t) := by
  have hrule : Series.rule? { s with exceptions := l } = s.rule? := rfl
  unfold shown
  rw [hrule]
  split
  · rfl
  · cases s.rule? with
    | none => rfl
    | some r =>
      simp only
      cases r.starts s.start (Stamp.ofInstant lower) (Stamp.ofInstant upper) with
      | error e => rfl
      | ok starts =>
        have hkept (u : Instant) : (!(l ++ cancelled).contains u) =
            (decide (u ≠ t) && !(s.exceptions ++ cancelled).contains u) := by
          rw [Bool.eq_iff_iff]
          simp only [Bool.and_eq_true, Bool.not_eq_true', ← Bool.not_eq_true, List.contains_iff_mem,
            List.mem_append, decide_eq_true_eq, hl, not_or, ne_eq]
          exact and_assoc.trans and_left_comm
        simp only [List.filter_filter, hkept, Bool.and_assoc]
        rfl

/-- **One more exception takes away the occurrences that start then**, and leaves all others. -/
theorem expand_withException (hl : ∀ u, u ∈ l ↔ u ∈ s.exceptions ∨ u = t) (first last : Moment)
    (extra : List Stamp) :
    Series.expand { s with exceptions := l } first last extra =
      (s.expand first last extra).map (List.filter fun o => decide (o.start ≠ t)) := by
  cases hlower : first.opening with
  | error e =>
    unfold expand
    rw [hlower]
    rfl
  | ok lower =>
    cases hupper : last.closing with
    | error e =>
      unfold expand
      rw [hlower, hupper]
      rfl
    | ok upper =>
      rw [expand_of_bounds hlower hupper, expand_of_bounds hlower hupper]
      cases hextra : instantsOf extra with
      | error e =>
        have hrule : Series.rule? { s with exceptions := l } = s.rule? := rfl
        unfold expandBetween
        rw [hrule, hextra]
        split
        · rfl
        · cases s.rule? <;> rfl
      | ok cancelled =>
        rw [expandBetween_eq_shown _ lower upper hextra, expandBetween_eq_shown s lower upper hextra,
          shown_withException s hl]
        show Except.ok _ = Except.ok _
        rw [filter_start_filterMap s fun u => decide (u ≠ t)]
        rfl

end Series

/-! ## One event -/

namespace EventRecord

/-- **Cancelling one occurrence removes exactly that one.**  A start is cancelled, on any clock, of an
event whose cancelled starts can be read.  Over every window the event has its occurrences but for those
that start at that instant.  Cancelling the instant once more, on any clock, changes nothing, and the
texts that were there stay in front. -/
theorem cancel_removes {record : EventRecord} {rule : String} {start : Stamp} {t : Instant}
    (hrule : record.recurrence = some rule) (hne : rule ≠ "")
    (hread : ∀ s ∈ record.exceptions, Instant.ofIso s ≠ .error .outOfRange)
    (hstart : start.utc = .ok t) :
    ∃ series exceptions remaining,
      Series.ofRecord record = .ok (some series) ∧
      excludeOccurrence record.exceptions start = .ok exceptions ∧
      Series.ofRecord { record with exceptions := exceptions } = .ok (some remaining) ∧
      (∀ first last extra, remaining.expand first last extra =
        (series.expand first last extra).map (List.filter fun o => decide (o.start ≠ t))) ∧
      (∀ again, again.utc = .ok t → excludeOccurrence exceptions again = .ok exceptions) ∧
      record.exceptions <+: exceptions := by
  have hexcluded := excludeOccurrence_of_inRange hstart hread
  have hreadable := inRange_withCancelled (t := t) hread
  let series : Series :=
    ⟨record.id, record.start, record.finish, rule, spelledInstants record.exceptions⟩
  let cancelled : EventRecord := { record with exceptions := withCancelled record.exceptions t }
  have hremaining : Series.ofRecord cancelled =
      .ok (some { series with exceptions := spelledInstants (withCancelled record.exceptions t) }) :=
    ofRecord_of_inRange (show cancelled.recurrence = some rule from hrule) hne hreadable
  refine ⟨series, _, _, ofRecord_of_inRange hrule hne hread, hexcluded, hremaining,
    fun first last extra => ?_, fun again hagain => ?_, prefix_withCancelled _ _⟩
  · exact series.expand_withException (fun u => mem_spelledInstants_withCancelled) first last extra
  · rw [excludeOccurrence_of_inRange hagain hreadable, withCancelled_withCancelled]

/-- The start of 30 January 2024 on the clock of the pool, which is two and a half hours ahead. -/
def poolClock : Stamp :=
  ⟨⟨63842243400000005, by decide⟩, some ⟨9000000000, by decide, by decide⟩⟩

theorem utc_poolClock : poolClock.utc = .ok secondTuesday.start := by
  decide

/-- The swimming event without that start as well. -/
def shorterSwimming : EventRecord :=
  { swimming with exceptions := swimming.exceptions ++ ["2024-01-30T18:00:00.000005Z"] }

theorem exclude_swimming :
    excludeOccurrence swimming.exceptions poolClock = .ok shorterSwimming.exceptions := by
  rw [excludeOccurrence_of_inRange utc_poolClock inRange_swimming, withCancelled_swimming]
  rfl

theorem expand_swimming :
    swimmingSeries.expand (.day (Date.ofDay 738899 (by decide))) (.day (Date.ofDay 738940 (by decide)))
      [] = .ok ([swimmingOn 738900 (by decide), swimmingOn 738914 (by decide),
        swimmingOn 738928 (by decide)].filterMap (Occurrence.ofStart? swimmingSeries)) := by
  have hrule : swimmingSeries.rule? = some swimmingDays :=
    rule?_series ⟨by decide, by rintro n ⟨⟩; decide⟩
  have hopening : (Moment.day (Date.ofDay 738899 (by decide))).opening =
      .ok (Instant.ofDay 738899 0 (by decide) (by decide)) := by
    decide
  have hclosing : (Moment.day (Date.ofDay 738940 (by decide))).closing =
      .ok (Instant.ofDay 738940 86399999999 (by decide) (by decide)) := by
    decide
  have hstarts : swimmingDays.starts swimmingSeries.start
      (Stamp.ofInstant (Instant.ofDay 738899 0 (by decide) (by decide)))
      (Stamp.ofInstant (Instant.ofDay 738940 86399999999 (by decide) (by decide))) =
        .ok [swimmingOn 738900 (by decide), swimmingOn 738902 (by decide),
          swimmingOn 738914 (by decide), swimmingOn 738916 (by decide),
          swimmingOn 738928 (by decide), swimmingOn 738930 (by decide)] := by
    decide
  rw [Series.expand_of_bounds hopening hclosing,
    Series.expandBetween_of_starts hrule (by decide) rfl hstarts]
  rfl

/-- The start is cancelled on the clock of the pool, and once more on no clock at all.  Of the three
occurrences, the first and the last are left. -/
theorem cancel_removes_swimming :
    ∃ remaining whole left,
      excludeOccurrence swimming.exceptions poolClock = .ok shorterSwimming.exceptions ∧
      Series.ofRecord swimming = .ok (some swimmingSeries) ∧
      Series.ofRecord shorterSwimming = .ok (some remaining) ∧
      swimmingSeries.expand (.day (Date.ofDay 738899 (by decide)))
        (.day (Date.ofDay 738940 (by decide))) [] = .ok whole ∧
      remaining.expand (.day (Date.ofDay 738899 (by decide)))
        (.day (Date.ofDay 738940 (by decide))) [] = .ok left ∧
      whole.map (·.start.day) = [738900, 738914, 738928] ∧
      left.map (·.start.day) = [738900, 738928] ∧
      excludeOccurrence shorterSwimming.exceptions ⟨secondTuesday.start, none⟩ =
        .ok shorterSwimming.exceptions := by
  have hrule : swimming.recurrence = some swimmingDays.encode := rfl
  have hswimming : Series.ofRecord swimming = .ok (some swimmingSeries) := by
    rw [ofRecord_of_inRange hrule swimmingDays.encode_ne_empty inRange_swimming,
      spelledInstants_swimming]
    rfl
  obtain ⟨series, exceptions, remaining, hseries, hexcluded, hremaining, hexpand, hagain, -⟩ :=
    cancel_removes hrule swimmingDays.encode_ne_empty inRange_swimming utc_poolClock
  obtain rfl := Except.ok.inj (hexcluded.symm.trans exclude_swimming)
  obtain rfl := Option.some.inj (Except.ok.inj (hseries.symm.trans hswimming))
  have hleft := hexpand (.day (Date.ofDay 738899 (by decide))) (.day (Date.ofDay 738940 (by decide)))
    []
  rw [expand_swimming] at hleft
  exact ⟨remaining, _, _, exclude_swimming, hswimming, hremaining, expand_swimming, hleft,
    by decide, by decide, hagain _ rfl⟩

end EventRecord

end Recurrence
