import Recurrence.Proofs.Event.Count
import Recurrence.Proofs.Event.SplitTwice
import Recurrence.Proofs.Expansion.Survivors

/-!
# Cancelled starts that are faulty

The texts of cancelled starts come from outside and may be anything.  A text that spells no instant is
passed over: the series does without it, cancelling another start keeps it where it is, and splitting
drops it.  How an event is split does not depend on its cancelled starts, but for the texts that each
part takes over (`EventRecord.split_eq_sharing`).

There is one kind of text that is not passed over.  A time of day with an offset may lie outside the
calendar in universal time, and then nothing of this works (`EventRecord.faulty_starts`), as for an
event that cancels half an hour before the calendar begins (`EventRecord.faultyHour_fails`).
-/

namespace Recurrence

/-- The two parts of a split, each with the texts of the cancelled starts that lie in it. -/
def SeriesSplit.sharing (s : SeriesSplit) (cutoff : Instant) (texts : List String) : SeriesSplit where
  earlierRule := s.earlierRule
  earlierExceptions := texts.filter (spellsBefore cutoff)
  continuation := s.continuation.map fun next =>
    { next with exceptions := texts.filter (spellsFrom cutoff) }

namespace EventRecord

variable {record : EventRecord} {point : Stamp} {c : Instant}

/-- The event without cancelled starts. -/
def uncancelled (record : EventRecord) : EventRecord := { record with exceptions := [] }

/-- **Cancelled starts that can be read** become the exceptions of the series. -/
theorem ofRecord_of_inRange {rule : String} (hrule : record.recurrence = some rule) (hne : rule ≠ "")
    (hread : ∀ s ∈ record.exceptions, Instant.ofIso s ≠ .error .outOfRange) :
    Series.ofRecord record = .ok (some ⟨record.id, record.start, record.finish, rule,
      spelledInstants record.exceptions⟩) := by
  rw [Series.ofRecord_of_ne_empty hrule hne, readExceptions_of_inRange hread]
  rfl

theorem ofRecord_of_mem {rule s : String} (hrule : record.recurrence = some rule) (hne : rule ≠ "")
    (hs : s ∈ record.exceptions) (h : Instant.ofIso s = .error .outOfRange) :
    Series.ofRecord record = .error .outOfRange := by
  rw [Series.ofRecord_of_ne_empty hrule hne, readExceptions_of_mem hs h]
  rfl

/-- An event without a rule is not looked at any further. -/
theorem split_of_not_recurring (h : record.recurrence = none ∨ record.recurrence = some "")
    (newId : Option String) (fresh : String) :
    record.split point newId fresh = .error (.notRecurring record.id) := by
  have hseries : Series.ofRecord record = .ok none := by
    unfold Series.ofRecord
    rcases h with h | h
    · rw [h]
    · rw [h]
      rfl
  unfold split
  rw [hseries]

/-- **Cancelled starts that can be read are shared out**, and change nothing else about a split. -/
theorem split_eq_sharing (hread : ∀ s ∈ record.exceptions, Instant.ofIso s ≠ .error .outOfRange)
    (hpoint : ∀ u, point.utc = .ok u → u = c) (newId : Option String) (fresh : String) :
    record.split point newId fresh =
      (record.uncancelled.split point newId fresh).map (·.sharing c record.exceptions) := by
  by_cases hnone : record.recurrence = none ∨ record.recurrence = some ""
  · have hbare : record.uncancelled.recurrence = none ∨ record.uncancelled.recurrence = some "" := hnone
    rw [split_of_not_recurring hnone, split_of_not_recurring hbare]
    rfl
  · obtain ⟨rule, hrule⟩ := Option.ne_none_iff_exists'.1 fun h => hnone (.inl h)
    have hne : rule ≠ "" := fun h => hnone (.inr (h ▸ hrule))
    have hbare : Series.ofRecord record.uncancelled =
        .ok (some ⟨record.id, record.start, record.finish, rule, []⟩) :=
      ofRecord_of_inRange (show record.uncancelled.recurrence = some rule from hrule) hne nofun
    -- No step of a split looks at the exceptions of the series, only the division at the end.
    unfold split
    simp only [ofRecord_of_inRange hrule hne hread, hbare, Series.rule?, partitionExceptions_eq_filter]
    cases Rule.decode? rule with
    | none => rfl
    | some r =>
      cases hutc : point.utc with
      | error e => rfl
      | ok u =>
        obtain rfl := hpoint u hutc
        cases clampUntil rule point with
        | error e => rfl
        | ok clamped =>
          cases hnext : continuationRule rule r record.start u with
          | error e => simp only [hnext]; rfl
          | ok next =>
            cases next with
            | none => simp only [hnext]; rfl
            | some text =>
              cases hfinish : u.shift? (record.finish.micros - record.start.micros : Nat) with
              | none => simp only [hnext, Series.duration, hfinish]; rfl
              | some finish => simp only [hnext, Series.duration, hfinish]; rfl

theorem split_of_utc (hread : ∀ s ∈ record.exceptions, Instant.ofIso s ≠ .error .outOfRange)
    (hpoint : point.utc = .ok c) (newId : Option String) (fresh : String) :
    record.split point newId fresh =
      (record.uncancelled.split point newId fresh).map (·.sharing c record.exceptions) :=
  split_eq_sharing hread (fun _ hu => (Except.ok.inj (hpoint.symm.trans hu)).symm) newId fresh

/-- Cancelled starts that can be read never make a split fail. -/
theorem split_eq_error_iff (hread : ∀ s ∈ record.exceptions, Instant.ofIso s ≠ .error .outOfRange)
    (newId : Option String) (fresh : String) {e : SplitError} :
    record.split point newId fresh = .error e ↔
      record.uncancelled.split point newId fresh = .error e := by
  obtain ⟨c, hc⟩ : ∃ c, ∀ u, point.utc = .ok u → u = c := by
    cases point.utc with
    | error e => exact ⟨record.start, nofun⟩
    | ok c => exact ⟨c, fun _ hu => (Except.ok.inj hu).symm⟩
  rw [split_eq_sharing hread hc]
  cases record.uncancelled.split point newId fresh with
  | error e' => exact Iff.rfl
  | ok s => exact ⟨nofun, nofun⟩

theorem split_of_mem {rule s : String} (hrule : record.recurrence = some rule) (hne : rule ≠ "")
    (hs : s ∈ record.exceptions) (h : Instant.ofIso s = .error .outOfRange) (newId : Option String)
    (fresh : String) : record.split point newId fresh = .error (.time .outOfRange) := by
  unfold split
  rw [ofRecord_of_mem hrule hne hs h]

/-- An event that can be split has no cancelled start outside the calendar. -/
theorem inRange_of_split {newId : Option String} {fresh : String} {s : SeriesSplit}
    (h : record.split point newId fresh = .ok s) :
    ∀ u ∈ record.exceptions, Instant.ofIso u ≠ .error .outOfRange := by
  obtain ⟨rule, r, c, next, hfound⟩ := splitsAt_of_split h
  have hne : rule ≠ "" := by
    rintro rfl
    rw [split_of_not_recurring (.inr hfound.recurrence)] at h
    cases h
  intro u hu hout
  rw [split_of_mem hfound.recurrence hne hu hout] at h
  cases h

/-- **Faulty texts are passed over, unless one spells an instant outside the calendar.**  Then they are
left out of the series, kept where another start is cancelled, and dropped by a split; the others
stay in force.  A text that spells an instant outside the calendar makes all three fail. -/
theorem faulty_starts {rule : String} (hrule : record.recurrence = some rule) (hne : rule ≠ "") :
    ((∀ s ∈ record.exceptions, Instant.ofIso s ≠ .error .outOfRange) →
        Series.ofRecord record = .ok (some ⟨record.id, record.start, record.finish, rule,
          spelledInstants record.exceptions⟩) ∧
        (∀ start t, start.utc = .ok t →
          excludeOccurrence record.exceptions start = .ok (withCancelled record.exceptions t)) ∧
        ∀ point newId fresh,
          (∀ e, record.split point newId fresh = .error e ↔
            record.uncancelled.split point newId fresh = .error e) ∧
          ∀ c, point.utc = .ok c → record.split point newId fresh =
            (record.uncancelled.split point newId fresh).map (·.sharing c record.exceptions)) ∧
      ((∃ s ∈ record.exceptions, Instant.ofIso s = .error .outOfRange) →
        Series.ofRecord record = .error .outOfRange ∧
        (∀ start t, start.utc = .ok t →
          excludeOccurrence record.exceptions start = .error .outOfRange) ∧
        ∀ point newId fresh, record.split point newId fresh = .error (.time .outOfRange)) := by
  constructor
  · intro hread
    refine ⟨ofRecord_of_inRange hrule hne hread,
      fun start t hstart => excludeOccurrence_of_inRange hstart hread, fun point newId fresh => ?_⟩
    exact ⟨fun e => split_eq_error_iff hread newId fresh,
      fun c hpoint => split_of_utc hread hpoint newId fresh⟩
  · rintro ⟨s, hs, hout⟩
    exact ⟨ofRecord_of_mem hrule hne hs hout,
      fun start t hstart => excludeOccurrence_of_mem hstart hs hout,
      fun point newId fresh => split_of_mem hrule hne hs hout newId fresh⟩

/-- The start of the swimming event on another day. -/
def swimmingOn (n : Nat) (h : n < calendarDays) : Instant :=
  Instant.ofDay n swimming.start.timeOfDay h swimming.start.timeOfDay_lt

/-- Three of the texts of the swimming event spell a Thursday, and one spells nothing. -/
theorem ofIso_swimming :
    Instant.ofIso "2024-01-18T18:00:00.000005Z" = .ok (swimmingOn 738902 (by decide)) ∧
    Instant.ofIso "to be confirmed" = .error .malformed ∧
    Instant.ofIso "2024-02-01T19:00:00.000005+01:00" = .ok (swimmingOn 738916 (by decide)) ∧
    Instant.ofIso "2024-02-15T18:00:00.000005Z" = .ok (swimmingOn 738930 (by decide)) := by
  decide +kernel

theorem inRange_swimming : ∀ s ∈ swimming.exceptions, Instant.ofIso s ≠ .error .outOfRange := by
  simp [swimming, ofIso_swimming]

theorem spelledInstants_swimming : spelledInstants swimming.exceptions =
    [swimmingOn 738902 (by decide), swimmingOn 738916 (by decide), swimmingOn 738930 (by decide)] := by
  simp [spelledInstants, swimming, ofIso_swimming, Except.toOption]

theorem toZulu_tuesdays : secondTuesday.start.toZulu = "2024-01-30T18:00:00.000005Z" ∧
    thirdTuesday.start.toZulu = "2024-02-13T18:00:00.000005Z" := by
  decide

/-- What a split at the third Tuesday makes of the event: three of seven times are left. -/
def swimmingSplit : SeriesSplit where
  earlierRule := (swimmingDays.withEnding (.on ⟨63843443999, by decide⟩)).encode
  earlierExceptions := ["2024-01-18T18:00:00.000005Z", "2024-02-01T19:00:00.000005+01:00"]
  continuation := some ⟨"late", thirdTuesday.start, thirdTuesday.finish,
    some (swimmingDays.withEnding (.after ⟨3, Nat.zero_lt_succ 2⟩)).encode,
    ["2024-02-15T18:00:00.000005Z"]⟩

/-- The second Tuesday is not among the Thursdays. -/
theorem withCancelled_swimming : withCancelled swimming.exceptions secondTuesday.start =
    swimming.exceptions ++ ["2024-01-30T18:00:00.000005Z"] := by
  have hnew : secondTuesday.start ∉ spelledInstants swimming.exceptions := by
    rw [spelledInstants_swimming]
    decide
  rw [withCancelled, if_neg hnew, toZulu_tuesdays.1]

theorem split_uncancelled_swimming :
    swimming.uncancelled.split (Stamp.ofInstant thirdTuesday.start) (some "late") "" =
      .ok (swimmingSplit.sharing thirdTuesday.start []) := by
  have hstorable : swimmingDays.Storable := ⟨by decide, by rintro n ⟨⟩; decide⟩
  have hrule : swimming.uncancelled.recurrence = some swimmingDays.encode := rfl
  have hread : readExceptions swimming.uncancelled.exceptions = .ok [] := rfl
  have hlast : thirdTuesday.start.shift? (-1000000) =
      some (Instant.ofDay 738928 64799000005 (by decide) (by decide)) := by
    decide
  have hused : swimmingDays.consumed swimming.uncancelled.start thirdTuesday.start = .ok 4 := by
    decide
  have hrest : continuationRule swimmingDays.encode swimmingDays swimming.uncancelled.start
      thirdTuesday.start = .ok (some (swimmingDays.withEnding (.after ⟨3, by decide⟩)).encode) :=
    Rule.continuationRule_of_rest rfl hused rfl
  have hfinish : thirdTuesday.start.shift? (swimming.uncancelled.series swimmingDays []).duration =
      some thirdTuesday.finish := by
    decide
  rw [split_of_encode hstorable hrule hread (Stamp.utc_ofInstant _) hlast]
  simp only [hrest, hfinish]
  rfl

/-- The two parts share the Thursdays out. -/
theorem split_sharing_swimming :
    (swimming.uncancelled.split (Stamp.ofInstant thirdTuesday.start) (some "late") "").map
      (·.sharing thirdTuesday.start swimming.exceptions) = .ok swimmingSplit := by
  have hjanuary : swimmingOn 738902 (by decide) < thirdTuesday.start := by decide
  have hmiddle : swimmingOn 738916 (by decide) < thirdTuesday.start := by decide
  have hlate : thirdTuesday.start ≤ swimmingOn 738930 (by decide) := by decide
  rw [split_uncancelled_swimming]
  simp [Except.map, SeriesSplit.sharing, swimmingSplit, swimming, spellsBefore, spellsFrom,
    ofIso_swimming, hjanuary, hmiddle, hlate, Instant.not_le.2 hjanuary, Instant.not_le.2 hmiddle,
    Instant.not_lt.2 hlate]

theorem split_swimming : swimming.split (Stamp.ofInstant thirdTuesday.start) (some "late") "" =
    .ok swimmingSplit :=
  (split_of_utc inRange_swimming (Stamp.utc_ofInstant _) _ _).trans split_sharing_swimming

/-- Swimming without the last half hour of the year 9999 on a clock that is an hour behind, which comes
after the calendar. -/
def swimmingAbroad : EventRecord :=
  { swimming with exceptions := swimming.exceptions ++ ["9999-12-31T23:30:00-01:00"] }

/-- The three Thursdays of the swimming event are in force, and its faulty text is kept where another
start is cancelled and dropped by a split.  Abroad none of this works. -/
theorem faulty_starts_swimming :
    Series.ofRecord swimming = .ok (some ⟨"swimming", swimming.start, swimming.finish,
      swimmingDays.encode, [swimmingOn 738902 (by decide), swimmingOn 738916 (by decide),
        swimmingOn 738930 (by decide)]⟩) ∧
      excludeOccurrence swimming.exceptions (Stamp.ofInstant secondTuesday.start) =
        .ok (swimming.exceptions ++ ["2024-01-30T18:00:00.000005Z"]) ∧
      swimming.split (Stamp.ofInstant thirdTuesday.start) (some "late") "" = .ok swimmingSplit ∧
      Series.ofRecord swimmingAbroad = .error .outOfRange ∧
      excludeOccurrence swimmingAbroad.exceptions (Stamp.ofInstant secondTuesday.start) =
        .error .outOfRange ∧
      swimmingAbroad.split (Stamp.ofInstant thirdTuesday.start) (some "late") "" =
        .error (.time .outOfRange) := by
  have hrule : swimming.recurrence = some swimmingDays.encode := rfl
  have habroad : swimmingAbroad.recurrence = some swimmingDays.encode := rfl
  obtain ⟨hseries, hexclude, hsplit⟩ := (faulty_starts hrule swimmingDays.encode_ne_empty).1
    inRange_swimming
  obtain ⟨hnone, hfixed, hwhole⟩ :=
    (faulty_starts habroad swimmingDays.encode_ne_empty).2
      ⟨"9999-12-31T23:30:00-01:00", by decide, by decide⟩
  refine ⟨?_, ?_, ?_, hnone, hfixed _ _ (Stamp.utc_ofInstant _), hwhole _ _ _⟩
  · rw [hseries, spelledInstants_swimming]
    rfl
  · rw [hexclude _ _ (Stamp.utc_ofInstant _), withCancelled_swimming]
  · exact ((hsplit _ _ _).2 _ (Stamp.utc_ofInstant _)).trans split_sharing_swimming

/-- An hour a day from 4 March 2024 on, without the first midnight of the year 1 on a clock that is half
an hour ahead. -/
def faultyHour : EventRecord where
  id := "run"
  start := Series.dailyHour.start
  finish := Series.dailyHour.finish
  recurrence := some Series.dailyHour.rule
  exceptions := ["0001-01-01T00:00:00+00:30"]

/-- 10:15 on 5 March 2024. -/
def secondHour : Instant := ⟨63845230500000000, by decide⟩

/-- The one text that spells no instant of the calendar spoils the event: without it there would be a
series, a start could be cancelled, and the event could be split. -/
theorem faultyHour_fails :
    (Series.ofRecord faultyHour = .error .outOfRange ∧
      excludeOccurrence faultyHour.exceptions (Stamp.ofInstant secondHour) = .error .outOfRange ∧
      faultyHour.split (Stamp.ofInstant secondHour) (some "rest") "" =
        .error (.time .outOfRange)) ∧
    Series.ofRecord faultyHour.uncancelled = .ok (some Series.dailyHour) ∧
    excludeOccurrence [] (Stamp.ofInstant secondHour) = .ok ["2024-03-05T10:15:00.000Z"] ∧
    ∃ s, faultyHour.uncancelled.split (Stamp.ofInstant secondHour) (some "rest") "" = .ok s := by
  have hrule : faultyHour.recurrence = some Series.dailyHour.rule := rfl
  have hne : Series.dailyHour.rule ≠ "" := Rule.encode_ne_empty _
  have hout : Instant.ofIso "0001-01-01T00:00:00+00:30" = .error .outOfRange := by decide
  have hpoint := Stamp.utc_ofInstant secondHour
  refine ⟨⟨?_, ?_, ?_⟩, rfl, ?_, ?_⟩
  · exact ofRecord_of_mem hrule hne List.mem_cons_self hout
  · exact excludeOccurrence_of_mem hpoint List.mem_cons_self hout
  · exact split_of_mem hrule hne List.mem_cons_self hout _ _
  · decide
  · have hstorable : (⟨.daily, Positive.one, .never⟩ : Rule).Storable := ⟨by decide, nofun⟩
    have hlast : secondHour.shift? (-1000000) = some ⟨63845230499000000, by decide⟩ := by
      decide
    have hfinish : secondHour.shift? (faultyHour.uncancelled.series
        ⟨.daily, Positive.one, .never⟩ []).duration = some ⟨63845234100000000, by decide⟩ := by
      decide
    rw [split_of_encode hstorable rfl rfl hpoint hlast]
    simp only [continuationRule, hfinish]
    exact ⟨_, rfl⟩

end EventRecord

end Recurrence
