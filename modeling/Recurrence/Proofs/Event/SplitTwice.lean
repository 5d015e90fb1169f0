import Recurrence.Proofs.Event.Exceptions
import Recurrence.Proofs.Event.Split

/-!
# Splitting a series twice

A series can be split at two of its occurrences, at the later one first or at the earlier one first.
The two orders do different things on the way: splitting at the later one turns a count into a last
second before the other split comes, while splitting at the earlier one reduces the count twice, from
two anchors.  The three events are the same but for their names (`EventRecord.split_comm`).

What the later part of the first split takes over is enough to split it again as the whole would be:
the rule allows the same starts from there on (`Rule.mem_allowed_later`), and a count reduced twice
is the count reduced by all candidates before (`Rule.minus?_later`).
-/

namespace Recurrence

namespace Rule

variable {r : Rule} {a c₁ c₂ last : Instant} {e : Ending}

/-- An allowed start after a cut is one of the later part. -/
theorem mem_allowed_later (hc₁ : c₁ ∈ r.allowed a) (hc₂ : c₂ ∈ r.allowed a) (h : c₁ < c₂)
    (he : r.ending.minus? (r.before a c₁).length = some e) : c₂ ∈ (r.withEnding e).allowed c₁ := by
  rw [allowed_eq_append hc₁ he] at hc₂
  refine (List.mem_append.1 hc₂).resolve_left fun hmem => ?_
  exact Instant.lt_asymm h (mem_before.1 hmem).2

/-- An allowed start before a cut is one of the earlier part. -/
theorem mem_allowed_earlier (hc₁ : c₁ ∈ r.allowed a) (hc₂ : c₂ ∈ r.allowed a)
    (h : c₁ < c₂) (hlast : c₂.shift? (-1000000) = some last) :
    c₁ ∈ (r.withEnding (.on last.second)).allowed a := by
  rw [allowed_earlier (mem_candidates_of_mem_allowed hc₂) hlast]
  exact mem_before.2 ⟨mem_candidates_of_mem_allowed hc₁, h⟩

/-- **A count reduced twice** is the count reduced by all candidates before the second cut. -/
theorem minus?_later (hc₁ : c₁ ∈ r.allowed a) (h : c₁ ≤ c₂)
    (he : r.ending.minus? (r.before a c₁).length = some e) :
    e.minus? ((r.withEnding e).before c₁ c₂).length = r.ending.minus? (r.before a c₂).length := by
  rw [Ending.minus?_add he, before_eq_append (mem_candidates_of_mem_allowed hc₁) h,
    List.length_append]
  rfl

/-- Behind a cut with a second before it, each cut has one. -/
theorem exists_secondBefore_of_le (h : c₁ ≤ c₂) (hlast : c₁.shift? (-1000000) = some last) :
    ∃ last₂, c₂.shift? (-1000000) = some last₂ := by
  have hback : last.micros + 1000000 = c₁.micros := Instant.shift?_neg_eq_some_iff.1 hlast
  have hle : c₁.micros ≤ c₂.micros := h
  exact Instant.exists_shift?_neg (show 1000000 ≤ c₂.micros by omega)

end Rule

namespace EventRecord

/-- Whether two events are the same but for their names. -/
structure Alike (p q : EventRecord) : Prop where
  start : p.start = q.start
  finish : p.finish = q.finish
  recurrence : p.recurrence = q.recurrence
  exceptions : p.exceptions = q.exceptions

/-- **Two splits commute.**  A series is split at two of its occurrences, the earlier one in the year 2 or
later.  Split at the later one, what stays behind can be split at the earlier one; split at the
earlier one, the continuation can be split at the later one.  Both ways give the same three events but
for their names. -/
theorem split_comm {record : EventRecord} {r : Rule} {series : Series}
    {first₁ first₂ last₁ last₂ : Moment} {extra₁ extra₂ : List Stamp}
    {found₁ found₂ : List Occurrence} {o₁ o₂ : Occurrence} {point₁ point₂ : Stamp}
    (hr : r.Storable) (hrule : record.recurrence = some r.encode)
    (hread : ∀ s ∈ record.exceptions, Instant.ofIso s ≠ .error .outOfRange)
    (hseries : Series.ofRecord record = .ok (some series))
    (hfound₁ : series.expand first₁ last₁ extra₁ = .ok found₁) (ho₁ : o₁ ∈ found₁)
    (hfound₂ : series.expand first₂ last₂ extra₂ = .ok found₂) (ho₂ : o₂ ∈ found₂)
    (hlt : o₁.start < o₂.start) (hyear : 2 ≤ o₁.start.date.year)
    (hpoint₁ : point₁.utc = .ok o₁.start) (hpoint₂ : point₂.utc = .ok o₂.start)
    (id₁ id₂ id₁₂ id₂₁ : Option String) (fresh₁ fresh₂ fresh₁₂ fresh₂₁ : String) :
    ∃ s₁ s₂ s₁₂ s₂₁ rest middle late late',
      record.split point₂ id₂ fresh₂ = .ok s₂ ∧ s₂.continuation = some late ∧
      (record.shortened s₂).split point₁ id₂₁ fresh₂₁ = .ok s₂₁ ∧
      s₂₁.continuation = some middle ∧
      record.split point₁ id₁ fresh₁ = .ok s₁ ∧ s₁.continuation = some rest ∧
      rest.split point₂ id₁₂ fresh₁₂ = .ok s₁₂ ∧ s₁₂.continuation = some late' ∧
      Alike ((record.shortened s₂).shortened s₂₁) (record.shortened s₁) ∧
      Alike middle (rest.shortened s₁₂) ∧ Alike late late' := by
  obtain ⟨cancelled, hcancelled⟩ := exists_readExceptions hread
  rw [Series.ofRecord_of_encode hrule hcancelled] at hseries
  obtain rfl := Option.some.inj (Except.ok.inj hseries)
  obtain ⟨hc₁, hfinish₁⟩ := Series.mem_expand (rule?_series hr) hfound₁ ho₁
  obtain ⟨hc₂, hfinish₂⟩ := Series.mem_expand (rule?_series hr) hfound₂ ho₂
  have hc₁ : o₁.start ∈ r.allowed record.start := hc₁
  have hc₂ : o₂.start ∈ r.allowed record.start := hc₂
  have hle : o₁.start ≤ o₂.start := Nat.le_of_lt hlt
  obtain ⟨before₁, hbefore₁⟩ := Rule.exists_secondBefore hyear
  obtain ⟨before₂, hbefore₂⟩ := Rule.exists_secondBefore_of_le hle hbefore₁
  obtain ⟨e₁, he₁⟩ := Rule.minus?_isSome hc₁
  obtain ⟨e₂, he₂⟩ := Rule.minus?_isSome hc₂
  have hrest : e₁.minus? ((r.withEnding e₁).before o₁.start o₂.start).length = some e₂ :=
    (Rule.minus?_later hc₁ hle he₁).trans he₂
  obtain ⟨early, hearly⟩ : ∃ l,
      readExceptions (partitionExceptions o₂.start record.exceptions).1 = .ok l :=
    exists_readExceptions fun s hs => hread s (mem_of_mem_partition (.inl hs))
  obtain ⟨later, hlater⟩ : ∃ l,
      readExceptions (partitionExceptions o₁.start record.exceptions).2 = .ok l :=
    exists_readExceptions fun s hs => hread s (mem_of_mem_partition (.inr hs))
  have hsplit₂ := split_eq hr hrule hcancelled hpoint₂ hc₂ hbefore₂ he₂ hfinish₂ id₂ fresh₂
  have hsplit₁ := split_eq hr hrule hcancelled hpoint₁ hc₁ hbefore₁ he₁ hfinish₁ id₁ fresh₁
  let late : EventRecord := ⟨continuationId id₂ fresh₂, o₂.start, o₂.finish,
    some (r.withEnding e₂).encode, (partitionExceptions o₂.start record.exceptions).2⟩
  let rest : EventRecord := ⟨continuationId id₁ fresh₁, o₁.start, o₁.finish,
    some (r.withEnding e₁).encode, (partitionExceptions o₁.start record.exceptions).2⟩
  let s₂ : SeriesSplit := ⟨(r.withEnding (.on before₂.second)).encode,
    (partitionExceptions o₂.start record.exceptions).1, some late⟩
  have hduration : (rest.series (r.withEnding e₁) later).duration =
      (record.series r cancelled).duration := by
    have hmicros := Instant.shift?_eq_some_iff.1 hfinish₁
    show o₁.finish.micros - o₁.start.micros = _
    omega
  have hrule₂ : (record.shortened s₂).recurrence = some (r.withEnding (.on before₂.second)).encode := rfl
  have hrule₁ : rest.recurrence = some (r.withEnding e₁).encode := rfl
  have hsplit₂₁ := split_eq (Rule.storable_withEnding_on hr _) hrule₂ hearly hpoint₁
    (Rule.mem_allowed_earlier hc₁ hc₂ hlt hbefore₂) hbefore₁ rfl hfinish₁ id₂₁ fresh₂₁
  have hsplit₁₂ := split_eq (Rule.storable_of_minus? hr he₁) hrule₁ hlater hpoint₂
    (Rule.mem_allowed_later hc₁ hc₂ hlt he₁) hbefore₂ hrest (hduration ▸ hfinish₂) id₁₂ fresh₁₂
  refine ⟨_, s₂, _, _, rest, _, late, _, hsplit₂, rfl, hsplit₂₁, rfl, hsplit₁, rfl, hsplit₁₂, rfl,
    ⟨rfl, rfl, rfl, ?_⟩, ⟨rfl, rfl, rfl, ?_⟩, ⟨rfl, rfl, rfl, ?_⟩⟩
  · exact early_of_early hle record.exceptions
  · exact late_of_early record.exceptions
  · exact (late_of_late hle record.exceptions).symm

/-- Tuesdays and Thursdays of every other week, seven times. -/
def swimmingDays : Rule :=
  ⟨.weekly (some ⟨[.tuesday, .thursday], by decide, by decide⟩), ⟨2, Nat.two_pos⟩,
    .after ⟨7, by decide⟩⟩

/-- Swimming from 16 January 2024 on, without the three Thursdays; one of the texts is no time. -/
def swimming : EventRecord where
  id := "swimming"
  start := Instant.ofDay 738900 64800000005 (by decide) (by decide)
  finish := Instant.ofDay 738900 70200000005 (by decide) (by decide)
  recurrence := some swimmingDays.encode
  exceptions := ["2024-01-18T18:00:00.000005Z", "to be confirmed",
    "2024-02-01T19:00:00.000005+01:00", "2024-02-15T18:00:00.000005Z"]

/-- The series of the event, with the three Thursdays. -/
def swimmingSeries : Series :=
  swimming.series swimmingDays ([738902, 738916, 738930].filterMap swimming.start.onDay?)

/-- The occurrence of 30 January. -/
def secondTuesday : Occurrence where
  seriesId := "swimming"
  start := Instant.ofDay 738914 64800000005 (by decide) (by decide)
  finish := Instant.ofDay 738914 70200000005 (by decide) (by decide)

/-- The occurrence of 13 February. -/
def thirdTuesday : Occurrence where
  seriesId := "swimming"
  start := Instant.ofDay 738928 64800000005 (by decide) (by decide)
  finish := Instant.ofDay 738928 70200000005 (by decide) (by decide)

/-- Split at its second and third Tuesday: of seven times, three are left at the end. -/
theorem split_comm_swimming :
    ∃ s₁ s₂ s₁₂ s₂₁ rest middle late late',
      swimming.split (Stamp.ofInstant thirdTuesday.start) (some "late") "" = .ok s₂ ∧
      s₂.continuation = some late ∧
      (swimming.shortened s₂).split (Stamp.ofInstant secondTuesday.start) (some "middle") "" =
        .ok s₂₁ ∧
      s₂₁.continuation = some middle ∧
      swimming.split (Stamp.ofInstant secondTuesday.start) none "rest" = .ok s₁ ∧
      s₁.continuation = some rest ∧
      rest.split (Stamp.ofInstant thirdTuesday.start) none "other" = .ok s₁₂ ∧
      s₁₂.continuation = some late' ∧
      Alike ((swimming.shortened s₂).shortened s₂₁) (swimming.shortened s₁) ∧
      Alike middle (rest.shortened s₁₂) ∧ Alike late late' ∧
      late'.recurrence = some "RRULE:FREQ=WEEKLY;INTERVAL=2;BYDAY=TU,TH;COUNT=3" := by
  have hstorable : swimmingDays.Storable := ⟨by decide, by rintro n ⟨⟩; decide⟩
  have hread : ∀ s ∈ swimming.exceptions, Instant.ofIso s ≠ .error .outOfRange := by decide +kernel
  have hcancelled : readExceptions swimming.exceptions =
      .ok ([738902, 738916, 738930].filterMap swimming.start.onDay?) := by
    decide +kernel
  have hfound : swimmingSeries.expand (.day (Date.ofDay 738899 (by decide)))
      (.day (Date.ofDay 738940 (by decide))) [] =
        .ok ([738900, 738914, 738928].filterMap fun n =>
          (swimming.start.onDay? n).bind (Occurrence.ofStart? swimmingSeries)) := by
    decide +kernel
  have hsecond : secondTuesday ∈ [738900, 738914, 738928].filterMap fun n =>
      (swimming.start.onDay? n).bind (Occurrence.ofStart? swimmingSeries) := by
    decide +kernel
  have hthird : thirdTuesday ∈ [738900, 738914, 738928].filterMap fun n =>
      (swimming.start.onDay? n).bind (Occurrence.ofStart? swimmingSeries) := by
    decide +kernel
  obtain ⟨s₁, s₂, s₁₂, s₂₁, rest, middle, late, late', hs₂, hlate, hs₂₁, hmiddle, hs₁, hrest, hs₁₂,
      hlate', hearly, hboth, hlast⟩ :=
    split_comm hstorable rfl hread (Series.ofRecord_of_encode rfl hcancelled) hfound hsecond hfound
      hthird (by decide +kernel) (by decide +kernel) (Stamp.utc_ofInstant secondTuesday.start)
      (Stamp.utc_ofInstant thirdTuesday.start) none (some "late") none (some "middle") "rest" ""
      "other" ""
  have hcount : swimming.split (Stamp.ofInstant thirdTuesday.start) (some "late") "" =
      .ok ⟨"RRULE:FREQ=WEEKLY;INTERVAL=2;BYDAY=TU,TH;UNTIL=20240213T175959Z",
        ["2024-01-18T18:00:00.000005Z", "2024-02-01T19:00:00.000005+01:00"],
        some ⟨"late", thirdTuesday.start, thirdTuesday.finish,
          some "RRULE:FREQ=WEEKLY;INTERVAL=2;BYDAY=TU,TH;COUNT=3",
          ["2024-02-15T18:00:00.000005Z"]⟩⟩ := by
    decide +kernel
  refine ⟨s₁, s₂, s₁₂, s₂₁, rest, middle, late, late', hs₂, hlate, hs₂₁, hmiddle, hs₁, hrest, hs₁₂,
    hlate', hearly, hboth, hlast, ?_⟩
  rw [← Except.ok.inj (hcount.symm.trans hs₂)] at hlate
  rw [← hlast.recurrence, ← Option.some.inj hlate]

end EventRecord

end Recurrence
