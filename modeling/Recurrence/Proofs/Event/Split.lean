import Mathlib.Control.Monad.Basic
import Recurrence.Proofs.Event.Exceptions
import Recurrence.Proofs.Expansion.Reanchor
import Recurrence.Proofs.Expansion.Series
import Recurrence.Proofs.Rule.RoundTrip

/-!
# Splitting a series loses nothing

A series is split at the start of one of its occurrences.  `EventRecord.split_eq` says what the two
parts are: the earlier one keeps the event and ends with the second before the split, the later one
starts at the split with what is left of the count, and each takes the cancelled starts that lie in
it.  Over any window the occurrences of the first part, followed by those of the second, take the
same spans of time as the occurrences of the whole (`EventRecord.split_tiles`).

A series can be split at other instants as well.  `EventRecord.splitsAt_of_split` says what a split that
succeeds has found, wherever it cuts.
-/

namespace Recurrence

/-! ## The cancelled starts of the two parts -/

/-- The instants among `whole` before a cutoff are `early`, and those from it on are `late`. -/
structure DividedAt (cutoff : Instant) (whole early late : List Instant) : Prop where
  early_iff : ∀ t, t ∈ early ↔ t ∈ whole ∧ t < cutoff
  late_iff : ∀ t, t ∈ late ↔ t ∈ whole ∧ cutoff ≤ t

namespace DividedAt

variable {cutoff t : Instant} {whole part early late : List Instant}

theorem contains_append_congr (h : t ∈ part ↔ t ∈ whole) (extra : List Instant) :
    (part ++ extra).contains t = (whole ++ extra).contains t := by
  rw [Bool.eq_iff_iff, List.contains_iff_mem, List.contains_iff_mem, List.mem_append, List.mem_append,
    h]

/-- Before the cutoff, the early ones are as good as all. -/
theorem contains_early (h : DividedAt cutoff whole early late) (ht : t < cutoff)
    (extra : List Instant) : (early ++ extra).contains t = (whole ++ extra).contains t :=
  contains_append_congr ((h.early_iff t).trans (and_iff_left ht)) extra

/-- From the cutoff on, the late ones are as good as all. -/
theorem contains_late (h : DividedAt cutoff whole early late) (ht : cutoff ≤ t)
    (extra : List Instant) : (late ++ extra).contains t = (whole ++ extra).contains t :=
  contains_append_congr ((h.late_iff t).trans (and_iff_left ht)) extra

end DividedAt

/-- Cancelled starts that can all be read go to the part in which they lie. -/
theorem readExceptions_partition (cutoff : Instant) {texts : List String}
    (h : ∀ s ∈ texts, ∃ t, Instant.ofIso s = .ok t) :
    ∃ whole early late, readExceptions texts = .ok whole ∧
      readExceptions (partitionExceptions cutoff texts).1 = .ok early ∧
      readExceptions (partitionExceptions cutoff texts).2 = .ok late ∧
      DividedAt cutoff whole early late := by
  have hread : ∀ s ∈ texts, Instant.ofIso s ≠ .error .outOfRange := by
    intro s hs hout
    obtain ⟨t, ht⟩ := h s hs
    exact absurd (ht.symm.trans hout) nofun
  rw [partitionExceptions_eq_filter]
  refine ⟨_, _, _, readExceptions_of_inRange hread, readExceptions_of_inRange (inRange_filter hread _),
    readExceptions_of_inRange (inRange_filter hread _), ⟨fun t => ?_, fun t => ?_⟩⟩
  · exact mem_spelledInstants_filter fun s => spellsBefore_eq_true_iff
  · exact mem_spelledInstants_filter fun s => spellsFrom_eq_true_iff

/-! ## The rules of the two parts -/

namespace Rule

variable {r : Rule} {a c : Instant} {e : Ending}

/-- What is left of a count has no more digits than the count. -/
theorem storable_of_minus? {used : Nat} (hr : r.Storable) (he : r.ending.minus? used = some e) :
    (r.withEnding e).Storable := by
  refine ⟨hr.1, fun m hm => ?_⟩
  have hm : e = .after m := hm
  cases hending : r.ending with
  | never =>
    rw [hending] at he
    cases (Option.some.inj he).trans hm
  | after n =>
    rw [hending, Ending.minus?] at he
    split at he
    · have hle : m.1 ≤ n.1 := by
        have hsub := Ending.after.inj ((Option.some.inj he).trans hm)
        rw [← hsub]
        exact Nat.sub_le _ _
      exact Nat.le_trans (Text.length_decimal_mono hle) (hr.2 n hending)
    · cases he
  | on s =>
    rw [hending] at he
    cases (Option.some.inj he).trans hm

/-- The starts that are consumed before a cut are the candidates before it. -/
theorem consumed_eq (hc : c ∈ r.allowed a) : r.consumed a c = .ok (r.before a c).length := by
  have hcand := mem_candidates_of_mem_allowed hc
  have hac : a ≤ c := (Instant.mem_candidates.1 hcand).2.2
  unfold consumed
  by_cases hle : c ≤ a
  · have hnil : r.before a c = [] := by
      apply List.eq_nil_iff_forall_not_mem.2
      intro t ht
      obtain ⟨htcand, htc⟩ := mem_before.1 ht
      have hat : a ≤ t := (Instant.mem_candidates.1 htcand).2.2
      exact Instant.lt_irrefl t (Nat.lt_of_lt_of_le htc (Nat.le_trans hle hat))
    rw [if_pos hle, hnil]
    rfl
  · rw [if_neg hle]
    have hlt : a.micros < c.micros := Instant.not_le.1 hle
    obtain ⟨u, hu⟩ : ∃ u, c.shift? (-1) = some u :=
      Instant.exists_shift?_neg (show 1 ≤ c.micros by omega)
    have hnext : u.micros + 1 = c.micros := Instant.shift?_neg_eq_some_iff.1 hu
    obtain ⟨e, he⟩ := minus?_isSome hc
    have hstarts : r.starts a (Stamp.ofInstant a) (Stamp.ofInstant u) = .ok (r.before a c) := by
      have hmicro : a.microOfSecond ≤ a.micros := Nat.mod_le _ _
      refine starts_eq_ok_iff.2 ⟨⟨hmicro, by omega⟩, ?_, ?_⟩
      · exact not_runsPast_of_lt hcand (show u.micros < c.micros by omega)
      · have hearlier : ((r.before a c).filter fun t => decide (a ≤ t) && decide (t ≤ u)) =
            r.before a c := by
          apply List.filter_eq_self.2
          intro t ht
          obtain ⟨htcand, htc⟩ := mem_before.1 ht
          have htu : t.micros ≤ u.micros := by
            have htc : t.micros < c.micros := htc
            omega
          rw [Bool.and_eq_true, decide_eq_true_iff, decide_eq_true_iff]
          exact ⟨(Instant.mem_candidates.1 htcand).2.2, htu⟩
        have hlater : (((r.withEnding e).allowed c).filter
            fun t => decide (a ≤ t) && decide (t ≤ u)) = [] := by
          apply List.filter_eq_nil_iff.2
          intro t ht
          have hct : c.micros ≤ t.micros :=
            (Instant.mem_candidates.1 (mem_candidates_of_mem_allowed ht)).2.2
          rw [Bool.and_eq_true, decide_eq_true_iff, decide_eq_true_iff]
          rintro ⟨-, htu⟩
          have htu : t.micros ≤ u.micros := htu
          omega
        rw [allowed_eq_append hc he, List.filter_append, hearlier, hlater, List.append_nil]
    simp only [hu, hstarts]
    rfl

/-- **The rule text of the later part** has what is left of the count. -/
theorem continuationRule_encode (hc : c ∈ r.allowed a)
    (he : r.ending.minus? (r.before a c).length = some e) :
    continuationRule r.encode r a c = .ok (some (r.withEnding e).encode) := by
  unfold continuationRule
  cases hending : r.ending with
  | never =>
    rw [hending] at he
    rw [← Option.some.inj he, withEnding_of_ending hending]
  | after n =>
    have hcount : r.ending.count? = some n.1 := by rw [hending]; rfl
    have hlt := length_before_lt_count hc hcount
    rw [hending, Ending.minus?, dif_pos hlt] at he
    simp only [consumed_eq hc, Except.map, if_neg (Nat.not_le.2 hlt), ← Option.some.inj he]
    exact congrArg (Except.ok ∘ some) (withCount_encode hending ⟨_, Nat.sub_pos_of_lt hlt⟩)
  | on s =>
    rw [hending] at he
    rw [← Option.some.inj he, withEnding_of_ending hending]

/-- The calendar has a second before a cut in the year 2 or later. -/
theorem exists_secondBefore (hc : 2 ≤ c.date.year) : ∃ last, c.shift? (-1000000) = some last := by
  have hyear := daysBeforeYear_mono hc
  have hdate := c.date.daysBeforeYear_le_toDay
  have htwo : daysBeforeYear 2 = 365 := by decide
  have hmicros := c.day_mul_add_timeOfDay
  rw [c.toDay_date] at hdate
  unfold microsPerDay at hmicros
  exact Instant.exists_shift?_neg (show 1000000 ≤ c.micros by omega)

end Rule

/-! ## The two parts -/

/-- The event that stays behind when a series is split. -/
def EventRecord.shortened (record : EventRecord) (s : SeriesSplit) : EventRecord :=
  { record with recurrence := some s.earlierRule, exceptions := s.earlierExceptions }

theorem Rule.encode_ne_empty (r : Rule) : r.encode ≠ "" := by
  intro h
  have htext := congrArg String.toList h
  rw [Rule.encode, String.toList_ofList] at htext
  exact absurd (List.append_eq_nil_iff.1 htext).1 (show rulePrefix ≠ [] by decide)

/-- The series of an event with this rule and these cancelled starts. -/
def EventRecord.series (record : EventRecord) (r : Rule) (cancelled : List Instant) : Series :=
  ⟨record.id, record.start, record.finish, r.encode, cancelled⟩

section Parts

variable {record : EventRecord} {r : Rule} {cancelled : List Instant}

theorem EventRecord.rule?_series (hr : r.Storable) : (record.series r cancelled).rule? = some r :=
  Rule.decode?_encode hr

/-- The series of an event that has a rule. -/
theorem Series.ofRecord_of_ne_empty {rule : String} (hrule : record.recurrence = some rule)
    (hne : rule ≠ "") :
    Series.ofRecord record = (readExceptions record.exceptions).map fun cancelled =>
      some ⟨record.id, record.start, record.finish, rule, cancelled⟩ := by
  unfold Series.ofRecord
  rw [hrule]
  split
  · rename_i h
    exact absurd h nofun
  · rename_i h
    exact absurd (Option.some.inj h) hne
  · rename_i text _ h
    rw [Option.some.inj h]

/-- The series of an event whose rule is written in canonical text. -/
theorem Series.ofRecord_of_encode (hrule : record.recurrence = some r.encode)
    (hread : readExceptions record.exceptions = .ok cancelled) :
    Series.ofRecord record = .ok (some (record.series r cancelled)) := by
  rw [Series.ofRecord_of_ne_empty hrule r.encode_ne_empty, hread]
  rfl

/-- **How an event with a canonical rule is split**: it is clamped, and what is left of its rule decides on
the continuation. -/
theorem EventRecord.split_of_encode {point : Stamp} {c last : Instant} (hr : r.Storable)
    (hrule : record.recurrence = some r.encode)
    (hread : readExceptions record.exceptions = .ok cancelled) (hpoint : point.utc = .ok c)
    (hlast : c.shift? (-1000000) = some last) (newId : Option String) (fresh : String) :
    record.split point newId fresh =
      match continuationRule r.encode r record.start c with
      | .error e => .error (.notCounted record.id e)
      | .ok none => .ok ⟨(r.withEnding (.on last.second)).encode,
          (partitionExceptions c record.exceptions).1, none⟩
      | .ok (some rule) =>
        match c.shift? (record.series r cancelled).duration with
        | none => .error (.time .outOfRange)
        | some finish => .ok ⟨(r.withEnding (.on last.second)).encode,
            (partitionExceptions c record.exceptions).1,
            some ⟨continuationId newId fresh, c, finish, some rule,
              (partitionExceptions c record.exceptions).2⟩⟩ := by
  have hclamp : clampUntil (record.series r cancelled).rule point =
      .ok (r.withEnding (.on last.second)).encode := Rule.clampUntil_encode r hpoint hlast
  unfold EventRecord.split
  simp only [Series.ofRecord_of_encode hrule hread, EventRecord.rule?_series hr, hpoint, hclamp]
  rfl

/-- **The two parts of a split event.** -/
theorem EventRecord.split_eq {point : Stamp} {c last finish : Instant} {e : Ending}
    (hr : r.Storable) (hrule : record.recurrence = some r.encode)
    (hread : readExceptions record.exceptions = .ok cancelled) (hpoint : point.utc = .ok c)
    (hc : c ∈ r.allowed record.start) (hlast : c.shift? (-1000000) = some last)
    (he : r.ending.minus? (r.before record.start c).length = some e)
    (hfinish : c.shift? (record.series r cancelled).duration = some finish)
    (newId : Option String) (fresh : String) :
    record.split point newId fresh =
      .ok ⟨(r.withEnding (.on last.second)).encode, (partitionExceptions c record.exceptions).1,
        some ⟨continuationId newId fresh, c, finish, some (r.withEnding e).encode,
          (partitionExceptions c record.exceptions).2⟩⟩ := by
  rw [split_of_encode hr hrule hread hpoint hlast]
  simp only [Rule.continuationRule_encode hc he, hfinish]

end Parts

/-! ## What a split has found -/

/-- The series of an event has its rule and the instants of its cancelled starts. -/
theorem Series.ofRecord_eq_some {record : EventRecord} {series : Series}
    (h : Series.ofRecord record = .ok (some series)) :
    ∃ rule cancelled, record.recurrence = some rule ∧ readExceptions record.exceptions = .ok cancelled ∧
      series = ⟨record.id, record.start, record.finish, rule, cancelled⟩ := by
  unfold Series.ofRecord at h
  split at h
  · cases h
  · cases h
  · rename_i rule _ hrule
    cases hread : readExceptions record.exceptions with
    | error e =>
      rw [hread] at h
      cases h
    | ok cancelled =>
      rw [hread] at h
      exact ⟨rule, cancelled, hrule, rfl, (Option.some.inj (Except.ok.inj h)).symm⟩

namespace EventRecord

/-- What a split that succeeds has found: the rule with its text, the cutoff, and the rule text that is
left for a continuation, if there is one. -/
structure SplitsAt (record : EventRecord) (point : Stamp) (newId : Option String) (fresh : String)
    (s : SeriesSplit) (rule : String) (r : Rule) (c : Instant) (next : Option String) : Prop where
  recurrence : record.recurrence = some rule
  decoded : Rule.decode? rule = some r
  cutoff : point.utc = .ok c
  clamped : clampUntil rule point = .ok s.earlierRule
  divided : s.earlierExceptions = (partitionExceptions c record.exceptions).1
  counted : continuationRule rule r record.start c = .ok next
  ended : next = none → s.continuation = none
  continued : ∀ text, next = some text → ∃ finish,
    c.shift? (record.finish.micros - record.start.micros : Nat) = some finish ∧
    s.continuation = some ⟨continuationId newId fresh, c, finish, some text,
      (partitionExceptions c record.exceptions).2⟩

/-- **A split that succeeds has taken every step.** -/
theorem splitsAt_of_split {record : EventRecord} {point : Stamp} {newId : Option String}
    {fresh : String} {s : SeriesSplit} (h : record.split point newId fresh = .ok s) :
    ∃ rule r c next, record.SplitsAt point newId fresh s rule r c next := by
  unfold split at h
  split at h
  · cases h
  · cases h
  · rename_i series hseries
    obtain ⟨rule, cancelled, hrule, -, rfl⟩ := Series.ofRecord_eq_some hseries
    split at h
    · cases h
    · rename_i r hr
      split at h
      · cases h
      · cases h
      · rename_i c clamped hc hclamped
        simp only at h
        split at h
        · cases h
        · rename_i hnext
          obtain rfl := Except.ok.inj h
          exact ⟨rule, r, c, none, hrule, hr, hc, hclamped, rfl, hnext, fun _ => rfl, nofun⟩
        · rename_i text hnext
          split at h
          · cases h
          · rename_i finish hfinish
            obtain rfl := Except.ok.inj h
            refine ⟨rule, r, c, some text, hrule, hr, hc, hclamped, rfl, hnext, nofun, ?_⟩
            rintro _ ⟨⟩
            exact ⟨finish, hfinish, rfl⟩

end EventRecord

/-! ## Nothing is lost -/

/-- The spans of `early` and then those of `late` are the spans of `whole`, cut at an instant. -/
structure Tiles (cut : Instant) (whole early late : List Occurrence) : Prop where
  spans : early.map Occurrence.span ++ late.map Occurrence.span = whole.map Occurrence.span
  early_lt : ∀ o ∈ early, o.start < cut
  late_ge : ∀ o ∈ late, cut ≤ o.start

theorem Tiles.nil (cut : Instant) : Tiles cut [] [] [] :=
  ⟨rfl, fun _ h => absurd h List.not_mem_nil, fun _ h => absurd h List.not_mem_nil⟩

/-- The spans of instances depend on the duration alone. -/
theorem map_span_filterMap {s : Series} {d : Nat} (hd : s.duration = d) (l : List Instant) :
    (l.filterMap (Occurrence.ofStart? s)).map Occurrence.span =
      l.filterMap fun t => (t.shift? d).map fun e => (t, e) := by
  rw [List.map_filterMap]
  subst hd
  exact congrArg (List.filterMap · l) (funext (Occurrence.map_span_ofStart? s))

/-- Starts that are cut in two, with the cancelled ones divided alike, give instances that tile. -/
theorem tiles_filterMap {cut : Instant} {l₁ l₂ whole early late extra : List Instant}
    {s s₁ s₂ : Series} (hdivided : DividedAt cut whole early late) (h₁ : ∀ t ∈ l₁, t < cut)
    (h₂ : ∀ t ∈ l₂, cut ≤ t) (hd₁ : s₁.duration = s.duration) (hd₂ : s₂.duration = s.duration) :
    Tiles cut
      (((l₁ ++ l₂).filter fun t => !(whole ++ extra).contains t).filterMap (Occurrence.ofStart? s))
      ((l₁.filter fun t => !(early ++ extra).contains t).filterMap (Occurrence.ofStart? s₁))
      ((l₂.filter fun t => !(late ++ extra).contains t).filterMap (Occurrence.ofStart? s₂)) := by
  have hkept₁ : (l₁.filter fun t => !(early ++ extra).contains t) =
      l₁.filter fun t => !(whole ++ extra).contains t := by
    refine List.filter_congr fun t ht => ?_
    rw [hdivided.contains_early (h₁ t ht)]
  have hkept₂ : (l₂.filter fun t => !(late ++ extra).contains t) =
      l₂.filter fun t => !(whole ++ extra).contains t := by
    refine List.filter_congr fun t ht => ?_
    rw [hdivided.contains_late (h₂ t ht)]
  refine ⟨?_, ?_, ?_⟩
  · rw [hkept₁, hkept₂, map_span_filterMap hd₁, map_span_filterMap hd₂, map_span_filterMap rfl,
      List.filter_append, List.filterMap_append]
  · intro o ho
    exact h₁ _ (List.mem_filter.1 (Series.start_mem_of_mem_filterMap ho)).1
  · intro o ho
    exact h₂ _ (List.mem_filter.1 (Series.start_mem_of_mem_filterMap ho)).1

namespace EventRecord

/-- **Splitting a series loses nothing.**  A series split at the start of one of its occurrences, in the
year 2 or later, has a continuation; and over any window in which the starts of the series can be had,
the occurrences of the shortened event and then those of the continuation take the spans of those of
the whole. -/
theorem split_tiles {record : EventRecord} {r : Rule} {series : Series} {first₀ last₀ : Moment}
    {extra₀ : List Stamp} {found : List Occurrence} {o : Occurrence} {point : Stamp}
    (hr : r.Storable) (hrule : record.recurrence = some r.encode)
    (hparse : ∀ s ∈ record.exceptions, ∃ t, Instant.ofIso s = .ok t)
    (hseries : Series.ofRecord record = .ok (some series))
    (hfound : series.expand first₀ last₀ extra₀ = .ok found) (ho : o ∈ found)
    (hpoint : point.utc = .ok o.start) (hyear : 2 ≤ o.start.date.year) (newId : Option String)
    (fresh : String) :
    ∃ s next early late,
      record.split point newId fresh = .ok s ∧ s.continuation = some next ∧
      Series.ofRecord (record.shortened s) = .ok (some early) ∧
      Series.ofRecord next = .ok (some late) ∧
      ∀ {first last : Moment} {extra : List Stamp} {lower upper : Instant}
        {cancelled starts : List Instant},
        first.opening = .ok lower → last.closing = .ok upper → instantsOf extra = .ok cancelled →
        r.starts series.start (Stamp.ofInstant lower) (Stamp.ofInstant upper) = .ok starts →
        ∃ whole before after,
          series.expand first last extra = .ok whole ∧
          early.expand first last extra = .ok before ∧
          late.expand first last extra = .ok after ∧ Tiles o.start whole before after := by
  obtain ⟨whole, early, late, hwhole, hearly, hlate, hdivided⟩ :=
    readExceptions_partition o.start hparse
  rw [Series.ofRecord_of_encode hrule hwhole] at hseries
  obtain rfl := Option.some.inj (Except.ok.inj hseries)
  obtain ⟨hc, hfinish⟩ := Series.mem_expand (rule?_series hr) hfound ho
  have hc : o.start ∈ r.allowed record.start := hc
  obtain ⟨last, hlast⟩ := Rule.exists_secondBefore hyear
  obtain ⟨e, he⟩ := Rule.minus?_isSome hc
  have hsplit := split_eq hr hrule hwhole hpoint hc hlast he hfinish newId fresh
  let next : EventRecord := ⟨continuationId newId fresh, o.start, o.finish,
    some (r.withEnding e).encode, (partitionExceptions o.start record.exceptions).2⟩
  let s : SeriesSplit := ⟨(r.withEnding (.on last.second)).encode,
    (partitionExceptions o.start record.exceptions).1, some next⟩
  have hfirst : ((record.shortened s).series (r.withEnding (.on last.second)) early).rule? =
      some (r.withEnding (.on last.second)) := rule?_series (Rule.storable_withEnding_on hr _)
  have hsecond : (next.series (r.withEnding e) late).rule? = some (r.withEnding e) :=
    rule?_series (Rule.storable_of_minus? hr he)
  have hduration : (next.series (r.withEnding e) late).duration =
      (record.series r whole).duration := by
    have hmicros := Instant.shift?_eq_some_iff.1 hfinish
    show o.finish.micros - o.start.micros = _
    omega
  refine ⟨s, next, (record.shortened s).series (r.withEnding (.on last.second)) early,
    next.series (r.withEnding e) late, hsplit, rfl, Series.ofRecord_of_encode rfl hearly,
    Series.ofRecord_of_encode rfl hlate, ?_⟩
  intro first last' extra lower upper cancelled starts hlower hupper hextra hstarts
  rw [Series.expand_of_bounds hlower hupper, Series.expand_of_bounds hlower hupper,
    Series.expand_of_bounds hlower hupper]
  by_cases hlt : lower < upper
  · obtain ⟨l₁, l₂, rfl, hstarts₁, hstarts₂, h₁, h₂⟩ := Rule.starts_eq_append hc hlast he hstarts
    exact ⟨_, _, _, Series.expandBetween_of_starts (rule?_series hr) hlt hextra hstarts,
      Series.expandBetween_of_starts hfirst hlt hextra hstarts₁,
      Series.expandBetween_of_starts hsecond hlt hextra hstarts₂,
      tiles_filterMap hdivided h₁ h₂ rfl hduration⟩
  · have hle : upper ≤ lower := Instant.not_lt.1 hlt
    exact ⟨[], [], [], if_pos hle, if_pos hle, if_pos hle, Tiles.nil _⟩

/-- The last Friday of every month, four times. -/
def lastFridays : Rule :=
  ⟨.monthly (some (.nth .last .friday)), Positive.one, .after ⟨4, by decide⟩⟩

/-- An hour on the last Fridays from 26 January 2024 on, without those of February and April. -/
def lastFridayCall : EventRecord where
  id := "call"
  start := Instant.ofDay 738910 32400000005 (by decide) (by decide)
  finish := Instant.ofDay 738910 36000000005 (by decide) (by decide)
  recurrence := some lastFridays.encode
  exceptions := ["2024-02-23T09:00:00.000005Z", "2024-04-26T11:00:00.000005+02:00"]

/-- The series of the call, with the two cancelled starts. -/
def lastFridaySeries : Series :=
  lastFridayCall.series lastFridays ([738938, 739001].filterMap lastFridayCall.start.onDay?)

/-- The call of 29 March. -/
def marchCall : Occurrence where
  seriesId := "call"
  start := Instant.ofDay 738973 32400000005 (by decide) (by decide)
  finish := Instant.ofDay 738973 36000000005 (by decide) (by decide)

def newYearsEve2023 : Moment := .day (Date.ofDay 738884 (by decide))

def newYearsEve2024 : Moment := .day (Date.ofDay 739250 (by decide))

/-- The calls of January and March, split between the two. -/
theorem split_tiles_lastFridayCall :
    ∃ s next early late,
      lastFridayCall.split (Stamp.ofInstant marchCall.start) (some "later") "fresh" = .ok s ∧
      s.continuation = some next ∧
      Series.ofRecord (lastFridayCall.shortened s) = .ok (some early) ∧
      Series.ofRecord next = .ok (some late) ∧
      ∃ whole before after,
        lastFridaySeries.expand newYearsEve2023 newYearsEve2024 [] = .ok whole ∧
        early.expand newYearsEve2023 newYearsEve2024 [] = .ok before ∧
        late.expand newYearsEve2023 newYearsEve2024 [] = .ok after ∧
        whole.length = 2 ∧ marchCall ∈ whole ∧ Tiles marchCall.start whole before after := by
  have hstorable : lastFridays.Storable := ⟨by decide, by rintro n ⟨⟩; decide⟩
  have hread : readExceptions lastFridayCall.exceptions =
      .ok ([738938, 739001].filterMap lastFridayCall.start.onDay?) := by
    decide +kernel
  have hparse : ∀ s ∈ lastFridayCall.exceptions, ∃ t, Instant.ofIso s = .ok t := by
    intro s hs
    rcases List.mem_cons.1 hs with rfl | hs
    · exact ⟨Instant.ofDay 738938 32400000005 (by decide) (by decide), by decide +kernel⟩
    · rw [List.mem_singleton.1 hs]
      exact ⟨Instant.ofDay 739001 32400000005 (by decide) (by decide), by decide +kernel⟩
  have hfound : lastFridaySeries.expand newYearsEve2023 newYearsEve2024 [] =
      .ok ([738910, 738973].filterMap fun n =>
        (lastFridayCall.start.onDay? n).bind (Occurrence.ofStart? lastFridaySeries)) := by
    decide +kernel
  have hmarch : marchCall ∈ [738910, 738973].filterMap fun n =>
      (lastFridayCall.start.onDay? n).bind (Occurrence.ofStart? lastFridaySeries) := by
    decide +kernel
  have hpoint : (Stamp.ofInstant marchCall.start).utc = .ok marchCall.start := by decide +kernel
  have hstarts : lastFridays.starts lastFridaySeries.start
      (Stamp.ofInstant (Instant.ofDay 738884 0 (by decide) (by decide)))
      (Stamp.ofInstant (Instant.ofDay 739250 86399999999 (by decide) (by decide))) =
        .ok ([738910, 738938, 738973, 739001].filterMap lastFridayCall.start.onDay?) := by
    decide +kernel
  obtain ⟨s, next, early, late, hsplit, hnext, hearly, hlate, htiles⟩ :=
    split_tiles hstorable rfl hparse (Series.ofRecord_of_encode rfl hread) hfound hmarch
      hpoint (by decide +kernel) (some "later") "fresh"
  obtain ⟨whole, before, after, hwhole, hbefore, hafter, htile⟩ :=
    @htiles newYearsEve2023 newYearsEve2024 [] _ _ _ _ (by decide +kernel) (by decide +kernel) rfl
      hstarts
  refine ⟨s, next, early, late, hsplit, hnext, hearly, hlate, whole, before, after, hwhole, hbefore,
    hafter, ?_, ?_, htile⟩
  · rw [← Except.ok.inj (hfound.symm.trans hwhole)]
    decide +kernel
  · rw [← Except.ok.inj (hfound.symm.trans hwhole)]
    exact hmarch

end EventRecord

end Recurrence
