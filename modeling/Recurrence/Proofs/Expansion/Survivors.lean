import Recurrence.Proofs.Expansion.Clamp

/-!
# What is left of the candidates

Of the starts of its rule a series shows those that no exception names, to the microsecond, and whose
end the calendar has; all last as long as the series itself (`Series.Survivors`).  The starts are looked
for without regard to exceptions, so a cancelled one has used up its part of a count.

The exceptions of the series are instants, those that are handed over with the window are stamps.  A
stamp may name a time outside the calendar, and then there is no expansion at all
(`Series.daily_fails`).  If each of them is an instant, the expansion is there, and it shows the
survivors (`Series.expand_survivors`).
-/

namespace Recurrence

/-! ## The instants of stamps -/

/-- Stamps have instants if each of them has one. -/
theorem exists_instantsOf_iff {extra : List Stamp} :
    (∃ l, instantsOf extra = .ok l) ↔ ∀ x ∈ extra, ∃ t, x.utc = .ok t := by
  induction extra with
  | nil =>
    refine ⟨fun _ x hx => absurd hx List.not_mem_nil, fun _ => ⟨[], rfl⟩⟩
  | cons x extra ih =>
    rw [List.forall_mem_cons, ← ih]
    cases hx : x.utc with
    | error e =>
      constructor
      · rintro ⟨l, hl⟩
        simp only [instantsOf, hx] at hl
        exact absurd hl nofun
      · rintro ⟨⟨t, ht⟩, -⟩
        exact absurd ht nofun
    | ok t =>
      cases hextra : instantsOf extra with
      | error e =>
        constructor
        · rintro ⟨l, hl⟩
          simp only [instantsOf, hx, hextra] at hl
          exact absurd hl nofun
        · rintro ⟨-, l, hl⟩
          exact absurd hl nofun
      | ok l =>
        refine ⟨fun _ => ⟨⟨t, rfl⟩, l, rfl⟩, fun _ => ⟨t :: l, ?_⟩⟩
        simp only [instantsOf, hx, hextra]
        rfl

theorem mem_of_instantsOf {extra : List Stamp} {l : List Instant} {t : Instant}
    (h : instantsOf extra = .ok l) : t ∈ l ↔ ∃ x ∈ extra, x.utc = .ok t := by
  induction extra generalizing l with
  | nil =>
    obtain rfl : [] = l := Except.ok.inj h
    simp
  | cons x extra ih =>
    cases hx : x.utc with
    | error e =>
      simp only [instantsOf, hx] at h
      exact absurd h nofun
    | ok u =>
      cases hextra : instantsOf extra with
      | error e =>
        simp only [instantsOf, hx, hextra] at h
        exact absurd h nofun
      | ok rest =>
        simp only [instantsOf, hx, hextra] at h
        obtain rfl : u :: rest = l := Except.ok.inj h
        rw [List.mem_cons, ih hextra]
        constructor
        · rintro (rfl | ⟨y, hy, ht⟩)
          · exact ⟨x, List.mem_cons_self, hx⟩
          · exact ⟨y, List.mem_cons_of_mem x hy, ht⟩
        · rintro ⟨y, hy, ht⟩
          rcases List.mem_cons.1 hy with rfl | hy
          · exact .inl (Except.ok.inj (ht.symm.trans hx))
          · exact .inr ⟨y, hy, ht⟩

namespace Series

variable {s : Series} {r : Rule} {lower upper : Instant} {extra : List Stamp}
  {starts cancelled : List Instant} {found : List Occurrence}

/-- What an expansion shows of the candidates: those that are not cancelled and end in the calendar, in
their order, each with the duration of the series. -/
structure Survivors (s : Series) (lower upper : Instant) (extra : List Stamp)
    (starts : List Instant) (found : List Occurrence) : Prop where
  ascending : (found.map Occurrence.start).Pairwise (· < ·)
  named : ∀ o ∈ found, o.seriesId = s.id
  notBefore : ∀ o ∈ found, s.start ≤ o.start
  inWindow : ∀ o ∈ found, lower ≤ o.start ∧ o.start ≤ upper
  lasting : ∀ o ∈ found,
    (o.finish.micros : Int) = o.start.micros + max 0 ((s.finish.micros : Int) - s.start.micros)
  shown : ∀ t, t ∈ found.map Occurrence.start ↔
    t ∈ starts ∧ t ∉ s.exceptions ∧ (∀ x ∈ extra, x.utc ≠ .ok t) ∧
      (t.shift? s.duration).isSome = true
  cutOff : ∀ t ∈ starts, t.shift? s.duration = none → ∀ o ∈ found, o.start < t

/-- The occurrences at some starts have those of them whose end the calendar has. -/
theorem map_start_eq_filter (s : Series) (l : List Instant) :
    (l.filterMap (Occurrence.ofStart? s)).map Occurrence.start =
      l.filter fun t => (t.shift? s.duration).isSome := by
  have hends : (l.filter fun t => true && (t.shift? s.duration).isSome) =
      l.filter fun t => (t.shift? s.duration).isSome :=
    List.filter_congr fun t _ => Bool.true_and _
  have hall : (l.filter fun _ => true) = l := List.filter_eq_self.2 fun _ _ => rfl
  have hmap := map_start_filterMap (s := s) (l := l.filter fun t => (t.shift? s.duration).isSome)
    fun t ht => (List.mem_filter.1 ht).2
  rwa [← hends, filterMap_ofStart?_filter, hall, hends] at hmap

theorem of_mem_filterMap {l : List Instant} {o : Occurrence}
    (h : o ∈ l.filterMap (Occurrence.ofStart? s)) :
    o.start ∈ l ∧ o.seriesId = s.id ∧ o.start.shift? s.duration = some o.finish := by
  obtain ⟨t, ht, hto⟩ := List.mem_filterMap.1 h
  obtain ⟨hid, rfl, hfinish⟩ := Occurrence.ofStart?_eq_some_iff.1 hto
  exact ⟨ht, hid, hfinish⟩

/-- The starts that are not cancelled leave their survivors. -/
theorem survivors_filterMap (hextra : instantsOf extra = .ok cancelled)
    (hstarts : r.starts s.start (Stamp.ofInstant lower) (Stamp.ofInstant upper) = .ok starts) :
    s.Survivors lower upper extra starts
      ((starts.filter fun t => !(s.exceptions ++ cancelled).contains t).filterMap
        (Occurrence.ofStart? s)) := by
  obtain ⟨-, -, hwindow⟩ := Rule.starts_eq_ok_iff.1 hstarts
  have hcancelled (t : Instant) : (!(s.exceptions ++ cancelled).contains t) = true ↔
      t ∉ s.exceptions ∧ ∀ x ∈ extra, x.utc ≠ .ok t := by
    rw [Bool.not_eq_true', ← Bool.not_eq_true, List.contains_iff_mem, List.mem_append, not_or,
      mem_of_instantsOf hextra]
    simp only [not_exists, not_and, ne_eq]
  have hstart : ∀ t ∈ starts, t ∈ r.candidates s.start ∧ lower ≤ t ∧ t ≤ upper := by
    intro t ht
    rw [hwindow, List.mem_filter, Bool.and_eq_true, decide_eq_true_iff, decide_eq_true_iff] at ht
    exact ⟨(r.allowed_sublist s.start).subset ht.1, ht.2⟩
  constructor
  case ascending =>
    rw [map_start_eq_filter, hwindow]
    exact (((r.allowed_sorted s.start).filter _).filter _).filter _
  case named =>
    intro o ho
    exact (of_mem_filterMap ho).2.1
  case notBefore =>
    intro o ho
    have hcandidate := (hstart _ (List.mem_filter.1 (of_mem_filterMap ho).1).1).1
    exact (Instant.mem_candidates.1 hcandidate).2.2
  case inWindow =>
    intro o ho
    exact (hstart _ (List.mem_filter.1 (of_mem_filterMap ho).1).1).2
  case lasting =>
    intro o ho
    have hfinish := Instant.shift?_eq_some_iff.1 (of_mem_filterMap ho).2.2
    unfold duration at hfinish
    omega
  case shown =>
    intro t
    rw [map_start_eq_filter, List.mem_filter, List.mem_filter, hcancelled, and_assoc, and_assoc]
  case cutOff =>
    -- A start that ends in the calendar comes before one that does not.
    intro t _ hend o ho
    apply Instant.not_le.1
    intro hle
    have hfinish : (o.start.shift? s.duration).isSome = true := by
      rw [(of_mem_filterMap ho).2.2]
      rfl
    have hends := Instant.shift?_isSome_of_le hle hfinish
    rw [hend] at hends
    exact absurd hends nofun

/-- **An expansion shows the survivors.**  Where the starts of the rule can be had, there is an
expansion if each of the stamps handed over has an instant, and what it shows is what is left of the
starts. -/
theorem expand_survivors {first last : Moment} (hrule : s.rule? = some r)
    (hfirst : first.opening = .ok lower) (hlast : last.closing = .ok upper) (hlt : lower < upper)
    (hstarts : r.starts s.start (Stamp.ofInstant lower) (Stamp.ofInstant upper) = .ok starts)
    (extra : List Stamp) :
    ((∃ found, s.expand first last extra = .ok found) ↔ ∀ x ∈ extra, ∃ t, x.utc = .ok t) ∧
      ∀ found, s.expand first last extra = .ok found →
        s.Survivors lower upper extra starts found := by
  rw [expand_of_bounds hfirst hlast, ← exists_instantsOf_iff]
  cases hextra : instantsOf extra with
  | error e =>
    rw [expandBetween_of_error hrule hlt hextra]
    exact ⟨⟨fun ⟨_, h⟩ => absurd h nofun, fun ⟨_, h⟩ => absurd h nofun⟩, nofun⟩
  | ok cancelled =>
    rw [expandBetween_of_starts hrule hlt hextra hstarts]
    refine ⟨⟨fun _ => ⟨_, rfl⟩, fun _ => ⟨_, rfl⟩⟩, fun found hfound => ?_⟩
    rw [← Except.ok.inj hfound]
    exact survivors_filterMap hextra hstarts

/-- Of the six starts of the stand-up one is an exception of its own, and another is handed over on a
clock that is an hour ahead.  The other four are left. -/
theorem expand_survivors_standUp :
    ∃ lower upper starts found, fifthOfJanuary.opening = .ok lower ∧
      endOfJanuary.closing = .ok upper ∧
      mondaysThursdays.starts standUp.start (Stamp.ofInstant lower) (Stamp.ofInstant upper) =
        .ok starts ∧
      starts.map (·.day) = [739620, 739623, 739627, 739630, 739634, 739637] ∧
      standUp.expand fifthOfJanuary endOfJanuary [fourthStandUp] = .ok found ∧
      found.map (·.start.day) = [739620, 739627, 739634, 739637] ∧
      standUp.Survivors lower upper [fourthStandUp] starts found := by
  have hdecode : standUp.rule? = some mondaysThursdays :=
    Rule.decode?_encode ⟨by decide, by rintro n ⟨⟩; decide⟩
  have hfirst : fifthOfJanuary.opening = .ok (Instant.ofDay 739620 0 (by decide) (by decide)) := by
    decide +kernel
  have hlast : endOfJanuary.closing =
      .ok (Instant.ofDay 739646 86399999999 (by decide) (by decide)) := by
    decide +kernel
  have hstarts : mondaysThursdays.starts standUp.start
      (Stamp.ofInstant (Instant.ofDay 739620 0 (by decide) (by decide)))
      (Stamp.ofInstant (Instant.ofDay 739646 86399999999 (by decide) (by decide))) =
        .ok ([739620, 739623, 739627, 739630, 739634, 739637].filterMap standUp.start.onDay?) := by
    decide +kernel
  have hextra : ∀ x ∈ [fourthStandUp], ∃ t, x.utc = .ok t := by
    intro x hx
    rw [List.mem_singleton.1 hx]
    exact ⟨Instant.ofDay 739630 37800000005 (by decide) (by decide), by decide +kernel⟩
  obtain ⟨hexpands, hsurvivors⟩ :=
    expand_survivors hdecode hfirst hlast (by decide) hstarts [fourthStandUp]
  obtain ⟨found, hfound⟩ := hexpands.2 hextra
  have hdays : (standUp.expand fifthOfJanuary endOfJanuary [fourthStandUp]).map
      (List.map (·.start.day)) = .ok [739620, 739627, 739634, 739637] := by
    decide +kernel
  rw [hfound] at hdays
  exact ⟨_, _, _, found, hfirst, hlast, hstarts, by decide +kernel, hfound, Except.ok.inj hdays,
    hsurvivors found hfound⟩

/-! ## A stamp outside the calendar -/

/-- An hour a day, from 4 March 2024 at 10:15 on. -/
def dailyHour : Series where
  id := "run"
  start := Instant.ofDay 738948 36900000000 (by decide) (by decide)
  finish := Instant.ofDay 738948 40500000000 (by decide) (by decide)
  rule := (⟨.daily, Positive.one, .never⟩ : Rule).encode
  exceptions := []

/-- 4 March 2024, as a day. -/
def fourthOfMarch : Moment := .day (Date.ofDay 738948 (by decide))

/-- 5 March 2024, as a day. -/
def fifthOfMarch : Moment := .day (Date.ofDay 738949 (by decide))

/-- The first midnight of the year 1 on a clock that is half an hour ahead: in universal time, the
year 0. -/
def beforeCalendar : Stamp :=
  ⟨Instant.ofDate (Date.ofDay 0 (by decide)), some ⟨1800000000, by decide, by decide⟩⟩

/-- The two starts are there and have nothing to do with the stamp, and still there is no expansion. -/
theorem daily_fails :
    (∃ r lower upper starts, dailyHour.rule? = some r ∧ fourthOfMarch.opening = .ok lower ∧
      fifthOfMarch.closing = .ok upper ∧ lower < upper ∧
      r.starts dailyHour.start (Stamp.ofInstant lower) (Stamp.ofInstant upper) = .ok starts ∧
      starts.map (·.day) = [738948, 738949]) ∧
      dailyHour.expand fourthOfMarch fifthOfMarch [beforeCalendar] = .error .outOfRange := by
  refine ⟨⟨_, _, _, [738948, 738949].filterMap dailyHour.start.onDay?,
    Rule.decode?_encode ⟨by decide, nofun⟩, rfl, rfl, ?_, ?_, ?_⟩, ?_⟩ <;> decide +kernel

end Series

end Recurrence
