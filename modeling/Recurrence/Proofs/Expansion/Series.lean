import Recurrence.Expansion.Series
import Recurrence.Proofs.Expansion.Scan

/-!
# The occurrences of a series

The starts of a rule are in ascending order, and of two starts the earlier one also ends earlier.  So
stopping at the first start whose end lies beyond the calendar is the same as leaving out all such
starts (`Series.instances_eq_filterMap`): a series has one occurrence for each start that is not
cancelled and whose end lies in the calendar.

These starts are `Series.shown`.  They determine the expansion between two instants
(`Series.expandBetween_eq_shown`), and all of them are allowed starts of the rule
(`Series.mem_expand`).

An expansion passes over a rule that cannot be followed.  `Series.ExpandsTo` says that this did not
happen, and `Series.expandsTo_iff` what the occurrences are then.
-/

namespace Recurrence

namespace Occurrence

/-- Start and end, without the name of the series. -/
def span (o : Occurrence) : Instant × Instant := (o.start, o.finish)

theorem ofStart?_eq_some_iff {s : Series} {t : Instant} {o : Occurrence} :
    ofStart? s t = some o ↔ o.seriesId = s.id ∧ o.start = t ∧ t.shift? s.duration = some o.finish := by
  unfold ofStart?
  rw [Option.map_eq_some_iff]
  constructor
  · rintro ⟨e, he, rfl⟩
    exact ⟨rfl, rfl, he⟩
  · rintro ⟨hid, hstart, he⟩
    refine ⟨o.finish, he, ?_⟩
    rw [← hid, ← hstart]

theorem map_span_ofStart? (s : Series) (t : Instant) :
    (ofStart? s t).map span = (t.shift? s.duration).map fun e => (t, e) := by
  unfold ofStart?
  rw [Option.map_map]
  rfl

end Occurrence

namespace Series

variable {s s₁ s₂ : Series} {r : Rule} {lower upper : Instant} {extra : List Stamp}
  {cancelled starts : List Instant}

/-- **One occurrence for each start that is not cancelled and ends in the calendar.** -/
theorem instances_eq_filterMap (s : Series) (excluded : List Instant)
    (h : starts.Pairwise (· < ·)) :
    s.instances excluded starts =
      (starts.filter fun t => !excluded.contains t).filterMap (Occurrence.ofStart? s) := by
  have hsorted := h.filter fun t => !excluded.contains t
  have hends : ∀ t u : Instant, t < u →
      (Option.isSome ∘ Occurrence.ofStart? s) u = true →
        (Option.isSome ∘ Occurrence.ofStart? s) t = true := by
    intro t u htu hu
    simp only [Function.comp, Occurrence.ofStart?, Option.isSome_map] at hu ⊢
    exact Instant.shift?_isSome_of_le (Nat.le_of_lt htu) hu
  unfold instances
  rw [List.takeWhile_map, takeWhile_eq_filter hsorted hends, List.filterMap_map]
  generalize starts.filter (fun t => !excluded.contains t) = kept
  induction kept with
  | nil => rfl
  | cons t kept ih =>
    cases ht : Occurrence.ofStart? s t with
    | none =>
      rw [List.filter_cons_of_neg (by simp [ht]), List.filterMap_cons_none ht, ih]
    | some o =>
      have hid : ((fun o => o) ∘ Occurrence.ofStart? s) t = some o := ht
      rw [List.filter_cons_of_pos (by simp [ht]), List.filterMap_cons_some ht,
        List.filterMap_cons_some hid, ih]

/-- An expansion whose starts can be had. -/
theorem expandBetween_of_starts (hrule : s.rule? = some r) (hlt : lower < upper)
    (hextra : instantsOf extra = .ok cancelled)
    (hstarts : r.starts s.start (Stamp.ofInstant lower) (Stamp.ofInstant upper) = .ok starts) :
    s.expandBetween lower upper extra =
      .ok ((starts.filter fun t => !(s.exceptions ++ cancelled).contains t).filterMap
        (Occurrence.ofStart? s)) := by
  have hsorted : starts.Pairwise (· < ·) := by
    obtain ⟨-, -, rfl⟩ := Rule.starts_eq_ok_iff.1 hstarts
    exact (r.allowed_sorted s.start).filter _
  unfold expandBetween
  rw [if_neg (Instant.not_le.2 hlt), hrule]
  simp only [hextra, hstarts, instances_eq_filterMap s _ hsorted]

theorem expandBetween_of_error {e : TimeError} (hrule : s.rule? = some r) (hlt : lower < upper)
    (hextra : instantsOf extra = .error e) : s.expandBetween lower upper extra = .error e := by
  unfold expandBetween
  rw [if_neg (Instant.not_le.2 hlt), hrule]
  simp only [hextra]

/-! ## The starts that are shown -/

/-- The starts of the occurrences between two instants. -/
def shown (s : Series) (lower upper : Instant) (cancelled : List Instant) : List Instant :=
  if upper ≤ lower then []
  else
    match s.rule? with
    | none => []
    | some r =>
      match r.starts s.start (Stamp.ofInstant lower) (Stamp.ofInstant upper) with
      | .error _ => []
      | .ok starts =>
        starts.filter fun t =>
          !(s.exceptions ++ cancelled).contains t && (t.shift? s.duration).isSome

/-- The first start that the rule of the series allows. -/
def firstStart (s : Series) : Option Instant := s.rule?.bind fun r => (r.allowed s.start).head?

theorem filterMap_ofStart?_filter (s : Series) (p : Instant → Bool) (l : List Instant) :
    (l.filter fun t => p t && (t.shift? s.duration).isSome).filterMap (Occurrence.ofStart? s) =
      (l.filter p).filterMap (Occurrence.ofStart? s) := by
  rw [List.filterMap_filter, List.filterMap_filter]
  refine congrArg (List.filterMap · l) (funext fun t => ?_)
  unfold Occurrence.ofStart?
  cases p t with
  | false => rfl
  | true => cases t.shift? s.duration <;> rfl

/-- **The occurrences between two instants are those of the starts that are shown.** -/
theorem expandBetween_eq_shown (s : Series) (lower upper : Instant)
    (hextra : instantsOf extra = .ok cancelled) :
    s.expandBetween lower upper extra =
      .ok ((s.shown lower upper cancelled).filterMap (Occurrence.ofStart? s)) := by
  by_cases hle : upper ≤ lower
  · rw [expandBetween, shown, if_pos hle, if_pos hle]
    rfl
  · cases hrule : s.rule? with
    | none =>
      rw [expandBetween, shown, if_neg hle, if_neg hle, hrule]
      rfl
    | some r =>
      cases hstarts : r.starts s.start (Stamp.ofInstant lower) (Stamp.ofInstant upper) with
      | error e =>
        rw [expandBetween, shown, if_neg hle, if_neg hle, hrule]
        simp only [hextra, hstarts]
        rfl
      | ok starts =>
        rw [expandBetween_of_starts hrule (Instant.not_le.1 hle) hextra hstarts, shown, if_neg hle,
          hrule]
        simp only [hstarts, filterMap_ofStart?_filter]

theorem ends_of_mem_shown {t : Instant} (h : t ∈ s.shown lower upper cancelled) :
    (t.shift? s.duration).isSome = true := by
  unfold shown at h
  split at h
  · exact absurd h List.not_mem_nil
  · split at h
    · exact absurd h List.not_mem_nil
    · split at h
      · exact absurd h List.not_mem_nil
      · have hkept := (List.mem_filter.1 h).2
        rw [Bool.and_eq_true] at hkept
        exact hkept.2

theorem mem_allowed_of_mem_shown {t : Instant} (hrule : s.rule? = some r)
    (h : t ∈ s.shown lower upper cancelled) : t ∈ r.allowed s.start := by
  unfold shown at h
  rw [hrule] at h
  split at h
  · exact absurd h List.not_mem_nil
  · simp only at h
    split at h
    · exact absurd h List.not_mem_nil
    · rename_i starts hstarts
      obtain ⟨-, -, rfl⟩ := Rule.starts_eq_ok_iff.1 hstarts
      exact (List.mem_filter.1 (List.mem_filter.1 h).1).1

/-- What is shown is allowed by a rule that can be read. -/
theorem exists_rule_of_mem_shown {t : Instant} (h : t ∈ s.shown lower upper cancelled) :
    ∃ r, s.rule? = some r ∧ t ∈ r.allowed s.start := by
  cases hrule : s.rule? with
  | none =>
    unfold shown at h
    rw [hrule] at h
    split at h
    · exact absurd h List.not_mem_nil
    · exact absurd h List.not_mem_nil
  | some r => exact ⟨r, rfl, mem_allowed_of_mem_shown hrule h⟩

theorem start_mem_of_mem_filterMap {l : List Instant} {o : Occurrence}
    (h : o ∈ l.filterMap (Occurrence.ofStart? s)) : o.start ∈ l := by
  obtain ⟨t, ht, hto⟩ := List.mem_filterMap.1 h
  rw [(Occurrence.ofStart?_eq_some_iff.1 hto).2.1]
  exact ht

/-- The occurrences that are shown start when they should. -/
theorem map_start_filterMap {l : List Instant} (h : ∀ t ∈ l, (t.shift? s.duration).isSome = true) :
    (l.filterMap (Occurrence.ofStart? s)).map Occurrence.start = l := by
  induction l with
  | nil => rfl
  | cons t l ih =>
    obtain ⟨u, hu⟩ := Option.isSome_iff_exists.1 (h t List.mem_cons_self)
    have ht : Occurrence.ofStart? s t = some ⟨s.id, t, u⟩ :=
      Occurrence.ofStart?_eq_some_iff.2 ⟨rfl, rfl, hu⟩
    rw [List.filterMap_cons_some ht, List.map_cons, ih fun v hv => h v (List.mem_cons_of_mem t hv)]

/-! ## Expansions between moments -/

theorem mem_expandBetween {found : List Occurrence} {o : Occurrence} (hrule : s.rule? = some r)
    (hfound : s.expandBetween lower upper extra = .ok found) (ho : o ∈ found) :
    o.start ∈ r.allowed s.start ∧ o.start.shift? s.duration = some o.finish := by
  cases hextra : instantsOf extra with
  | error e =>
    unfold expandBetween at hfound
    split at hfound
    · rw [← Except.ok.inj hfound] at ho
      exact absurd ho List.not_mem_nil
    · simp only [hrule, hextra] at hfound
      exact absurd hfound nofun
  | ok cancelled =>
    rw [expandBetween_eq_shown s lower upper hextra] at hfound
    rw [← Except.ok.inj hfound] at ho
    obtain ⟨t, ht, hto⟩ := List.mem_filterMap.1 ho
    obtain ⟨-, rfl, hfinish⟩ := Occurrence.ofStart?_eq_some_iff.1 hto
    exact ⟨mem_allowed_of_mem_shown hrule ht, hfinish⟩

variable {first last : Moment}

theorem expand_of_bounds (hlower : first.opening = .ok lower) (hupper : last.closing = .ok upper)
    (s : Series) (extra : List Stamp) :
    s.expand first last extra = s.expandBetween lower upper extra := by
  unfold expand
  rw [hlower, hupper]
  rfl

/-- The expansion between two stamps of universal time. -/
def expandUtc (s : Series) (lower upper : Instant) (extra : List Stamp) :
    Except TimeError (List Occurrence) :=
  s.expand (.stamp (Stamp.ofInstant lower)) (.stamp (Stamp.ofInstant upper)) extra

theorem expandUtc_eq_shown (s : Series) (lower upper : Instant)
    (hextra : instantsOf extra = .ok cancelled) :
    s.expandUtc lower upper extra =
      .ok ((s.shown lower upper cancelled).filterMap (Occurrence.ofStart? s)) := by
  have hlower : (Moment.stamp (Stamp.ofInstant lower)).opening = .ok lower := Stamp.utc_ofInstant lower
  have hupper : (Moment.stamp (Stamp.ofInstant upper)).closing = .ok upper := Stamp.utc_ofInstant upper
  exact (expand_of_bounds hlower hupper s extra).trans (s.expandBetween_eq_shown lower upper hextra)

theorem bounds_of_expand {found : List Occurrence} (h : s.expand first last extra = .ok found) :
    ∃ lower upper, first.opening = .ok lower ∧ last.closing = .ok upper ∧
      s.expandBetween lower upper extra = .ok found := by
  unfold expand at h
  cases hlower : first.opening with
  | error e =>
    rw [hlower] at h
    exact absurd h nofun
  | ok lower =>
    cases hupper : last.closing with
    | error e =>
      rw [hlower, hupper] at h
      exact absurd h nofun
    | ok upper =>
      rw [hlower, hupper] at h
      exact ⟨lower, upper, rfl, rfl, h⟩

/-- The occurrences in a window for which no error was passed over: where the window has a length, the
starts of the rule could be had. -/
structure ExpandsTo (s : Series) (first last : Moment) (extra : List Stamp)
    (found : List Occurrence) : Prop where
  expands : s.expand first last extra = .ok found
  followed : ∀ r lower upper, s.rule? = some r → first.opening = .ok lower →
    last.closing = .ok upper → lower < upper →
      ∃ starts, r.starts s.start (Stamp.ofInstant lower) (Stamp.ofInstant upper) = .ok starts

/-- **Either the window is empty, or there is one occurrence for each start that is left.** -/
theorem expandsTo_iff {found : List Occurrence} (hrule : s.rule? = some r) :
    s.ExpandsTo first last extra found ↔
      ∃ lower upper, first.opening = .ok lower ∧ last.closing = .ok upper ∧
        ((upper ≤ lower ∧ found = []) ∨
          lower < upper ∧ ∃ cancelled starts, instantsOf extra = .ok cancelled ∧
            r.starts s.start (Stamp.ofInstant lower) (Stamp.ofInstant upper) = .ok starts ∧
            found = (starts.filter fun t => !(s.exceptions ++ cancelled).contains t).filterMap
              (Occurrence.ofStart? s)) := by
  constructor
  · rintro ⟨hexpands, hfollowed⟩
    obtain ⟨lower, upper, hlower, hupper, hbetween⟩ := bounds_of_expand hexpands
    refine ⟨lower, upper, hlower, hupper, ?_⟩
    by_cases hle : upper ≤ lower
    · rw [expandBetween, if_pos hle] at hbetween
      exact .inl ⟨hle, (Except.ok.inj hbetween).symm⟩
    · have hlt : lower < upper := Instant.not_le.1 hle
      obtain ⟨starts, hstarts⟩ := hfollowed r lower upper hrule hlower hupper hlt
      cases hextra : instantsOf extra with
      | error e =>
        rw [expandBetween_of_error hrule hlt hextra] at hbetween
        exact absurd hbetween nofun
      | ok cancelled =>
        rw [expandBetween_of_starts hrule hlt hextra hstarts] at hbetween
        exact .inr ⟨hlt, cancelled, starts, rfl, hstarts, (Except.ok.inj hbetween).symm⟩
  · rintro ⟨lower, upper, hlower, hupper, hcases⟩
    rcases hcases with ⟨hle, rfl⟩ | ⟨hlt, cancelled, starts, hextra, hstarts, rfl⟩
    · refine ⟨(expand_of_bounds hlower hupper s extra).trans (if_pos hle), ?_⟩
      intro r' lower' upper' _ hlower' hupper' hlt
      rw [← Except.ok.inj (hlower.symm.trans hlower'), ← Except.ok.inj (hupper.symm.trans hupper')]
        at hlt
      exact absurd hlt (Instant.not_lt.2 hle)
    · refine ⟨(expand_of_bounds hlower hupper s extra).trans
        (expandBetween_of_starts hrule hlt hextra hstarts), ?_⟩
      intro r' lower' upper' hrule' hlower' hupper' _
      rw [← Option.some.inj (hrule.symm.trans hrule'), ← Except.ok.inj (hlower.symm.trans hlower'),
        ← Except.ok.inj (hupper.symm.trans hupper')]
      exact ⟨starts, hstarts⟩

/-- **An occurrence that is found starts at one of the allowed starts of the rule.** -/
theorem mem_expand {found : List Occurrence} {o : Occurrence} (hrule : s.rule? = some r)
    (hfound : s.expand first last extra = .ok found) (ho : o ∈ found) :
    o.start ∈ r.allowed s.start ∧ o.start.shift? s.duration = some o.finish := by
  obtain ⟨lower, upper, -, -, hbetween⟩ := bounds_of_expand hfound
  exact mem_expandBetween hrule hbetween ho

end Series

end Recurrence
