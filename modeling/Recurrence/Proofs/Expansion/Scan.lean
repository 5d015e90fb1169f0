import Recurrence.Proofs.Expansion.Period
import Recurrence.Proofs.Order

/-!
# What a scan finds

The candidates of a list of days are the instants at the anchor's time of day on those of them that
the calendar has, from the anchor on (`Instant.candidates`).  A scan either runs past the calendar,
which means that no candidate stops it and some day lies beyond the end (`Scan.RunsPast`), or it
finds the candidates that are not stopped, as many as the count allows, and keeps those that have
reached the window (`Scan.foldl_step`).

For a whole rule this says that its starts between two instants are those of its allowed starts that
lie between them (`Rule.starts_eq_ok_iff`).  `Rule.allowed` does not depend on the window.
-/

namespace Recurrence

/-! ## Candidates -/

namespace Instant

/-- The instant at the same time of day on the day numbered `n`, if the calendar has that day. -/
def onDay? (a : Instant) (n : Nat) : Option Instant :=
  if h : n < calendarDays then some (ofDay n a.timeOfDay h a.timeOfDay_lt) else none

theorem onDay?_eq_some_iff {a t : Instant} {n : Nat} :
    a.onDay? n = some t ↔ t.day = n ∧ t.timeOfDay = a.timeOfDay := by
  unfold onDay?
  constructor
  · intro h
    split at h
    · obtain rfl := Option.some.inj h
      exact ⟨day_ofDay _ _, timeOfDay_ofDay _ _⟩
    · exact absurd h nofun
  · rintro ⟨rfl, ht⟩
    rw [dif_pos t.day_lt]
    exact congrArg some (eq_of_day_of_timeOfDay (day_ofDay _ _) ((timeOfDay_ofDay _ _).trans ht.symm))

/-- The instants at the anchor's time of day on the days of a list, from the anchor on. -/
def candidates (a : Instant) (days : List Nat) : List Instant :=
  (days.filterMap a.onDay?).filter fun t => decide (a ≤ t)

theorem mem_candidates {a t : Instant} {days : List Nat} :
    t ∈ a.candidates days ↔ t.day ∈ days ∧ t.timeOfDay = a.timeOfDay ∧ a ≤ t := by
  unfold candidates
  rw [List.mem_filter, List.mem_filterMap, decide_eq_true_iff]
  constructor
  · rintro ⟨⟨n, hn, ht⟩, hle⟩
    obtain ⟨rfl, htime⟩ := onDay?_eq_some_iff.1 ht
    exact ⟨hn, htime, hle⟩
  · rintro ⟨hday, htime, hle⟩
    exact ⟨⟨t.day, hday, onDay?_eq_some_iff.2 ⟨rfl, htime⟩⟩, hle⟩

theorem candidates_sorted (a : Instant) {days : List Nat} (h : days.Pairwise (· < ·)) :
    (a.candidates days).Pairwise (· < ·) := by
  refine List.Pairwise.filter _ (List.pairwise_filterMap.2 (h.imp ?_))
  intro n m hnm s hs t ht
  obtain ⟨rfl, -⟩ := onDay?_eq_some_iff.1 hs
  obtain ⟨rfl, -⟩ := onDay?_eq_some_iff.1 ht
  exact lt_of_day_lt hnm

theorem candidates_cons_of_le {a t : Instant} {n : Nat} (ht : a.onDay? n = some t) (hle : a ≤ t)
    (days : List Nat) : a.candidates (n :: days) = t :: a.candidates days := by
  unfold candidates
  rw [List.filterMap_cons_some ht, List.filter_cons, if_pos (decide_eq_true hle)]

theorem candidates_cons_of_lt {a t : Instant} {n : Nat} (ht : a.onDay? n = some t) (hlt : t < a)
    (days : List Nat) : a.candidates (n :: days) = a.candidates days := by
  have hle : ¬decide (a ≤ t) = true := by
    rw [decide_eq_true_iff]
    exact Nat.not_le.2 hlt
  unfold candidates
  rw [List.filterMap_cons_some ht, List.filter_cons, if_neg hle]

theorem candidates_of_beyond (a : Instant) {days : List Nat} (h : ∀ n ∈ days, calendarDays ≤ n) :
    a.candidates days = [] := by
  apply List.eq_nil_iff_forall_not_mem.2
  intro t ht
  have hday := h t.day (mem_candidates.1 ht).1
  exact absurd t.day_lt (Nat.not_lt.2 hday)

end Instant

/-! ## One candidate -/

/-- The first elements of a list, as many as the count allows. -/
def limit {α : Type} : Option Nat → List α → List α
  | none, l => l
  | some n, l => l.take n

@[simp] theorem limit_nil {α : Type} (left : Option Nat) : limit left ([] : List α) = [] := by
  cases left with
  | none => rfl
  | some n => exact List.take_nil

theorem limit_cons {α : Type} {left : Option Nat} (h : left ≠ some 0) (a : α) (l : List α) :
    limit left (a :: l) = a :: limit (left.map (· - 1)) l := by
  rcases left with _ | _ | n
  · rfl
  · exact absurd rfl h
  · rfl

theorem limit_sublist {α : Type} (left : Option Nat) (l : List α) : (limit left l).Sublist l := by
  cases left with
  | none => exact List.Sublist.refl l
  | some n => exact List.take_sublist n l

namespace Scan

/-- Whether a candidate comes neither after the last second nor after the window. -/
def admits (q : Scan) (upper : Nat) (t : Instant) : Bool :=
  !q.isOver t && decide (t.micros < upper)

variable {q : Scan} {lower upper n : Nat} {t : Instant} {left : Option Nat} {found : List Instant}

/-- What a step does with the candidate of its day. -/
theorem step_of_onDay? (ht : q.anchor.onDay? n = some t) :
    q.step (.going left found) n =
      if t < q.anchor then .going left found
      else if q.isOver t = true ∨ left = some 0 then .halted found
      else q.take (left.map (· - 1)) found t := by
  unfold Instant.onDay? at ht
  split at ht
  · rename_i hn
    obtain rfl := Option.some.inj ht
    simp only [step, dif_pos hn]
    split
    · rfl
    · rcases left with _ | _ | m
      · simp only [reduceCtorEq, or_false, Option.map_none]
      · simp only [or_true, if_true, ite_self]
      · simp only [Option.some.injEq, Nat.add_eq_zero_iff, Nat.one_ne_zero, and_false, or_false,
          Option.map_some, Nat.add_sub_cancel]
  · exact absurd ht nofun

theorem step_of_lt (ht : q.anchor.onDay? n = some t) (hlt : t < q.anchor) :
    q.step (.going left found) n = .going left found := by
  rw [step_of_onDay? ht, if_pos hlt]

theorem step_of_stopped (hupper : q.upper = some upper) (ht : q.anchor.onDay? n = some t)
    (hle : q.anchor ≤ t) (h : left = some 0 ∨ q.admits upper t = false) :
    q.step (.going left found) n = .halted found := by
  rw [step_of_onDay? ht, if_neg (Instant.not_lt.2 hle)]
  by_cases hover : q.isOver t = true ∨ left = some 0
  · rw [if_pos hover]
  · obtain ⟨hreached, hleft⟩ := not_or.1 hover
    have hadmits := h.resolve_left hleft
    rw [admits, eq_false_of_ne_true hreached, Bool.not_false, Bool.true_and,
      decide_eq_false_iff_not] at hadmits
    simp only [if_neg hover, take, hupper, if_pos (Nat.le_of_not_lt hadmits)]

theorem step_of_admits (hlower : q.lower = some lower) (hupper : q.upper = some upper)
    (ht : q.anchor.onDay? n = some t) (hle : q.anchor ≤ t) (hleft : left ≠ some 0)
    (h : q.admits upper t = true) :
    q.step (.going left found) n =
      .going (left.map (· - 1)) (if lower ≤ t.micros then t :: found else found) := by
  rw [admits, Bool.and_eq_true, Bool.not_eq_true', decide_eq_true_iff] at h
  obtain ⟨hreached, hwithin⟩ := h
  have hgoes : ¬(q.isOver t = true ∨ left = some 0) :=
    not_or.2 ⟨ne_true_of_eq_false hreached, hleft⟩
  rw [step_of_onDay? ht, if_neg (Instant.not_lt.2 hle), if_neg hgoes]
  simp only [take, hlower, hupper, if_neg (Nat.not_le.2 hwithin)]

theorem step_of_beyond (hn : calendarDays ≤ n) :
    q.step (.going left found) n = .failed .pastCalendar := by
  simp only [step, dif_neg (Nat.not_lt.2 hn)]

/-! ## All candidates -/

/-- The scan gets past the end of the calendar: nothing stops it before, and some day lies there. -/
structure RunsPast (q : Scan) (upper : Nat) (left : Option Nat) (days : List Nat) : Prop where
  admitted : ∀ t ∈ q.anchor.candidates days, q.admits upper t = true
  counted : ∀ n, left = some n → (q.anchor.candidates days).length ≤ n
  beyond : ∃ n ∈ days, calendarDays ≤ n

/-- The candidates that the scan comes by before it is stopped. -/
def passed (q : Scan) (upper : Nat) (left : Option Nat) (days : List Nat) : List Instant :=
  limit left ((q.anchor.candidates days).takeWhile (q.admits upper))

variable {days : List Nat}

theorem runsPast_cons_of_lt (ht : q.anchor.onDay? n = some t) (hlt : t < q.anchor) :
    q.RunsPast upper left (n :: days) ↔ q.RunsPast upper left days := by
  have hcons := Instant.candidates_cons_of_lt ht hlt days
  have hday : n < calendarDays := (Instant.onDay?_eq_some_iff.1 ht).1 ▸ t.day_lt
  constructor
  · rintro ⟨hadmitted, hcounted, m, hm, hbeyond⟩
    rw [hcons] at hadmitted hcounted
    refine ⟨hadmitted, hcounted, m, ?_, hbeyond⟩
    rcases List.mem_cons.1 hm with rfl | hm
    · omega
    · exact hm
  · rintro ⟨hadmitted, hcounted, m, hm, hbeyond⟩
    rw [← hcons] at hadmitted hcounted
    exact ⟨hadmitted, hcounted, m, List.mem_cons_of_mem n hm, hbeyond⟩

theorem not_runsPast_of_stopped (ht : q.anchor.onDay? n = some t) (hle : q.anchor ≤ t)
    (h : left = some 0 ∨ q.admits upper t = false) : ¬q.RunsPast upper left (n :: days) := by
  rintro ⟨hadmitted, hcounted, -⟩
  rw [Instant.candidates_cons_of_le ht hle] at hadmitted hcounted
  rcases h with rfl | hstop
  · exact absurd (hcounted 0 rfl) (by simp)
  · have hadmits := hadmitted t List.mem_cons_self
    rw [hstop] at hadmits
    exact absurd hadmits nofun

theorem passed_cons_of_stopped (ht : q.anchor.onDay? n = some t) (hle : q.anchor ≤ t)
    (h : left = some 0 ∨ q.admits upper t = false) : q.passed upper left (n :: days) = [] := by
  unfold passed
  rw [Instant.candidates_cons_of_le ht hle]
  rcases h with rfl | hstop
  · rfl
  · rw [List.takeWhile_cons_of_neg (by simp [hstop]), limit_nil]

theorem runsPast_cons_of_admits (ht : q.anchor.onDay? n = some t) (hle : q.anchor ≤ t)
    (hleft : left ≠ some 0) (h : q.admits upper t = true) :
    q.RunsPast upper left (n :: days) ↔ q.RunsPast upper (left.map (· - 1)) days := by
  have hcons := Instant.candidates_cons_of_le ht hle days
  have hday : n < calendarDays := (Instant.onDay?_eq_some_iff.1 ht).1 ▸ t.day_lt
  constructor
  · rintro ⟨hadmitted, hcounted, m, hm, hbeyond⟩
    rw [hcons] at hadmitted hcounted
    refine ⟨fun s hs => hadmitted s (List.mem_cons_of_mem t hs), ?_, m, ?_, hbeyond⟩
    · intro k hk
      obtain ⟨j, hj, rfl⟩ := Option.map_eq_some_iff.1 hk
      have hlength := hcounted j hj
      rw [List.length_cons] at hlength
      omega
    · rcases List.mem_cons.1 hm with rfl | hm
      · omega
      · exact hm
  · rintro ⟨hadmitted, hcounted, m, hm, hbeyond⟩
    refine ⟨?_, ?_, m, List.mem_cons_of_mem n hm, hbeyond⟩
    · rw [hcons]
      intro s hs
      rcases List.mem_cons.1 hs with rfl | hs
      · exact h
      · exact hadmitted s hs
    · rintro k rfl
      have hlength := hcounted (k - 1) rfl
      have hpos : k ≠ 0 := fun he => hleft (congrArg some he)
      rw [hcons, List.length_cons]
      omega

theorem passed_cons_of_admits (ht : q.anchor.onDay? n = some t) (hle : q.anchor ≤ t)
    (hleft : left ≠ some 0) (h : q.admits upper t = true) :
    q.passed upper left (n :: days) = t :: q.passed upper (left.map (· - 1)) days := by
  unfold passed
  rw [Instant.candidates_cons_of_le ht hle, List.takeWhile_cons_of_pos h, limit_cons hleft]

/-- **What a scan of ascending days gives.**  It fails where it runs past the calendar; else it adds
the candidates that it comes by and that have reached the window. -/
theorem foldl_step (hlower : q.lower = some lower) (hupper : q.upper = some upper)
    (hdays : days.Pairwise (· < ·)) (left : Option Nat) (found : List Instant) :
    (q.RunsPast upper left days →
      (days.foldl q.step (.going left found)).result = .error .pastCalendar) ∧
    (¬q.RunsPast upper left days →
      (days.foldl q.step (.going left found)).result =
        .ok (found.reverse ++ (q.passed upper left days).filter fun t => decide (lower ≤ t.micros))) := by
  induction days generalizing left found with
  | nil =>
    refine ⟨fun h => absurd h.beyond (by simp), fun _ => ?_⟩
    simp [State.result, passed, Instant.candidates]
  | cons n days ih =>
    obtain ⟨hn, hdays⟩ := List.pairwise_cons.1 hdays
    rw [List.foldl_cons]
    rcases Nat.lt_or_ge n calendarDays with hlt | hbeyond
    · obtain ⟨t, ht⟩ : ∃ t, q.anchor.onDay? n = some t := ⟨_, dif_pos hlt⟩
      by_cases hearly : t < q.anchor
      · rw [step_of_lt ht hearly, runsPast_cons_of_lt ht hearly, passed,
          Instant.candidates_cons_of_lt ht hearly]
        exact ih hdays left found
      · have hle : q.anchor ≤ t := Instant.not_lt.1 hearly
        by_cases hstop : left = some 0 ∨ q.admits upper t = false
        · rw [step_of_stopped hupper ht hle hstop, foldl_step_halted,
            passed_cons_of_stopped ht hle hstop]
          refine ⟨fun h => absurd h (not_runsPast_of_stopped ht hle hstop), fun _ => ?_⟩
          simp [State.result]
        · have hleft : left ≠ some 0 := fun h => hstop (.inl h)
          have hadmits : q.admits upper t = true :=
            eq_true_of_ne_false fun h => hstop (.inr h)
          rw [step_of_admits hlower hupper ht hle hleft hadmits,
            runsPast_cons_of_admits ht hle hleft hadmits,
            passed_cons_of_admits ht hle hleft hadmits]
          obtain ⟨hpast, hends⟩ := ih hdays (left.map (· - 1))
            (if lower ≤ t.micros then t :: found else found)
          refine ⟨hpast, fun h => ?_⟩
          rw [hends h]
          by_cases hreached : lower ≤ t.micros
          · simp [hreached]
          · simp [hreached]
    · have hnone : q.anchor.candidates (n :: days) = [] := by
        apply Instant.candidates_of_beyond
        intro m hm
        rcases List.mem_cons.1 hm with rfl | hm
        · exact hbeyond
        · exact Nat.le_trans hbeyond (Nat.le_of_lt (hn m hm))
      rw [step_of_beyond hbeyond, foldl_step_failed]
      refine ⟨fun _ => rfl, fun h => absurd ?_ h⟩
      refine ⟨?_, ?_, n, List.mem_cons_self, hbeyond⟩
      · rw [hnone]
        exact nofun
      · rw [hnone]
        exact fun _ _ => Nat.zero_le _

end Scan

/-! ## The starts of a rule -/

/-- Whether the ending allows a start in the second of `t`. -/
def Ending.reaches (e : Ending) (t : Instant) : Bool :=
  match e.last? with
  | some s => decide (t.second.index ≤ s.index)
  | none => true

theorem Ending.reaches_of_le {e : Ending} {s t : Instant} (hle : s ≤ t) (h : e.reaches t = true) :
    e.reaches s = true := by
  unfold Ending.reaches at *
  split
  · rename_i last hlast
    rw [hlast] at h
    have hsecond : s.second.index ≤ t.second.index := Nat.div_le_div_right hle
    exact decide_eq_true (Nat.le_trans hsecond (of_decide_eq_true h))
  · rfl

namespace Rule

/-- The candidates of a rule in all its periods. -/
def candidates (r : Rule) (anchor : Instant) : List Instant := anchor.candidates (r.days anchor)

/-- The starts that the ending of the rule allows. -/
def allowed (r : Rule) (anchor : Instant) : List Instant :=
  limit r.ending.count? ((r.candidates anchor).filter r.ending.reaches)

/-- Looking for the starts up to `upper` gets past the end of the calendar. -/
structure RunsPast (r : Rule) (anchor upper : Instant) : Prop where
  reached : ∀ t ∈ r.candidates anchor, r.ending.reaches t = true ∧ t ≤ upper
  counted : ∀ n, r.ending.count? = some n → (r.candidates anchor).length ≤ n
  beyond : ∃ n ∈ r.days anchor, calendarDays ≤ n

theorem candidates_sorted (r : Rule) (anchor : Instant) :
    (r.candidates anchor).Pairwise (· < ·) :=
  anchor.candidates_sorted (r.days_sorted anchor)

theorem allowed_sublist (r : Rule) (anchor : Instant) :
    (r.allowed anchor).Sublist (r.candidates anchor) :=
  (limit_sublist _ _).trans List.filter_sublist

theorem allowed_sorted (r : Rule) (anchor : Instant) : (r.allowed anchor).Pairwise (· < ·) :=
  (r.candidates_sorted anchor).sublist (r.allowed_sublist anchor)

theorem limit_takeWhile {α : Type} (p : α → Bool) (left : Option Nat) (l : List α) :
    limit left (l.takeWhile p) = (limit left l).takeWhile p := by
  cases left with
  | none => rfl
  | some n => exact take_takeWhile p l n

section Scan

variable (r : Rule) (anchor : Instant) {q : Scan}

theorem admits_of_last (hlast : q.last = r.ending.last?) (bound : Nat) (t : Instant) :
    q.admits bound t = (r.ending.reaches t && decide (t.micros < bound)) := by
  unfold Scan.admits Scan.isOver Ending.reaches
  rw [hlast]
  cases r.ending.last? with
  | none => rfl
  | some s =>
    simp only
    rw [← decide_not, decide_eq_decide.2 Nat.not_lt]

/-- The candidates that the scan of a rule comes by are the allowed starts up to the end of the
window. -/
theorem passed_of_last (hanchor : q.anchor = anchor) (hlast : q.last = r.ending.last?) (bound : Nat) :
    q.passed bound r.ending.count? (r.days anchor) =
      (r.allowed anchor).filter fun t => decide (t.micros < bound) := by
  have hsorted := r.candidates_sorted anchor
  have hadmits : q.admits bound = fun t => r.ending.reaches t && decide (t.micros < bound) :=
    funext (r.admits_of_last hlast bound)
  have hfront : ((r.candidates anchor).takeWhile fun t =>
      r.ending.reaches t && decide (t.micros < bound)) =
        ((r.candidates anchor).filter r.ending.reaches).takeWhile fun t =>
          decide (t.micros < bound) := by
    rw [takeWhile_eq_filter hsorted, takeWhile_eq_filter (hsorted.filter _), List.filter_filter]
    · simp only [Bool.and_comm]
    · intro s t hst ht
      exact decide_eq_true (Nat.lt_trans hst (of_decide_eq_true ht))
    · intro s t hst ht
      rw [Bool.and_eq_true, decide_eq_true_iff] at ht ⊢
      exact ⟨Ending.reaches_of_le (Nat.le_of_lt hst) ht.1, Nat.lt_trans hst ht.2⟩
  unfold Scan.passed
  rw [hadmits, hanchor]
  show limit _ ((r.candidates anchor).takeWhile _) = _
  rw [hfront, limit_takeWhile]
  refine takeWhile_eq_filter (r.allowed_sorted anchor) ?_
  intro s t hst ht
  exact decide_eq_true (Nat.lt_trans hst (of_decide_eq_true ht))

end Scan

section Window

variable (r : Rule) (anchor lower upper : Instant)

theorem edge_lower : (Stamp.ofInstant lower).edge 0 = some lower.micros := by
  simp [Stamp.edge, Stamp.ofInstant, Stamp.utcMicros, Offset.zero]

theorem edge_upper : (Stamp.ofInstant upper).edge 1 = some (upper.micros + 1) := by
  simp [Stamp.edge, Stamp.ofInstant, Stamp.utcMicros, Offset.zero]

theorem decide_lt_succ_micros (t : Instant) :
    decide (t.micros < upper.micros + 1) = decide (t ≤ upper) := by
  rw [decide_eq_decide]
  exact Nat.lt_succ_iff

theorem scan_runsPast_iff :
    (r.scan anchor (Stamp.ofInstant lower) (Stamp.ofInstant upper)).RunsPast (upper.micros + 1)
      r.ending.count? (r.days anchor) ↔ r.RunsPast anchor upper := by
  have hadmits (t : Instant) : (r.scan anchor (Stamp.ofInstant lower) (Stamp.ofInstant upper)).admits
      (upper.micros + 1) t = true ↔ r.ending.reaches t = true ∧ t ≤ upper := by
    rw [r.admits_of_last rfl, decide_lt_succ_micros, Bool.and_eq_true, decide_eq_true_iff]
  constructor
  · rintro ⟨hadmitted, hcounted, hbeyond⟩
    exact ⟨fun t ht => (hadmits t).1 (hadmitted t ht), hcounted, hbeyond⟩
  · rintro ⟨hreached, hcounted, hbeyond⟩
    exact ⟨fun t ht => (hadmits t).2 (hreached t ht), hcounted, hbeyond⟩

theorem scan_passed :
    (r.scan anchor (Stamp.ofInstant lower) (Stamp.ofInstant upper)).passed (upper.micros + 1)
      r.ending.count? (r.days anchor) =
        (r.allowed anchor).filter fun t => decide (t ≤ upper) :=
  (r.passed_of_last anchor rfl rfl _).trans
    (congrArg (List.filter · _) (funext (decide_lt_succ_micros upper)))

end Window

/-- An instant cannot be shifted back by more than it lies after the start of the calendar. -/
theorem shift?_isNone_iff (t : Instant) (part : Nat) :
    (t.shift? (-Int.ofNat part)).isNone = true ↔ t.micros < part := by
  rw [Int.ofNat_eq_natCast, Option.isNone_iff_eq_none]
  constructor
  · intro h
    apply Nat.lt_of_not_le
    intro hle
    obtain ⟨u, hu⟩ := Instant.exists_shift?_neg hle
    rw [hu] at h
    exact absurd h nofun
  · intro h
    cases hu : t.shift? (-(part : Int)) with
    | none => rfl
    | some u =>
      have hmicros := Instant.shift?_neg_eq_some_iff.1 hu
      omega

/-- **The starts of a rule between two instants.**  They are had if both bounds can be shifted by the
anchor's part of a second and the search does not get past the end of the calendar, and they are
the allowed starts that lie between the two. -/
theorem starts_eq_ok_iff {r : Rule} {anchor lower upper : Instant} {l : List Instant} :
    r.starts anchor (Stamp.ofInstant lower) (Stamp.ofInstant upper) = .ok l ↔
      (anchor.microOfSecond ≤ lower.micros ∧ anchor.microOfSecond ≤ upper.micros) ∧
        ¬r.RunsPast anchor upper ∧
          l = (r.allowed anchor).filter fun t => decide (lower ≤ t) && decide (t ≤ upper) := by
  have hfold := Scan.foldl_step (q := r.scan anchor (Stamp.ofInstant lower) (Stamp.ofInstant upper))
    (edge_lower lower) (edge_upper upper) (r.days_sorted anchor) r.ending.count? []
  rw [scan_runsPast_iff, scan_passed, ← scanAll_eq_foldl, List.filter_filter] at hfold
  obtain ⟨hpast, hends⟩ := hfold
  have hlower := shift?_isNone_iff lower anchor.microOfSecond
  have hupper := shift?_isNone_iff upper anchor.microOfSecond
  unfold starts
  by_cases hrange : anchor.microOfSecond ≤ lower.micros ∧ anchor.microOfSecond ≤ upper.micros
  · have hnot : ¬(((Stamp.ofInstant lower).wall.shift? (-Int.ofNat anchor.microOfSecond)).isNone ||
        ((Stamp.ofInstant upper).wall.shift? (-Int.ofNat anchor.microOfSecond)).isNone) = true := by
      rw [Bool.or_eq_true]
      rintro (h | h)
      · exact absurd (hlower.1 h) (Nat.not_lt.2 hrange.1)
      · exact absurd (hupper.1 h) (Nat.not_lt.2 hrange.2)
    rw [if_neg hnot]
    by_cases hrun : r.RunsPast anchor upper
    · rw [hpast hrun]
      exact ⟨nofun, fun h => absurd hrun h.2.1⟩
    · rw [hends hrun]
      constructor
      · intro h
        exact ⟨hrange, hrun, (Except.ok.inj h).symm⟩
      · rintro ⟨-, -, rfl⟩
        rfl
  · have hsome : (((Stamp.ofInstant lower).wall.shift? (-Int.ofNat anchor.microOfSecond)).isNone ||
        ((Stamp.ofInstant upper).wall.shift? (-Int.ofNat anchor.microOfSecond)).isNone) = true := by
      rw [Bool.or_eq_true]
      rcases Nat.lt_or_ge lower.micros anchor.microOfSecond with h | h
      · exact .inl (hlower.2 h)
      · exact .inr (hupper.2 (Nat.lt_of_not_le fun h' => hrange ⟨h, h'⟩))
    rw [if_pos hsome]
    exact ⟨nofun, fun h => absurd h.1 hrange⟩

end Rule

end Recurrence
