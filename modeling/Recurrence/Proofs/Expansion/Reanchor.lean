import Recurrence.Proofs.Expansion.Scan

/-!
# A rule in two parts

A rule is cut at one of its allowed starts.  The earlier part keeps the anchor and ends with the
second before the cut; the later part is anchored at the cut and has what is left of the count
(`Ending.minus?`).

* `Rule.candidates_eq_append`: anchored at one of its candidates, a rule has the candidates from
  there on
* `Rule.before_eq_append`, `Ending.minus?_add`: cutting twice uses up the same starts as cutting once
* `Rule.allowed_earlier`, `Rule.allowed_eq_append`: the allowed starts of the earlier part are those
  before the cut, and with those of the later part they are the allowed starts of the whole
* `Rule.not_runsPast_earlier`, `Rule.runsPast_of_later`: looking for the starts of a part does not get
  past the end of the calendar where looking for those of the whole does not
* `Rule.starts_eq_append`: so the starts in a window are those of the two parts, one after the other
* `Rule.starts_first`: anchored at its first start, a rule has the same starts
-/

namespace Recurrence

namespace Rule

variable {r : Rule} {a c t : Instant}

/-! ## The candidates from another anchor -/

/-- Candidates keep the anchor's part of a second. -/
theorem microOfSecond_of_mem_candidates (hc : c ∈ r.candidates a) :
    c.microOfSecond = a.microOfSecond := by
  rw [c.microOfSecond_eq, a.microOfSecond_eq, (Instant.mem_candidates.1 hc).2.1]

theorem mem_candidates_reanchor (hc : c ∈ r.candidates a) :
    t ∈ r.candidates c ↔ t ∈ r.candidates a ∧ c ≤ t := by
  obtain ⟨hday, htime, hac⟩ := Instant.mem_candidates.1 hc
  obtain ⟨front, hdays, hfront⟩ := days_eq_append hday
  unfold candidates
  rw [Instant.mem_candidates, Instant.mem_candidates, hdays, List.mem_append, htime]
  constructor
  · rintro ⟨htday, httime, hct⟩
    exact ⟨⟨.inr htday, httime, Nat.le_trans hac hct⟩, hct⟩
  · rintro ⟨⟨htday, httime, -⟩, hct⟩
    refine ⟨htday.resolve_left fun hmem => ?_, httime, hct⟩
    have hlt : t < c := Instant.lt_of_day_lt (hfront t.day hmem)
    exact absurd hct (Instant.not_le.2 hlt)

/-- The candidates before a cut. -/
def before (r : Rule) (a c : Instant) : List Instant :=
  (r.candidates a).filter fun t => decide (t < c)

theorem mem_before : t ∈ r.before a c ↔ t ∈ r.candidates a ∧ t < c := by
  unfold before
  rw [List.mem_filter, decide_eq_true_iff]

/-- **Anchored at one of its candidates, a rule has the candidates from there on.** -/
theorem candidates_eq_append (hc : c ∈ r.candidates a) :
    r.candidates a = r.before a c ++ r.candidates c := by
  have hsorted := r.candidates_sorted a
  refine eq_of_sorted Instant.lt_irrefl (fun _ _ => Instant.lt_asymm) hsorted ?_ ?_
  · refine List.pairwise_append.2 ⟨hsorted.filter _, r.candidates_sorted c, ?_⟩
    intro s hs t ht
    exact Nat.lt_of_lt_of_le (mem_before.1 hs).2 ((mem_candidates_reanchor hc).1 ht).2
  · intro t
    rw [List.mem_append, mem_before, mem_candidates_reanchor hc]
    constructor
    · intro ht
      rcases Nat.lt_or_ge t.micros c.micros with hlt | hge
      · exact .inl ⟨ht, hlt⟩
      · exact .inr ⟨ht, hge⟩
    · rintro (⟨ht, -⟩ | ⟨ht, -⟩)
      · exact ht
      · exact ht

end Rule

namespace Rule

variable {r : Rule} {a c c₁ c₂ : Instant}

/-- The candidates before a later cut are those before an earlier one and those between the two. -/
theorem before_eq_append (hc : c₁ ∈ r.candidates a) (h : c₁ ≤ c₂) :
    r.before a c₂ = r.before a c₁ ++ r.before c₁ c₂ := by
  have hkept : ((r.before a c₁).filter fun t => decide (t < c₂)) = r.before a c₁ := by
    apply List.filter_eq_self.2
    intro t ht
    exact decide_eq_true (Nat.lt_of_lt_of_le (mem_before.1 ht).2 h)
  show (r.candidates a).filter _ = r.before a c₁ ++ r.before c₁ c₂
  rw [candidates_eq_append hc, List.filter_append, hkept]
  rfl

end Rule

/-! ## What is left of an ending -/

namespace Ending

/-- The ending after so many starts; none if it allows no more. -/
def minus? (e : Ending) (used : Nat) : Option Ending :=
  match e with
  | after n =>
    if h : used < n.1 then some (after ⟨n.1 - used, Nat.sub_pos_of_lt h⟩) else none
  | e => some e

variable {e e' : Ending} {used : Nat}

theorem reaches_of_minus? (h : e.minus? used = some e') : e'.reaches = e.reaches := by
  cases e with
  | never => rw [← Option.some.inj h]
  | after n =>
    rw [minus?] at h
    split at h
    · rw [← Option.some.inj h]
      rfl
    · cases h
  | on s => rw [← Option.some.inj h]

/-- Counting goes on where the earlier starts left it. -/
theorem limit_append_of_minus? {α : Type} {front : List α} (h : e.minus? front.length = some e')
    (l : List α) : limit e.count? (front ++ l) = front ++ limit e'.count? l := by
  cases e with
  | never => rw [← Option.some.inj h]; rfl
  | after n =>
    rw [minus?] at h
    split at h
    · rename_i hlt
      rw [← Option.some.inj h]
      show List.take n.1 (front ++ l) = front ++ List.take (n.1 - front.length) l
      rw [List.take_append, List.take_of_length_le (Nat.le_of_lt hlt)]
    · cases h
  | on s => rw [← Option.some.inj h]; rfl

theorem count?_of_minus? {n : Nat} (h : e.minus? used = some e') (hn : e.count? = some n) :
    used < n ∧ e'.count? = some (n - used) := by
  cases e with
  | never => cases hn
  | after m =>
    obtain rfl := Option.some.inj hn
    rw [minus?] at h
    split at h
    · rename_i hlt
      rw [← Option.some.inj h]
      exact ⟨hlt, rfl⟩
    · cases h
  | on s => cases hn

theorem minus?_zero (e : Ending) : e.minus? 0 = some e := by
  cases e with
  | never => rfl
  | after n => exact dif_pos n.2
  | on s => rfl

/-- What is left after some starts and then some more is what is left after all of them. -/
theorem minus?_add {more : Nat} (h : e.minus? used = some e') :
    e'.minus? more = e.minus? (used + more) := by
  cases e with
  | never => rw [← Option.some.inj h]; rfl
  | after n =>
    rw [minus?] at h
    split at h
    · rename_i hlt
      rw [← Option.some.inj h]
      by_cases hmore : used + more < n.1
      · have hleft : more < n.1 - used := by omega
        simp only [minus?, dif_pos hmore, dif_pos hleft, Nat.sub_sub]
      · have hleft : ¬more < n.1 - used := by omega
        simp only [minus?, dif_neg hmore, dif_neg hleft]
    · cases h
  | on s => rw [← Option.some.inj h]; rfl

theorem minus?_isSome (h : ∀ n, e.count? = some n → used < n) : ∃ e', e.minus? used = some e' := by
  cases e with
  | never => exact ⟨.never, rfl⟩
  | after n => exact ⟨_, dif_pos (h n.1 rfl)⟩
  | on s => exact ⟨.on s, rfl⟩

end Ending

namespace Rule

variable {r : Rule} {a c upper : Instant}

/-! ## The starts before the cut -/

theorem mem_candidates_of_mem_allowed (hc : c ∈ r.allowed a) : c ∈ r.candidates a :=
  (r.allowed_sublist a).subset hc

theorem reaches_of_mem_allowed (hc : c ∈ r.allowed a) : r.ending.reaches c = true :=
  (List.mem_filter.1 ((limit_sublist _ _).subset hc)).2

/-- The ending allows all candidates before one of the allowed starts. -/
theorem filter_reaches_eq_append (hc : c ∈ r.allowed a) :
    (r.candidates a).filter r.ending.reaches =
      r.before a c ++ (r.candidates c).filter r.ending.reaches := by
  have hbefore : (r.before a c).filter r.ending.reaches = r.before a c := by
    apply List.filter_eq_self.2
    intro t ht
    exact Ending.reaches_of_le (Nat.le_of_lt (mem_before.1 ht).2) (reaches_of_mem_allowed hc)
  rw [candidates_eq_append (mem_candidates_of_mem_allowed hc), List.filter_append, hbefore]

/-- An allowed start is counted after all candidates before it. -/
theorem length_before_lt_count {n : Nat} (hc : c ∈ r.allowed a) (hn : r.ending.count? = some n) :
    (r.before a c).length < n := by
  apply Nat.lt_of_not_le
  intro hle
  have hmem : c ∈ limit r.ending.count? ((r.candidates a).filter r.ending.reaches) := hc
  rw [hn, filter_reaches_eq_append hc, limit, List.take_append_of_le_length hle] at hmem
  exact Instant.lt_irrefl c (mem_before.1 (List.mem_of_mem_take hmem)).2

theorem minus?_isSome (hc : c ∈ r.allowed a) :
    ∃ e, r.ending.minus? (r.before a c).length = some e :=
  Ending.minus?_isSome fun _ hn => length_before_lt_count hc hn

/-! ## The two parts -/

/-- **The allowed starts of the whole are those before the cut and those of the later part.** -/
theorem allowed_eq_append {e : Ending} (hc : c ∈ r.allowed a)
    (he : r.ending.minus? (r.before a c).length = some e) :
    r.allowed a = r.before a c ++ (r.withEnding e).allowed c := by
  have hreaches := Ending.reaches_of_minus? he
  unfold allowed
  rw [filter_reaches_eq_append hc, Ending.limit_append_of_minus? he]
  show _ = r.before a c ++ limit e.count? ((r.candidates c).filter e.reaches)
  rw [hreaches]

/-- Looking for the starts of the later part stops in the calendar if it does so for the whole. -/
theorem runsPast_of_later {e : Ending} (hc : c ∈ r.allowed a)
    (he : r.ending.minus? (r.before a c).length = some e)
    (h : (r.withEnding e).RunsPast c upper) : r.RunsPast a upper := by
  have hcand := mem_candidates_of_mem_allowed hc
  have happend := candidates_eq_append hcand
  have hreaches := Ending.reaches_of_minus? he
  have hself : c ∈ r.candidates c := (mem_candidates_reanchor hcand).2 ⟨hcand, Nat.le_refl _⟩
  refine ⟨?_, ?_, ?_⟩
  · intro t ht
    rw [happend] at ht
    rcases List.mem_append.1 ht with ht | ht
    · have htc : t < c := (mem_before.1 ht).2
      exact ⟨Ending.reaches_of_le (Nat.le_of_lt htc) (reaches_of_mem_allowed hc),
        Nat.le_trans (Nat.le_of_lt htc) (h.reached c hself).2⟩
    · rw [← hreaches]
      exact h.reached t ht
  · intro n hn
    obtain ⟨hlt, hcount⟩ := Ending.count?_of_minus? he hn
    have hlater : (r.candidates c).length ≤ n - (r.before a c).length := h.counted _ hcount
    rw [happend, List.length_append]
    omega
  · obtain ⟨front, hdays, -⟩ := days_eq_append (Instant.mem_candidates.1 hcand).1
    obtain ⟨n, hn, hbeyond⟩ := h.beyond
    rw [hdays]
    exact ⟨n, List.mem_append_right front hn, hbeyond⟩

/-- The last second before the cut is reached by those instants at its time of day that come before
it. -/
theorem reaches_on_iff {last t : Instant} (hlast : c.shift? (-1000000) = some last)
    (htime : t.timeOfDay = c.timeOfDay) :
    (Ending.on last.second).reaches t = true ↔ t < c := by
  have hback : last.micros + 1000000 = c.micros := Instant.shift?_neg_eq_some_iff.1 hlast
  have hpart : t.micros % 1000000 = c.micros % 1000000 := by
    show t.microOfSecond = c.microOfSecond
    rw [t.microOfSecond_eq, c.microOfSecond_eq, htime]
  show decide (t.micros / 1000000 ≤ last.micros / 1000000) = true ↔ t.micros < c.micros
  rw [decide_eq_true_iff]
  omega

/-- **The allowed starts of the earlier part are those before the cut.** -/
theorem allowed_earlier {last : Instant} (hc : c ∈ r.candidates a)
    (hlast : c.shift? (-1000000) = some last) :
    (r.withEnding (.on last.second)).allowed a = r.before a c := by
  show (r.candidates a).filter (Ending.on last.second).reaches = r.before a c
  refine List.filter_congr ?_
  intro t ht
  have htime : t.timeOfDay = c.timeOfDay :=
    (Instant.mem_candidates.1 ht).2.1.trans (Instant.mem_candidates.1 hc).2.1.symm
  rw [Bool.eq_iff_iff, decide_eq_true_iff]
  exact reaches_on_iff hlast htime

theorem not_runsPast_earlier {last : Instant} (hc : c ∈ r.candidates a)
    (hlast : c.shift? (-1000000) = some last) :
    ¬(r.withEnding (.on last.second)).RunsPast a upper := by
  intro h
  have hreaches := (h.reached c hc).1
  exact Instant.lt_irrefl c ((reaches_on_iff hlast rfl).1 hreaches)

/-- **Over any window in which the starts of the whole can be had, so can those of the parts**, and
those of the later part follow those of the earlier one. -/
theorem starts_eq_append {last lower upper : Instant} {e : Ending} {starts : List Instant}
    (hc : c ∈ r.allowed a) (hlast : c.shift? (-1000000) = some last)
    (he : r.ending.minus? (r.before a c).length = some e)
    (hstarts : r.starts a (Stamp.ofInstant lower) (Stamp.ofInstant upper) = .ok starts) :
    ∃ early late, starts = early ++ late ∧
      (r.withEnding (.on last.second)).starts a (Stamp.ofInstant lower) (Stamp.ofInstant upper) =
        .ok early ∧
      (r.withEnding e).starts c (Stamp.ofInstant lower) (Stamp.ofInstant upper) = .ok late ∧
      (∀ t ∈ early, t < c) ∧ ∀ t ∈ late, c ≤ t := by
  have hcand := mem_candidates_of_mem_allowed hc
  obtain ⟨hmicro, hrun, rfl⟩ := starts_eq_ok_iff.1 hstarts
  have hpart := microOfSecond_of_mem_candidates hcand
  refine ⟨_, _, ?_, starts_eq_ok_iff.2 ⟨hmicro, not_runsPast_earlier hcand hlast, rfl⟩,
    starts_eq_ok_iff.2 ⟨hpart ▸ hmicro, fun h => hrun (runsPast_of_later hc he h), rfl⟩, ?_, ?_⟩
  · rw [allowed_earlier hcand hlast, allowed_eq_append hc he, List.filter_append]
  · intro t ht
    rw [allowed_earlier hcand hlast] at ht
    exact (mem_before.1 (List.mem_filter.1 ht).1).2
  · intro t ht
    exact (Instant.mem_candidates.1 (mem_candidates_of_mem_allowed (List.mem_filter.1 ht).1)).2.2

/-! ## The first start -/

/-- No candidate comes before the first allowed start. -/
theorem before_first (h : (r.allowed a).head? = some c) : r.before a c = [] := by
  have hc : c ∈ r.allowed a := List.mem_of_head? h
  obtain ⟨e, he⟩ := minus?_isSome hc
  rw [allowed_eq_append hc he] at h
  cases hbefore : r.before a c with
  | nil => rfl
  | cons t l =>
    rw [hbefore] at h
    have ht : t ∈ r.before a c := hbefore ▸ List.mem_cons_self
    rw [Option.some.inj h] at ht
    exact absurd (mem_before.1 ht).2 (Instant.lt_irrefl c)

theorem runsPast_first_iff (h : (r.allowed a).head? = some c) :
    r.RunsPast a upper ↔ r.RunsPast c upper := by
  have hcand := mem_candidates_of_mem_allowed (List.mem_of_head? h)
  have hsame : r.candidates a = r.candidates c := by
    rw [candidates_eq_append hcand, before_first h, List.nil_append]
  obtain ⟨front, hdays, hfront⟩ := days_eq_append (Instant.mem_candidates.1 hcand).1
  constructor
  · rintro ⟨hreached, hcounted, n, hn, hbeyond⟩
    rw [hsame] at hreached hcounted
    rw [hdays] at hn
    refine ⟨hreached, hcounted, n, (List.mem_append.1 hn).resolve_left fun hmem => ?_, hbeyond⟩
    have hlt := hfront n hmem
    have hc := c.day_lt
    omega
  · rintro ⟨hreached, hcounted, n, hn, hbeyond⟩
    rw [← hsame] at hreached hcounted
    exact ⟨hreached, hcounted, n, hdays ▸ List.mem_append_right front hn, hbeyond⟩

/-- **All that the starts of a rule take from the anchor is the first of them.** -/
theorem starts_first {lower : Instant} {starts : List Instant} (h : (r.allowed a).head? = some c) :
    r.starts a (Stamp.ofInstant lower) (Stamp.ofInstant upper) = .ok starts ↔
      r.starts c (Stamp.ofInstant lower) (Stamp.ofInstant upper) = .ok starts := by
  have hc : c ∈ r.allowed a := List.mem_of_head? h
  have hall : r.ending.minus? (r.before a c).length = some r.ending := by
    rw [before_first h]
    exact Ending.minus?_zero r.ending
  have hallowed : r.allowed a = r.allowed c := by
    rw [allowed_eq_append hc hall, before_first h, List.nil_append]
    rfl
  rw [starts_eq_ok_iff, starts_eq_ok_iff, runsPast_first_iff h, hallowed,
    microOfSecond_of_mem_candidates (mem_candidates_of_mem_allowed hc)]

/-- Looking no further than before one of the candidates stops in the calendar. -/
theorem not_runsPast_of_lt (hc : c ∈ r.candidates a) (h : upper < c) : ¬r.RunsPast a upper := by
  intro hrun
  exact absurd (hrun.reached c hc).2 (Instant.not_le.2 h)

end Rule

end Recurrence
