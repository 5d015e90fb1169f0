import Mathlib.Control.Monad.Basic
import Recurrence.Proofs.Expansion.Scan

/-!
# What an ending cuts off

The candidates of a rule do not depend on its ending, and an ending allows a part of them:
`Rule.allowed_never`, `Rule.allowed_after` and `Rule.allowed_on`.

For a window between any two stamps there are two things to show.  Where the starts can be had, they
are the allowed starts in the window (`Rule.starts_eq_filter`): a bound without an offset makes the
scan fail at the first candidate that is compared with it, so a scan that does not fail goes on as if
the bound were universal time (`Scan.foldl_resolved`).  And an ending never makes a scan fail: at each
candidate the scan with an ending is halted, or it has found what the scan without one has found
(`Scan.foldl_follows`, `Rule.exists_starts`).

With both, all endings cut the same candidates (`Rule.ending_cuts_candidates`).  A rule without an end
whose days all lie in the calendar has its starts by their days (`Rule.starts_never_iff`).
-/

namespace Recurrence

/-- Whether an instant lies between two stamps, both included; a stamp without an offset is read as
universal time. -/
def Instant.isBetween (lower upper : Stamp) (t : Instant) : Bool :=
  decide (lower.utcMicros ≤ t.micros) && decide ((t.micros : Int) ≤ upper.utcMicros)

/-! ## What an ending allows -/

theorem Ending.reaches_on {s : Second} {t : Instant} :
    (Ending.on s).reaches t = decide (t.micros < s.instant.micros + microsPerSecond) := by
  show decide (t.micros / microsPerSecond ≤ s.index) = _
  rw [decide_eq_decide]
  show _ ↔ t.micros < s.index * microsPerSecond + microsPerSecond
  rw [← Nat.lt_succ_iff, Nat.div_lt_iff_lt_mul (by decide), Nat.succ_mul]

namespace Rule

variable {r : Rule} {anchor : Instant}

theorem filter_reaches_of_last (h : r.ending.last? = none) (l : List Instant) :
    l.filter r.ending.reaches = l := by
  apply List.filter_eq_self.2
  intro t _
  unfold Ending.reaches
  rw [h]

theorem allowed_never (h : r.ending = .never) : r.allowed anchor = r.candidates anchor := by
  unfold allowed
  rw [filter_reaches_of_last (by rw [h]; rfl), h]
  rfl

theorem allowed_after {n : Positive} (h : r.ending = .after n) :
    r.allowed anchor = (r.candidates anchor).take n.1 := by
  unfold allowed
  rw [filter_reaches_of_last (by rw [h]; rfl), h]
  rfl

theorem allowed_on {s : Second} (h : r.ending = .on s) :
    r.allowed anchor = (r.candidates anchor).filter fun t =>
      decide (t.micros < s.instant.micros + microsPerSecond) := by
  unfold allowed
  rw [h, ← funext fun _ => Ending.reaches_on]
  rfl

end Rule

/-! ## Bounds that cannot be compared -/

namespace Scan

/-- The scan with bounds that can be compared. -/
def resolved (q : Scan) (lower upper : Nat) : Scan :=
  { q with lower := some lower, upper := some upper }

section Resolved

variable {q : Scan} {lower upper : Nat} (hlower : ∀ n, q.lower = some n → n = lower)
  (hupper : ∀ n, q.upper = some n → n = upper)

include hlower hupper

theorem take_resolved (left : Option Nat) (found : List Instant) (t : Instant) :
    q.take left found t = .failed .noOffset ∨
      q.take left found t = (q.resolved lower upper).take left found t := by
  cases hu : q.upper with
  | none => exact .inl (by simp only [take, hu])
  | some u =>
    obtain rfl := hupper u hu
    by_cases hpast : u ≤ t.micros
    · exact .inr (by simp only [take, resolved, hu, if_pos hpast])
    · cases hl : q.lower with
      | none => exact .inl (by simp only [take, hu, hl, if_neg hpast])
      | some l =>
        obtain rfl := hlower l hl
        exact .inr (by simp only [take, resolved, hu, hl])

theorem step_resolved (s : State) (n : Nat) :
    q.step s n = .failed .noOffset ∨ q.step s n = (q.resolved lower upper).step s n := by
  rcases s with ⟨left, found⟩ | found | e
  · rcases Nat.lt_or_ge n calendarDays with hn | hn
    · obtain ⟨t, ht⟩ : ∃ t, q.anchor.onDay? n = some t := ⟨_, dif_pos hn⟩
      have hresolved : (q.resolved lower upper).step (.going left found) n =
          if t < q.anchor then .going left found
          else if q.isOver t = true ∨ left = some 0 then .halted found
          else (q.resolved lower upper).take (left.map (· - 1)) found t :=
        step_of_onDay? ht
      rw [step_of_onDay? ht, hresolved]
      by_cases hearly : t < q.anchor
      · rw [if_pos hearly, if_pos hearly]
        exact .inr rfl
      · rw [if_neg hearly, if_neg hearly]
        by_cases hstop : q.isOver t = true ∨ left = some 0
        · rw [if_pos hstop, if_pos hstop]
          exact .inr rfl
        · rw [if_neg hstop, if_neg hstop]
          exact take_resolved hlower hupper _ found t
    · rw [step_of_beyond hn, step_of_beyond hn]
      exact .inr rfl
  · exact .inr rfl
  · exact .inr rfl

/-- A scan that does not fail for the lack of an offset goes on as if its bounds had one. -/
theorem foldl_resolved (days : List Nat) (s : State) :
    days.foldl q.step s = .failed .noOffset ∨
      days.foldl q.step s = days.foldl (q.resolved lower upper).step s := by
  induction days generalizing s with
  | nil =>
    rw [List.foldl_nil, List.foldl_nil]
    exact .inr rfl
  | cons n days ih =>
    rw [List.foldl_cons, List.foldl_cons]
    rcases step_resolved hlower hupper s n with h | h
    · rw [h]
      exact .inl (foldl_step_failed q _ days)
    · rw [← h]
      exact ih _

end Resolved

/-! ## A scan with an ending beside one without -/

/-- The scan without a last second. -/
def endless (q : Scan) : Scan := { q with last := none }

/-- How a scan with an ending can stand beside the same scan without one.  The first is halted, or
the two have found the same, unless the second has failed. -/
inductive State.Follows : State → State → Prop where
  | halted (found : List Instant) (s : State) : Follows (.halted found) s
  | going (left : Option Nat) (found : List Instant) : Follows (.going left found) (.going none found)
  | failed (s : State) (e : ExpansionError) : Follows s (.failed e)

variable {q : Scan} {s s' : State}

theorem take_follows (left : Option Nat) (found : List Instant) (t : Instant) :
    (q.take left found t).Follows (q.endless.take none found t) := by
  cases hu : q.upper with
  | none => simpa only [take, endless, hu] using .failed _ _
  | some u =>
    by_cases hpast : u ≤ t.micros
    · simpa only [take, endless, hu, if_pos hpast] using .halted _ _
    · cases hl : q.lower with
      | none => simpa only [take, endless, hu, hl, if_neg hpast] using .failed _ _
      | some l => simpa only [take, endless, hu, hl, if_neg hpast] using .going _ _

theorem step_follows (h : s.Follows s') (n : Nat) : (q.step s n).Follows (q.endless.step s' n) := by
  cases h with
  | halted found s' => exact .halted found _
  | failed s e => exact .failed _ e
  | going left found =>
    rcases Nat.lt_or_ge n calendarDays with hn | hn
    · obtain ⟨t, ht⟩ : ∃ t, q.anchor.onDay? n = some t := ⟨_, dif_pos hn⟩
      have hendless : q.endless.step (.going none found) n =
          if t < q.anchor then .going none found else q.endless.take none found t := by
        have hgoes : ¬(q.endless.isOver t = true ∨ none = some 0) := by simp [isOver, endless]
        have hstep : q.endless.step (.going none found) n =
            if t < q.anchor then .going none found
            else if q.endless.isOver t = true ∨ none = some 0 then .halted found
            else q.endless.take none found t :=
          step_of_onDay? ht
        rw [hstep, if_neg hgoes]
      rw [step_of_onDay? ht, hendless]
      by_cases hearly : t < q.anchor
      · rw [if_pos hearly, if_pos hearly]
        exact .going left found
      · rw [if_neg hearly, if_neg hearly]
        by_cases hstop : q.isOver t = true ∨ left = some 0
        · rw [if_pos hstop]
          exact .halted found _
        · rw [if_neg hstop]
          exact take_follows _ found t
    · rw [step_of_beyond hn, step_of_beyond hn]
      exact .failed _ _

/-- **An ending halts a scan or leaves it alone.** -/
theorem foldl_follows (h : s.Follows s') (days : List Nat) :
    (days.foldl q.step s).Follows (days.foldl q.endless.step s') := by
  induction days generalizing s s' with
  | nil => exact h
  | cons n days ih => exact ih (step_follows h n)

theorem State.Follows.exists_result {l : List Instant} (h : s.Follows s') (hl : s'.result = .ok l) :
    ∃ l', s.result = .ok l' := by
  cases h with
  | halted found _ => exact ⟨_, rfl⟩
  | going left found => exact ⟨_, rfl⟩
  | failed _ e => exact absurd hl nofun

end Scan

namespace Rule

variable {r : Rule} {anchor : Instant} {lower upper : Stamp} {l : List Instant}

/-! ## The starts between two stamps -/

theorem eq_toNat_of_edge {s : Stamp} {beyond : Int} {n : Nat} (h : s.edge beyond = some n) :
    n = (s.utcMicros + beyond).toNat := by
  obtain ⟨_, -, hn⟩ := Option.map_eq_some_iff.1 h
  exact hn.symm

/-- The scan of a rule with both bounds read as universal time. -/
def utcScan (r : Rule) (anchor : Instant) (lower upper : Stamp) : Scan :=
  (r.scan anchor lower upper).resolved (lower.utcMicros + 0).toNat (upper.utcMicros + 1).toNat

/-- Where the starts can be had, the scan with both bounds read as universal time finds them. -/
theorem foldl_utcScan_of_starts (h : r.starts anchor lower upper = .ok l) :
    ((r.days anchor).foldl (r.utcScan anchor lower upper).step
      (.going r.ending.count? [])).result = .ok l := by
  have hresolved := Scan.foldl_resolved (q := r.scan anchor lower upper)
    (fun _ => eq_toNat_of_edge) (fun _ => eq_toNat_of_edge) (r.days anchor)
    (.going r.ending.count? [])
  unfold starts at h
  simp only at h
  split at h
  · exact absurd h nofun
  · rw [scanAll_eq_foldl] at h
    rcases hresolved with hfail | hsame
    · rw [hfail] at h
      exact absurd h nofun
    · rw [hsame] at h
      exact h

/-- **Starts that can be had are the allowed starts in the window.** -/
theorem starts_eq_filter (h : r.starts anchor lower upper = .ok l) :
    l = (r.allowed anchor).filter (Instant.isBetween lower upper) := by
  have hscan := foldl_utcScan_of_starts h
  obtain ⟨hpast, hends⟩ := Scan.foldl_step (q := r.utcScan anchor lower upper) rfl rfl
    (r.days_sorted anchor) r.ending.count? []
  by_cases hrun : (r.utcScan anchor lower upper).RunsPast (upper.utcMicros + 1).toNat
      r.ending.count? (r.days anchor)
  · rw [hpast hrun] at hscan
    exact absurd hscan nofun
  · rw [hends hrun, r.passed_of_last anchor (q := r.utcScan anchor lower upper) rfl rfl,
      List.filter_filter] at hscan
    rw [← Except.ok.inj hscan]
    refine List.filter_congr fun t _ => ?_
    have hlower : (lower.utcMicros + 0).toNat ≤ t.micros ↔ lower.utcMicros ≤ t.micros := by omega
    have hupper : t.micros < (upper.utcMicros + 1).toNat ↔ (t.micros : Int) ≤ upper.utcMicros := by
      omega
    unfold Instant.isBetween
    rw [decide_eq_decide.2 hlower, decide_eq_decide.2 hupper]

theorem mem_allowed_of_starts {t : Instant} (h : r.starts anchor lower upper = .ok l) (ht : t ∈ l) :
    t ∈ r.allowed anchor := by
  rw [starts_eq_filter h] at ht
  exact (List.mem_filter.1 ht).1

/-- **An ending never makes the starts fail.** -/
theorem exists_starts (h : (r.withEnding .never).starts anchor lower upper = .ok l) :
    ∃ l', r.starts anchor lower upper = .ok l' := by
  unfold starts at h ⊢
  simp only at h ⊢
  split at h
  · exact absurd h nofun
  · rename_i hrange
    rw [scanAll_eq_foldl] at h
    rw [if_neg hrange, scanAll_eq_foldl]
    exact (Scan.foldl_follows (.going _ []) (r.days anchor)).exists_result h

/-- A rule without an end whose days all lie in the calendar has its starts in every window that can be
shifted by the anchor's part of a second, and they are known by their days. -/
theorem starts_never_iff {first last : Instant} {chosen : Instant → Prop}
    (hnever : r.ending = .never) (hcalendar : ∀ n ∈ r.days anchor, n < calendarDays)
    (hdays : ∀ t : Instant, t.day ∈ r.days anchor ↔ chosen t) :
    r.starts anchor (Stamp.ofInstant first) (Stamp.ofInstant last) = .ok l ↔
      (anchor.microOfSecond ≤ first.micros ∧ anchor.microOfSecond ≤ last.micros) ∧
        l.Pairwise (· < ·) ∧
          ∀ t, t ∈ l ↔ (first ≤ t ∧ t ≤ last) ∧
            anchor ≤ t ∧ t.timeOfDay = anchor.timeOfDay ∧ chosen t := by
  have hends : ¬r.RunsPast anchor last := by
    rintro ⟨-, -, n, hn, hbeyond⟩
    exact absurd (hcalendar n hn) (Nat.not_lt.2 hbeyond)
  have hmem (t : Instant) :
      t ∈ (r.candidates anchor).filter (fun t => decide (first ≤ t) && decide (t ≤ last)) ↔
        (first ≤ t ∧ t ≤ last) ∧ anchor ≤ t ∧ t.timeOfDay = anchor.timeOfDay ∧ chosen t := by
    rw [List.mem_filter, candidates, Instant.mem_candidates, hdays, Bool.and_eq_true,
      decide_eq_true_iff, decide_eq_true_iff]
    constructor
    · rintro ⟨⟨hday, htime, hle⟩, hwindow⟩
      exact ⟨hwindow, hle, htime, hday⟩
    · rintro ⟨hwindow, hle, htime, hday⟩
      exact ⟨⟨hday, htime, hle⟩, hwindow⟩
  have hsorted := (r.candidates_sorted anchor).filter fun t => decide (first ≤ t) && decide (t ≤ last)
  rw [starts_eq_ok_iff, allowed_never hnever]
  refine and_congr_right fun _ => ?_
  constructor
  · rintro ⟨-, rfl⟩
    exact ⟨hsorted, hmem⟩
  · rintro ⟨hl, hmeml⟩
    exact ⟨hends, eq_of_sorted Instant.lt_irrefl (fun _ _ => Instant.lt_asymm) hl hsorted
      fun t => (hmeml t).trans (hmem t).symm⟩

/-- **All endings cut the same candidates.**  Over a window in which the rule without an end has its
starts, these are the candidates in the window; with a count the starts are those of the first
candidates that lie in it, and with a last second those that lie in it and begin before the second is
over. -/
theorem ending_cuts_candidates (h : (r.withEnding .never).starts anchor lower upper = .ok l) :
    l = (r.candidates anchor).filter (Instant.isBetween lower upper) ∧
      (∀ n : Positive, (r.withEnding (.after n)).starts anchor lower upper =
        .ok (((r.candidates anchor).take n.1).filter (Instant.isBetween lower upper))) ∧
      ∀ s : Second, (r.withEnding (.on s)).starts anchor lower upper =
        .ok ((r.candidates anchor).filter fun t =>
          t.isBetween lower upper && decide (t.micros < s.instant.micros + microsPerSecond)) := by
  have hcut (e : Ending) : (r.withEnding e).starts anchor lower upper =
      .ok (((r.withEnding e).allowed anchor).filter (Instant.isBetween lower upper)) := by
    have hnever : ((r.withEnding e).withEnding .never).starts anchor lower upper = .ok l := h
    obtain ⟨l', hl'⟩ := exists_starts hnever
    rw [hl', starts_eq_filter hl']
  refine ⟨?_, fun n => ?_, fun s => ?_⟩
  · rw [starts_eq_filter h, allowed_never rfl]
    rfl
  · rw [hcut, allowed_after rfl]
    rfl
  · rw [hcut, allowed_on rfl, List.filter_filter]
    rfl

/-- The 31st of every month that has one. -/
def monthEnds : Rule := ⟨.monthly (some (.day ⟨31, by decide⟩)), Positive.one, .never⟩

/-- 31 January 2023 at 09:30:00.000005. -/
def lastOfJanuary : Instant := Instant.ofDay 738550 34200000005 (by decide) (by decide)

/-- 1 March 2023 at 01:30, on a clock that is two hours ahead. -/
def springOpening : Stamp :=
  ⟨Instant.ofDay 738579 5400000000 (by decide) (by decide), some ⟨7200000000, by decide, by decide⟩⟩

/-- 1 September 2023, at midnight. -/
def summerClosing : Stamp := Stamp.ofInstant (Instant.ofDate (Date.ofDay 738763 (by decide)))

/-- 31 July 2023 at 09:30:00. -/
def lastOfJuly : Second := (Instant.ofDay 738731 34200000000 (by decide) (by decide)).second

/-- A count of three takes in the last of January, before the window; the last second takes in a start
some microseconds after it. -/
theorem ending_cuts_candidates_monthEnds :
    ∃ all counted dated,
      (monthEnds.withEnding .never).starts lastOfJanuary springOpening summerClosing = .ok all ∧
      (monthEnds.withEnding (.after ⟨3, by decide⟩)).starts lastOfJanuary springOpening
        summerClosing = .ok counted ∧
      (monthEnds.withEnding (.on lastOfJuly)).starts lastOfJanuary springOpening summerClosing =
        .ok dated ∧
      all.map Instant.day = [738609, 738670, 738731, 738762] ∧
      counted.map Instant.day = [738609, 738670] ∧
      dated.map Instant.day = [738609, 738670, 738731] ∧
      all = (monthEnds.candidates lastOfJanuary).filter
        (Instant.isBetween springOpening summerClosing) ∧
      counted = ((monthEnds.candidates lastOfJanuary).take 3).filter
        (Instant.isBetween springOpening summerClosing) ∧
      dated = (monthEnds.candidates lastOfJanuary).filter fun t =>
        t.isBetween springOpening summerClosing &&
          decide (t.micros < lastOfJuly.instant.micros + microsPerSecond) := by
  have hall : (monthEnds.withEnding .never).starts lastOfJanuary springOpening summerClosing =
      .ok ([738609, 738670, 738731, 738762].filterMap lastOfJanuary.onDay?) := by
    decide +kernel
  have hcounted : (monthEnds.withEnding (.after ⟨3, by decide⟩)).starts lastOfJanuary springOpening
      summerClosing = .ok ([738609, 738670].filterMap lastOfJanuary.onDay?) := by
    decide +kernel
  have hdated : (monthEnds.withEnding (.on lastOfJuly)).starts lastOfJanuary springOpening
      summerClosing = .ok ([738609, 738670, 738731].filterMap lastOfJanuary.onDay?) := by
    decide +kernel
  obtain ⟨heq, hafter, hon⟩ := ending_cuts_candidates hall
  exact ⟨_, _, _, hall, hcounted, hdated, by decide +kernel, by decide +kernel, by decide +kernel, heq,
    Except.ok.inj (hcounted.symm.trans (hafter _)), Except.ok.inj (hdated.symm.trans (hon _))⟩

end Rule

end Recurrence
