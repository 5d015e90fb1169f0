import Recurrence.Proofs.Event.Split
import Recurrence.Proofs.Expansion.Ending

/-!
# Dividing a count

A counted series can be split at any instant, and its count is divided: what is spent are the starts
that the rule allows before the cutoff, and the continuation has the rest (`EventRecord.split_count`).

The spent starts are found by looking from the anchor up to the microsecond before the cutoff.  Behind
the anchor there is such a microsecond; up to the anchor nothing is looked for, and nothing is there
(`Rule.spent_of_le`).  So no start is lost between the two and none is counted twice
(`Rule.spent_of_consumed`).  Whatever a window that goes from the anchor to the cutoff shows before
the cutoff has been spent (`Rule.length_filter_starts`).  What is left of the count decides whether there
is a continuation and what its rule is (`Rule.continuationRule_counted`).
-/

namespace Recurrence

namespace Rule

variable {r : Rule} {a c : Instant} {n : Positive}

/-- The number of starts that a rule allows before a cutoff. -/
def spent (r : Rule) (a c : Instant) : Nat :=
  ((r.allowed a).filter fun t => decide (t < c)).length

/-- No start of a rule comes before the anchor. -/
theorem le_of_mem_allowed {t : Instant} (ht : t ∈ r.allowed a) : a ≤ t :=
  (Instant.mem_candidates.1 (mem_candidates_of_mem_allowed ht)).2.2

theorem spent_of_le (h : c ≤ a) : r.spent a c = 0 := by
  have hnone : ((r.allowed a).filter fun t => decide (t < c)) = [] := by
    refine List.filter_eq_nil_iff.2 fun t ht hlt => ?_
    have hct : c ≤ t := Nat.le_trans h (le_of_mem_allowed ht)
    exact Instant.not_lt.2 hct (of_decide_eq_true hlt)
  rw [spent, hnone, List.length_nil]

theorem spent_le_before : r.spent a c ≤ (r.before a c).length :=
  ((r.allowed_sublist a).filter _).length_le

theorem spent_le_count (hending : r.ending = .after n) : r.spent a c ≤ n.1 := by
  have hallowed : (r.allowed a).length ≤ n.1 := by
    rw [allowed_after hending]
    exact List.length_take_le _ _
  exact Nat.le_trans (List.length_filter_le _ _) hallowed

/-- **A window from the anchor to the cutoff shows what is spent.** -/
theorem length_filter_starts {lower upper : Instant} {starts : List Instant} (hlower : lower ≤ a)
    (hupper : c ≤ upper)
    (h : r.starts a (Stamp.ofInstant lower) (Stamp.ofInstant upper) = .ok starts) :
    (starts.filter fun t => decide (t < c)).length = r.spent a c := by
  obtain ⟨-, -, rfl⟩ := starts_eq_ok_iff.1 h
  rw [spent, List.filter_filter]
  refine congrArg List.length (List.filter_congr fun t ht => ?_)
  have hfirst : lower ≤ t := Nat.le_trans hlower (le_of_mem_allowed ht)
  rw [decide_eq_true hfirst, Bool.true_and, Bool.and_eq_left_iff_imp]
  intro hlt
  exact decide_eq_true (Nat.le_trans (Nat.le_of_lt (of_decide_eq_true hlt)) hupper)

/-- **What is consumed is what is spent.** -/
theorem spent_of_consumed {used : Nat} (h : r.consumed a c = .ok used) : used = r.spent a c := by
  unfold consumed at h
  split at h
  · rename_i hle
    rw [spent_of_le hle]
    exact (Except.ok.inj h).symm
  · rename_i hafter
    have hlt : a.micros < c.micros := Instant.not_le.1 hafter
    obtain ⟨u, hu⟩ : ∃ u, c.shift? (-1) = some u :=
      Instant.exists_shift?_neg (show 1 ≤ c.micros by omega)
    have hnext : u.micros + 1 = c.micros := Instant.shift?_neg_eq_some_iff.1 hu
    simp only [hu] at h
    cases hstarts : r.starts a (Stamp.ofInstant a) (Stamp.ofInstant u) with
    | error e =>
      rw [hstarts] at h
      cases h
    | ok starts =>
      rw [hstarts] at h
      obtain ⟨-, -, rfl⟩ := starts_eq_ok_iff.1 hstarts
      rw [← Except.ok.inj h, spent]
      refine congrArg List.length (List.filter_congr fun t ht => ?_)
      rw [decide_eq_true (le_of_mem_allowed ht), Bool.true_and, decide_eq_decide]
      show t.micros ≤ u.micros ↔ t.micros < c.micros
      omega

/-- **The rule text of a continuation, if the rule counts.**  There is none exactly if the count is
spent; otherwise it has the rest. -/
theorem continuationRule_counted {text : String} {next : Option String} (hending : r.ending = .after n)
    (h : continuationRule text r a c = .ok next) :
    (next = none ∧ r.spent a c = n.1) ∨
      ∃ m : Positive, r.spent a c + m.1 = n.1 ∧ next = some (withCount text m.1) := by
  unfold continuationRule at h
  simp only [hending] at h
  cases hconsumed : r.consumed a c with
  | error e =>
    rw [hconsumed] at h
    cases h
  | ok used =>
    obtain rfl := spent_of_consumed hconsumed
    have hcount := spent_le_count (a := a) (c := c) hending
    simp only [hconsumed, Except.map] at h
    by_cases hle : n.1 ≤ r.spent a c
    · rw [if_pos hle] at h
      exact .inl ⟨(Except.ok.inj h).symm, Nat.le_antisymm hcount hle⟩
    · rw [if_neg hle] at h
      exact .inr ⟨⟨_, Nat.sub_pos_of_lt (Nat.lt_of_not_le hle)⟩, Nat.add_sub_cancel' hcount,
        (Except.ok.inj h).symm⟩

/-- A continuation with the rest of the count. -/
theorem continuationRule_of_rest {used : Nat} {m : Positive} (hending : r.ending = .after n)
    (h : r.consumed a c = .ok used) (hrest : used + m.1 = n.1) :
    continuationRule r.encode r a c = .ok (some (r.withEnding (.after m)).encode) := by
  have hm := m.2
  have hleft : ¬n.1 ≤ used := by omega
  have hsub : n.1 - used = m.1 := by omega
  unfold continuationRule
  simp only [hending, h, Except.map, if_neg hleft, hsub, withCount_encode hending]

/-- No continuation, where the count is spent. -/
theorem continuationRule_of_spent {text : String} (hending : r.ending = .after n)
    (h : r.consumed a c = .ok n.1) : continuationRule text r a c = .ok none := by
  unfold continuationRule
  simp only [hending, h, Except.map, if_pos (Nat.le_refl n.1)]

/-- The rest of a count has no more digits than the count. -/
theorem storable_rest {used : Nat} {m : Positive} (hr : r.Storable) (hending : r.ending = .after n)
    (h : used + m.1 = n.1) : (r.withEnding (.after m)).Storable := by
  have hm := m.2
  have hlt : used < n.1 := by omega
  have hminus : r.ending.minus? used = some (.after m) := by
    rw [hending, Ending.minus?, dif_pos hlt]
    exact congrArg (some ∘ Ending.after) (Subtype.ext (show n.1 - used = m.1 by omega))
  exact storable_of_minus? hr hminus

end Rule

namespace EventRecord

/-- **A count is divided exactly at any cutoff.**  What is spent are the starts before the cutoff, as any
window from the anchor to the cutoff shows them.  Where a counted series is split, there is no
continuation exactly if the whole count is spent; otherwise the rule of the continuation is that of the
series with the rest of the count. -/
theorem split_count {record : EventRecord} {r : Rule} {n : Positive} {point : Stamp} {c : Instant}
    {newId : Option String} {fresh : String} {s : SeriesSplit} (hr : r.Storable)
    (hrule : record.recurrence = some r.encode) (hcount : r.ending = .after n)
    (hpoint : point.utc = .ok c) (hsplit : record.split point newId fresh = .ok s) :
    (∀ {lower upper : Instant} {starts : List Instant}, lower ≤ record.start → c ≤ upper →
        r.starts record.start (Stamp.ofInstant lower) (Stamp.ofInstant upper) = .ok starts →
          (starts.filter fun t => decide (t < c)).length = r.spent record.start c) ∧
      (s.continuation = none ↔ r.spent record.start c = n.1) ∧
      ∀ next, s.continuation = some next →
        ∃ (m : Positive) (text : String), r.spent record.start c + m.1 = n.1 ∧
          next.recurrence = some text ∧ Rule.decode? text = some (r.withEnding (.after m)) := by
  obtain ⟨rule, r', c', next, hfound⟩ := splitsAt_of_split hsplit
  obtain rfl : rule = r.encode := Option.some.inj (hfound.recurrence.symm.trans hrule)
  obtain rfl : r' = r := Option.some.inj (hfound.decoded.symm.trans (Rule.decode?_encode hr))
  obtain rfl : c' = c := Except.ok.inj (hfound.cutoff.symm.trans hpoint)
  refine ⟨fun hlower hupper hstarts => Rule.length_filter_starts hlower hupper hstarts, ?_⟩
  rcases Rule.continuationRule_counted hcount hfound.counted with ⟨hnone, hspent⟩ | ⟨m, hspent, hsome⟩
  · have hended := hfound.ended hnone
    refine ⟨⟨fun _ => hspent, fun _ => hended⟩, fun q hq => ?_⟩
    exact absurd (hq.symm.trans hended) nofun
  · obtain ⟨finish, -, hcontinued⟩ := hfound.continued _ hsome
    have hm := m.2
    refine ⟨⟨fun h => absurd (h.symm.trans hcontinued) nofun, fun h => by omega⟩, fun q hq => ?_⟩
    obtain rfl := Option.some.inj (hcontinued.symm.trans hq)
    refine ⟨m, _, hspent, rfl, ?_⟩
    rw [Rule.withCount_encode hcount]
    exact Rule.decode?_encode (Rule.storable_rest hr hcount hspent)

/-- A microsecond behind the cancelled start of 23 February. -/
def afterFebruaryCall : Instant := Instant.ofDay 738938 32400000006 (by decide) (by decide)

/-- A microsecond behind the cancelled start of 26 April. -/
def afterAprilCall : Instant := Instant.ofDay 739001 32400000006 (by decide) (by decide)

/-- The calls are split where none starts.  Behind the cancelled start of February two of the four are
spent, behind that of April all. -/
theorem split_count_lastFridayCall :
    ∃ s next ended,
      lastFridayCall.split (Stamp.ofInstant afterFebruaryCall) none "rest" = .ok s ∧
      s.continuation = some next ∧
      lastFridays.spent lastFridayCall.start afterFebruaryCall = 2 ∧
      (∃ text, next.recurrence = some text ∧
        Rule.decode? text = some (lastFridays.withEnding (.after ⟨2, Nat.two_pos⟩))) ∧
      lastFridayCall.split (Stamp.ofInstant afterAprilCall) none "rest" = .ok ended ∧
      ended.continuation = none ∧ lastFridays.spent lastFridayCall.start afterAprilCall = 4 := by
  have hstorable : lastFridays.Storable := ⟨by decide, by rintro n ⟨⟩; decide⟩
  have hstarts : lastFridays.starts lastFridayCall.start
      (Stamp.ofInstant (Instant.ofDay 738884 0 (by decide) (by decide)))
      (Stamp.ofInstant (Instant.ofDay 739250 86399999999 (by decide) (by decide))) =
        .ok ([738910, 738938, 738973, 739001].filterMap lastFridayCall.start.onDay?) := by
    decide
  have hread : readExceptions lastFridayCall.exceptions =
      .ok ([738938, 739001].filterMap lastFridayCall.start.onDay?) := by
    decide +kernel
  have htwo : lastFridays.consumed lastFridayCall.start afterFebruaryCall = .ok 2 := by decide
  have hfour : lastFridays.consumed lastFridayCall.start afterAprilCall = .ok 4 := by decide
  have hfinish : afterFebruaryCall.shift? (lastFridayCall.series lastFridays
      ([738938, 739001].filterMap lastFridayCall.start.onDay?)).duration =
        some (Instant.ofDay 738938 36000000006 (by decide) (by decide)) := by
    decide
  obtain ⟨february, hfebruary⟩ :=
    Rule.exists_secondBefore (show 2 ≤ afterFebruaryCall.date.year by decide)
  obtain ⟨april, hapril⟩ :=
    Rule.exists_secondBefore (show 2 ≤ afterAprilCall.date.year by decide)
  have hsplit := split_of_encode hstorable rfl hread (Stamp.utc_ofInstant afterFebruaryCall) hfebruary
    none "rest"
  have hended := split_of_encode hstorable rfl hread (Stamp.utc_ofInstant afterAprilCall) hapril none
    "rest"
  have hrest : continuationRule lastFridays.encode lastFridays lastFridayCall.start
      afterFebruaryCall = .ok (some (lastFridays.withEnding (.after ⟨2, Nat.two_pos⟩)).encode) :=
    Rule.continuationRule_of_rest rfl htwo rfl
  have hnone : continuationRule lastFridays.encode lastFridays lastFridayCall.start afterAprilCall =
      .ok none :=
    Rule.continuationRule_of_spent rfl hfour
  simp only [hrest, hfinish] at hsplit
  simp only [hnone] at hended
  obtain ⟨hshown, -, hcontinued⟩ :=
    split_count hstorable rfl rfl (Stamp.utc_ofInstant afterFebruaryCall) hsplit
  obtain ⟨-, hspentAll, -⟩ := split_count hstorable rfl rfl (Stamp.utc_ofInstant afterAprilCall) hended
  obtain ⟨m, text, hspent, htext, hdecode⟩ := hcontinued _ rfl
  have hspentTwo : lastFridays.spent lastFridayCall.start afterFebruaryCall = 2 := by
    rw [← hshown (by decide) (by decide) hstarts]
    decide
  obtain rfl : m = ⟨2, Nat.two_pos⟩ := by
    rw [hspentTwo] at hspent
    exact Subtype.ext (Nat.add_left_cancel hspent)
  exact ⟨_, _, _, hsplit, rfl, hspentTwo, ⟨text, htext, hdecode⟩, hended, rfl, hspentAll.1 rfl⟩

end EventRecord

end Recurrence
