import Recurrence.Event.Store
import Recurrence.Proofs.Event.Exhausted
import Recurrence.Proofs.Event.SplitTwice

/-!
# Editing keeps stored rules canonical

A rule is edited in two ways: its text is rewritten token by token where a series is clamped or split,
and the rule is read, changed and written anew where it gets a preset or another ending.  Each of them
leads from the canonical text of a storable rule to the canonical text of a storable rule
(`Rule.canonical_clampUntil`, `Rule.canonical_continuationRule`, `Rule.storable_switchEndingTo`).

So each edit of an event leaves it without a rule or with a canonical one, and the event that continues
it has a canonical one (`EventRecord.canonical_apply`); and by induction on the edits so has every event
of a store (`EventStore.canonical_editAll`).
-/

namespace Recurrence

namespace Rule

variable {r r' : Rule} {a c : Instant} {anchor cutoff : Stamp} {text : String}

/-! ## Rules that can be stored -/

theorem storable_ofAnchor (f : Frequency) (a : Instant) : (ofAnchor f a).Storable :=
  ⟨show (Text.decimal 1).length ≤ Text.maxDigits by decide, fun _ h => absurd h nofun⟩

theorem storable_withEnding_never (hr : r.Storable) : (r.withEnding .never).Storable :=
  ⟨hr.1, fun _ h => absurd h nofun⟩

theorem storable_withEnding_default (hr : r.Storable) :
    (r.withEnding (.after defaultCount)).Storable := by
  refine ⟨hr.1, fun n hn => ?_⟩
  rw [← Ending.after.inj hn]
  decide

/-- Another kind of ending brings no number that is too long. -/
theorem storable_switchEnding {kind : EndKind} (hr : r.Storable)
    (h : r.switchEnding kind anchor = .ok r') : r'.Storable := by
  cases kind with
  | never =>
    rw [← Except.ok.inj h]
    exact storable_withEnding_never hr
  | on =>
    unfold switchEnding at h
    simp only at h
    split at h
    · rw [← Except.ok.inj h]
      exact hr
    · cases ht : anchor.utc with
      | error e =>
        rw [ht] at h
        cases h
      | ok t =>
        rw [ht] at h
        rw [← Except.ok.inj h]
        exact storable_withEnding_on hr _
  | after =>
    unfold switchEnding at h
    simp only at h
    split at h
    · rw [← Except.ok.inj h]
      exact hr
    · rw [← Except.ok.inj h]
      exact storable_withEnding_default hr

theorem storable_switchEndingTo {kind : Value} (hr : r.Storable)
    (h : r.switchEndingTo kind anchor = .ok r') : r'.Storable := by
  unfold switchEndingTo at h
  simp only at h
  split at h
  · cases h
  · rename_i k _
    cases hk : r.switchEnding k anchor with
    | error e =>
      rw [hk] at h
      cases h
    | ok rule =>
      rw [hk] at h
      rw [← Except.ok.inj h]
      exact storable_switchEnding hr hk

/-! ## Texts that are rewritten -/

/-- **Clamping keeps a text canonical.** -/
theorem canonical_clampUntil (hr : r.Storable) (h : clampUntil r.encode cutoff = .ok text) :
    ∃ rule : Rule, rule.Storable ∧ rule.encode = text := by
  cases hc : cutoff.utc with
  | error e =>
    simp only [clampUntil, r.ofText_encode, TokenList.hasFrequency_toTokens, if_true, hc] at h
    cases h
  | ok c =>
    obtain ⟨last, -, htext⟩ := exists_last_of_clampUntil hc h
    exact ⟨_, storable_withEnding_on hr last.second, htext.symm⟩

/-- **What is left of a canonical text is canonical**: a count stays positive and does not get
longer. -/
theorem canonical_continuationRule (hr : r.Storable)
    (h : continuationRule r.encode r a c = .ok (some text)) :
    ∃ rule : Rule, rule.Storable ∧ rule.encode = text := by
  cases hending : r.ending with
  | never =>
    unfold continuationRule at h
    simp only [hending] at h
    exact ⟨r, hr, Option.some.inj (Except.ok.inj h)⟩
  | on s =>
    unfold continuationRule at h
    simp only [hending] at h
    exact ⟨r, hr, Option.some.inj (Except.ok.inj h)⟩
  | after n =>
    rcases continuationRule_counted hending h with ⟨hnone, -⟩ | ⟨m, hspent, hsome⟩
    · exact absurd hnone nofun
    · refine ⟨r.withEnding (.after m), storable_rest hr hending hspent, ?_⟩
      rw [← withCount_encode hending]
      exact (Option.some.inj hsome).symm

end Rule

/-! ## One event -/

namespace EventRecord

variable {r r' : EventRecord} {next : Option EventRecord}

/-- An event without a rule, or with the canonical text of a rule that can be stored. -/
def Canonical (r : EventRecord) : Prop :=
  r.recurrence = none ∨ ∃ rule : Rule, rule.Storable ∧ r.recurrence = some rule.encode

theorem Canonical.exists_rule {text : String} (hr : r.Canonical) (h : r.recurrence = some text) :
    ∃ rule : Rule, rule.Storable ∧ rule.encode = text := by
  rcases hr with hnone | ⟨rule, hrule, htext⟩
  · exact absurd (hnone.symm.trans h) nofun
  · exact ⟨rule, hrule, Option.some.inj (htext.symm.trans h)⟩

/-- The strict reader takes the rule of a canonical event for the rule that was stored. -/
theorem Canonical.storable_of_parseValue {rule : Rule} (hr : r.Canonical)
    (h : Rule.parseValue r.rule = .ok rule) : rule.Storable := by
  unfold EventRecord.rule at h
  cases htext : r.recurrence with
  | none =>
    rw [htext] at h
    cases h
  | some text =>
    obtain ⟨stored, hstored, rfl⟩ := hr.exists_rule htext
    rw [htext] at h
    have hparse : Rule.parse stored.encode = .ok rule := h
    rw [Rule.parse_encode hstored] at hparse
    exact Except.ok.inj hparse ▸ hstored

/-- **Both parts of a split event are canonical.** -/
theorem canonical_split {point : Stamp} {newId : Option String} {fresh : String} {s : SeriesSplit}
    (hr : r.Canonical) (h : r.split point newId fresh = .ok s) :
    (r.shortened s).Canonical ∧ ∀ q ∈ s.continuation, q.Canonical := by
  obtain ⟨text, rule, c, next, hfound⟩ := splitsAt_of_split h
  obtain ⟨stored, hstored, rfl⟩ := hr.exists_rule hfound.recurrence
  obtain rfl : rule = stored := Option.some.inj (hfound.decoded.symm.trans (Rule.decode?_encode hstored))
  obtain ⟨early, hearly, hclamped⟩ := Rule.canonical_clampUntil hstored hfound.clamped
  refine ⟨.inr ⟨early, hearly, congrArg some hclamped.symm⟩, fun q hq => ?_⟩
  cases next with
  | none => exact absurd (hq.symm.trans (hfound.ended rfl)) nofun
  | some remaining =>
    obtain ⟨late, hlate, hcontinued⟩ := Rule.canonical_continuationRule hstored hfound.counted
    obtain ⟨finish, -, hsome⟩ := hfound.continued remaining rfl
    obtain rfl := Option.some.inj (hsome.symm.trans hq)
    exact .inr ⟨late, hlate, congrArg some hcontinued.symm⟩

/-- **An edit keeps an event canonical**, and so is the event that continues it. -/
theorem canonical_apply {e : Edit} (hr : r.Canonical) (h : r.apply e = .ok (r', next)) :
    r'.Canonical ∧ ∀ q ∈ next, q.Canonical := by
  cases e with
  | exclude start =>
    unfold apply at h
    simp only at h
    split at h
    · cases h
      exact ⟨hr, nofun⟩
    · cases h
  | split point newId fresh =>
    unfold apply at h
    simp only at h
    split at h
    · rename_i s hsplit
      cases h
      exact canonical_split hr hsplit
    · cases h
  | clamp cutoff =>
    unfold apply at h
    simp only at h
    split at h
    · cases h
      exact ⟨hr, nofun⟩
    · rename_i text htext
      split at h
      · rename_i clamped hclamp
        cases h
        obtain ⟨rule, hrule, rfl⟩ := hr.exists_rule htext
        obtain ⟨early, hearly, hclamped⟩ := Rule.canonical_clampUntil hrule hclamp
        exact ⟨.inr ⟨early, hearly, congrArg some hclamped.symm⟩, nofun⟩
      · cases h
  | preset frequency =>
    cases frequency with
    | none => cases h
    | some f =>
      cases h
      exact ⟨.inr ⟨_, Rule.storable_ofAnchor f r.start, rfl⟩, nofun⟩
  | setEnd kind =>
    unfold apply at h
    simp only at h
    split at h
    · cases h
    · rename_i rule hparse
      have hrule : rule.Storable := hr.storable_of_parseValue hparse
      cases hswitch : rule.switchEndingTo kind (Stamp.ofInstant r.start) with
      | error e =>
        rw [hswitch] at h
        cases h
      | ok switched =>
        rw [hswitch] at h
        cases h
        exact ⟨.inr ⟨_, Rule.storable_switchEndingTo hrule hswitch, rfl⟩, nofun⟩

end EventRecord

/-! ## A store of events -/

namespace EventStore

variable {s : EventStore}

/-- The store after an edit of the event with a name.  Nothing changes if there is none or the edit
fails. -/
def edit (s : EventStore) (name : String) (e : Edit) : EventStore :=
  match s.find? name with
  | none => s
  | some r =>
    match s.apply r e with
    | .ok (s, _) => s
    | .error _ => s

/-- The store after one edit after the other. -/
def editAll (s : EventStore) (edits : List (String × Edit)) : EventStore :=
  edits.foldl (fun s e => s.edit e.1 e.2) s

theorem mem_of_mem_put {p q : EventRecord} (h : q ∈ put p s) : q = p ∨ q ∈ s := by
  induction s with
  | nil => exact .inl (List.mem_singleton.1 h)
  | cons r s ih =>
    rw [put] at h
    split at h
    · exact (List.mem_cons.1 h).imp_right (List.mem_cons_of_mem r)
    · rcases List.mem_cons.1 h with rfl | h
      · exact .inr List.mem_cons_self
      · exact (ih h).imp_right (List.mem_cons_of_mem r)

theorem canonical_edit (hs : ∀ r ∈ s, r.Canonical) (name : String) (e : Edit) :
    ∀ r ∈ s.edit name e, r.Canonical := by
  unfold edit
  cases hfind : s.find? name with
  | none => exact hs
  | some r =>
    have hr : r.Canonical := hs r (List.mem_of_find?_eq_some hfind)
    cases happly : r.apply e with
    | error e' =>
      simp only [EventStore.apply, happly, Except.map]
      exact hs
    | ok edited =>
      obtain ⟨r', next⟩ := edited
      obtain ⟨hr', hnext⟩ := EventRecord.canonical_apply hr happly
      have hput : ∀ q ∈ put r' s, q.Canonical := by
        intro q hq
        rcases mem_of_mem_put hq with rfl | hq
        · exact hr'
        · exact hs q hq
      simp only [EventStore.apply, happly, Except.map]
      cases next with
      | none => exact hput
      | some c =>
        intro q hq
        rcases mem_of_mem_put hq with rfl | hq
        · exact hnext q rfl
        · exact hput q hq

/-- **Stored rules stay canonical.**  If every event of a store has no rule or a canonical one, then so
it is after any edits, and both readers give the rules back. -/
theorem canonical_editAll (hs : ∀ r ∈ s, r.Canonical) (edits : List (String × Edit)) :
    ∀ r ∈ s.editAll edits, r.recurrence = none ∨
      ∃ rule : Rule, rule.Storable ∧ r.recurrence = some rule.encode ∧
        Rule.decode? rule.encode = some rule ∧ Rule.parse rule.encode = .ok rule := by
  induction edits generalizing s with
  | nil =>
    intro r hr
    refine (hs r hr).imp_right ?_
    rintro ⟨rule, hrule, htext⟩
    exact ⟨rule, hrule, htext, Rule.decode?_encode hrule, Rule.parse_encode hrule⟩
  | cons e edits ih => exact ih (canonical_edit hs e.1 e.2)

/-- Swimming, and a meeting that does not repeat yet. -/
def diary : EventStore :=
  [EventRecord.swimming, { EventRecord.lastFridayCall with recurrence := none, exceptions := [] }]

/-- Swimming is split, and its rest cannot be clamped at the start of the calendar.  The call cannot be
given an end before it repeats, and is split after its first year.  There is no other event. -/
def diaryEdits : List (String × Edit) :=
  [("swimming", .exclude (Stamp.ofInstant EventRecord.thirdTuesday.start)),
    ("swimming", .split (Stamp.ofInstant EventRecord.secondTuesday.start) (some "rest") ""),
    ("rest", .clamp (Stamp.ofInstant ⟨0, by decide⟩)),
    ("call", .setEnd (.text "after")),
    ("call", .preset (some .yearly)),
    ("call", .setEnd (.text "soon")),
    ("call", .setEnd (.text "after")),
    ("call", .split (Stamp.ofInstant EventRecord.secondTuesday.start) none "calls"),
    ("other", .preset (some .daily))]

theorem canonical_editAll_diary :
    (∀ r ∈ diary, r.Canonical) ∧
      (diary.editAll diaryEdits).map (fun r => (r.id, r.recurrence)) =
        [("swimming", some "RRULE:FREQ=WEEKLY;INTERVAL=2;BYDAY=TU,TH;UNTIL=20240130T175959Z"),
          ("call", some
            "RRULE:FREQ=YEARLY;INTERVAL=1;BYMONTH=1;BYMONTHDAY=26;UNTIL=20240130T175959Z"),
          ("rest", some "RRULE:FREQ=WEEKLY;INTERVAL=2;BYDAY=TU,TH;COUNT=5"),
          ("calls", some "RRULE:FREQ=YEARLY;INTERVAL=1;BYMONTH=1;BYMONTHDAY=26;COUNT=9")] ∧
      ∀ r ∈ diary.editAll diaryEdits, r.recurrence = none ∨
        ∃ rule : Rule, rule.Storable ∧ r.recurrence = some rule.encode ∧
          Rule.decode? rule.encode = some rule ∧ Rule.parse rule.encode = .ok rule := by
  have hcanonical : ∀ r ∈ diary, r.Canonical := by
    intro r hr
    rcases List.mem_cons.1 hr with rfl | hr
    · exact .inr ⟨EventRecord.swimmingDays, ⟨by decide, by rintro n ⟨⟩; decide⟩, rfl⟩
    · rw [List.mem_singleton.1 hr]
      exact .inl rfl
  exact ⟨hcanonical, by decide +kernel, canonical_editAll hcanonical diaryEdits⟩

end EventStore

end Recurrence
