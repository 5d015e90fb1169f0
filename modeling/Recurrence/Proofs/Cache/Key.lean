import Mathlib.Control.Monad.Basic
import Recurrence.Cache.Expansion
import Recurrence.Proofs.Expansion.Reanchor
import Recurrence.Proofs.Expansion.Series
import Recurrence.Proofs.Numeric.Binary64
import Recurrence.Proofs.Timestamp.IsoPrinter

/-!
# What the key of an expansion determines

From a key one can tell the name, the bounds, the rule text, the duration in seconds and the set of
cancelled starts, and nothing else (`CacheKey.of_eq_iff`).  The start of the event is not among them,
and the duration is only as exact as its number of seconds.

Two expansions with the same key are therefore the same only if they show the same starts and last
equally long (`CacheKey.expand_eq_iff`).  It is enough that their rules have the same first start, and
that the durations are the same or short enough to be told apart.  `stale_after_move` is an event for
which this fails: once it has been moved, the cache still answers with its old occurrences.
-/

namespace Recurrence

/-! ## Sets of texts -/

theorem mem_insertText {s x : String} {l : List String} :
    x ∈ insertText s l ↔ x = s ∨ x ∈ l := by
  induction l with
  | nil => rw [insertText, List.mem_singleton, List.mem_nil_iff, or_false]
  | cons t l ih =>
    rw [insertText]
    split
    · rename_i hst
      rw [List.mem_cons, hst]
      exact ⟨.inr, fun h => h.elim .inl id⟩
    · split
      · exact List.mem_cons
      · rw [List.mem_cons, ih, List.mem_cons]
        exact or_left_comm

theorem insertText_sorted {s : String} {l : List String} (h : l.Pairwise (· < ·)) :
    (insertText s l).Pairwise (· < ·) := by
  induction l with
  | nil => exact List.pairwise_singleton _ _
  | cons t l ih =>
    obtain ⟨ht, hl⟩ := List.pairwise_cons.1 h
    rw [insertText]
    split
    · exact h
    · rename_i hne
      split
      · rename_i hst
        refine List.pairwise_cons.2 ⟨?_, h⟩
        intro x hx
        rcases List.mem_cons.1 hx with rfl | hx
        · exact hst
        · exact String.lt_trans hst (ht x hx)
      · rename_i hst
        refine List.pairwise_cons.2 ⟨?_, ih hl⟩
        intro x hx
        rcases mem_insertText.1 hx with rfl | hx
        · have hle : t ≤ x := String.not_lt.1 hst
          apply Decidable.byContradiction
          intro hlt
          exact hne (String.le_antisymm (String.not_lt.1 hlt) hle)
        · exact ht x hx

theorem foldl_insertText (l : List Instant) (acc : List String) (hacc : acc.Pairwise (· < ·)) :
    (l.foldl (fun acc t => insertText t.toIso acc) acc).Pairwise (· < ·) ∧
      ∀ x, x ∈ l.foldl (fun acc t => insertText t.toIso acc) acc ↔
        x ∈ acc ∨ ∃ t ∈ l, t.toIso = x := by
  induction l generalizing acc with
  | nil => exact ⟨hacc, fun x => by simp⟩
  | cons t l ih =>
    obtain ⟨hsorted, hmem⟩ := ih (insertText t.toIso acc) (insertText_sorted hacc)
    refine ⟨hsorted, ?_⟩
    intro x
    rw [List.foldl_cons, hmem, mem_insertText]
    constructor
    · rintro ((rfl | hx) | ⟨u, hu, rfl⟩)
      · exact .inr ⟨t, List.mem_cons_self, rfl⟩
      · exact .inl hx
      · exact .inr ⟨u, List.mem_cons_of_mem t hu, rfl⟩
    · rintro (hx | ⟨u, hu, rfl⟩)
      · exact .inl (.inr hx)
      · rcases List.mem_cons.1 hu with rfl | hu
        · exact .inl (.inl rfl)
        · exact .inr ⟨u, hu, rfl⟩

theorem sortedTexts_sorted (l : List Instant) : (sortedTexts l).Pairwise (· < ·) :=
  (foldl_insertText l [] List.Pairwise.nil).1

theorem toIso_mem_sortedTexts {t : Instant} {l : List Instant} : t.toIso ∈ sortedTexts l ↔ t ∈ l := by
  unfold sortedTexts
  rw [(foldl_insertText l [] List.Pairwise.nil).2]
  constructor
  · rintro (h | ⟨u, hu, hiso⟩)
    · exact absurd h List.not_mem_nil
    · rwa [← Instant.toIso_injective hiso]
  · intro ht
    exact .inr ⟨t, ht, rfl⟩

/-- **The texts of a set determine it**, and are determined by it. -/
theorem sortedTexts_eq_iff {l₁ l₂ : List Instant} :
    sortedTexts l₁ = sortedTexts l₂ ↔ ∀ t, t ∈ l₁ ↔ t ∈ l₂ := by
  constructor
  · intro h t
    rw [← toIso_mem_sortedTexts, h, toIso_mem_sortedTexts]
  · intro h
    refine eq_of_sorted String.lt_irrefl (fun _ _ => String.lt_asymm) (sortedTexts_sorted l₁)
      (sortedTexts_sorted l₂) ?_
    intro x
    have hmem := fun l => (foldl_insertText l [] List.Pairwise.nil).2 x
    unfold sortedTexts
    rw [hmem, hmem]
    simp only [h]

/-! ## Equal keys -/

namespace CacheKey

variable {s₁ s₂ : Series} {lower₁ upper₁ lower₂ upper₂ : Instant} {cancelled₁ cancelled₂ : List Instant}

/-- **What can be told from a key.** -/
theorem of_eq_iff :
    CacheKey.of s₁ (Stamp.ofInstant lower₁) (Stamp.ofInstant upper₁) cancelled₁ =
        CacheKey.of s₂ (Stamp.ofInstant lower₂) (Stamp.ofInstant upper₂) cancelled₂ ↔
      s₁.id = s₂.id ∧ lower₁ = lower₂ ∧ upper₁ = upper₂ ∧ s₁.rule = s₂.rule ∧
        s₁.seconds = s₂.seconds ∧
        ∀ t, t ∈ s₁.exceptions ++ cancelled₁ ↔ t ∈ s₂.exceptions ++ cancelled₂ := by
  constructor
  · intro h
    unfold CacheKey.of at h
    obtain ⟨hid, hlower, hupper, hrule, hseconds, hcancelled⟩ := CacheKey.mk.inj h
    exact ⟨hid, Instant.toIso_injective hlower, Instant.toIso_injective hupper, hrule, hseconds,
      sortedTexts_eq_iff.1 hcancelled⟩
  · rintro ⟨hid, rfl, rfl, hrule, hseconds, hcancelled⟩
    unfold CacheKey.of
    rw [hid, hrule, hseconds, sortedTexts_eq_iff.2 hcancelled]

end CacheKey

/-- Equal numbers of seconds are equal durations, unless one is longer than can be told exactly. -/
theorem Series.duration_eq_of_seconds {s₁ s₂ : Series} (h : s₁.seconds = s₂.seconds)
    (h₁ : s₁.duration < Binary64.exactMicros) (h₂ : s₂.duration < Binary64.exactMicros) :
    s₁.duration = s₂.duration :=
  Binary64.ofRatio_micros_injective h₁ h₂ h

/-! ## Equal expansions -/

namespace Series

variable {s₁ s₂ : Series} {lower upper : Instant} {cancelled₁ cancelled₂ l : List Instant}

theorem ofStart?_congr (hid : s₁.id = s₂.id) (hd : s₁.duration = s₂.duration) :
    Occurrence.ofStart? s₁ = Occurrence.ofStart? s₂ := by
  funext t
  unfold Occurrence.ofStart?
  rw [hid, hd]

/-- Occurrences are the same if their starts are and they last equally long. -/
theorem filterMap_ofStart?_eq_iff {l₁ l₂ : List Instant} (hid : s₁.id = s₂.id)
    (h₁ : ∀ t ∈ l₁, (t.shift? s₁.duration).isSome = true)
    (h₂ : ∀ t ∈ l₂, (t.shift? s₂.duration).isSome = true) :
    l₁.filterMap (Occurrence.ofStart? s₁) = l₂.filterMap (Occurrence.ofStart? s₂) ↔
      l₁ = l₂ ∧ (l₁ = [] ∨ s₁.duration = s₂.duration) := by
  constructor
  · intro h
    have hstarts : l₁ = l₂ := by
      rw [← map_start_filterMap h₁, h, map_start_filterMap h₂]
    subst hstarts
    refine ⟨rfl, ?_⟩
    cases l₁ with
    | nil => exact .inl rfl
    | cons t l =>
      obtain ⟨u, hu⟩ := Option.isSome_iff_exists.1 (h₁ t List.mem_cons_self)
      have ho : (⟨s₁.id, t, u⟩ : Occurrence) ∈ (t :: l).filterMap (Occurrence.ofStart? s₁) :=
        List.mem_filterMap.2
          ⟨t, List.mem_cons_self, Occurrence.ofStart?_eq_some_iff.2 ⟨rfl, rfl, hu⟩⟩
      rw [h] at ho
      obtain ⟨v, -, hv⟩ := List.mem_filterMap.1 ho
      obtain ⟨-, rfl, hfinish⟩ := Occurrence.ofStart?_eq_some_iff.1 hv
      have hfirst := Instant.shift?_eq_some_iff.1 hu
      have hsecond : u.micros = t.micros + s₂.duration := Instant.shift?_eq_some_iff.1 hfinish
      exact .inr (by omega)
  · rintro ⟨rfl, rfl | hd⟩
    · rfl
    · rw [ofStart?_congr hid hd]

/-- The starts that are shown keep the anchor's time of day. -/
theorem timeOfDay_of_mem_shown {s : Series} {t : Instant}
    (h : t ∈ s.shown lower upper cancelled₁) : t.timeOfDay = s.start.timeOfDay := by
  obtain ⟨r, -, hallowed⟩ := exists_rule_of_mem_shown h
  exact (Instant.mem_candidates.1 (Rule.mem_candidates_of_mem_allowed hallowed)).2.1

/-- The same rule with the same first start shows the same starts, where the same ones are cancelled. -/
theorem shown_eq_of_firstStart (hrule : s₁.rule = s₂.rule) (hfirst : s₁.firstStart = s₂.firstStart)
    (hd : s₁.duration = s₂.duration)
    (hcancelled : ∀ t, t ∈ s₁.exceptions ++ cancelled₁ ↔ t ∈ s₂.exceptions ++ cancelled₂) :
    s₁.shown lower upper cancelled₁ = s₂.shown lower upper cancelled₂ := by
  have hread : s₁.rule? = s₂.rule? := congrArg Rule.decode? hrule
  cases hr : s₂.rule? with
  | none =>
    rw [hr] at hread
    unfold shown
    rw [hread, hr]
  | some r =>
    rw [hr] at hread
    have hheads : (r.allowed s₁.start).head? = (r.allowed s₂.start).head? := by
      unfold firstStart at hfirst
      rw [hread, hr, Option.bind_some, Option.bind_some] at hfirst
      exact hfirst
    cases hhead : (r.allowed s₂.start).head? with
    | none =>
      have hnil : ∀ {s : Series} {cancelled : List Instant}, s.rule? = some r →
          (r.allowed s.start).head? = none → s.shown lower upper cancelled = [] := by
        intro s cancelled hs hempty
        apply List.eq_nil_iff_forall_not_mem.2
        intro t ht
        have hmem := mem_allowed_of_mem_shown hs ht
        rw [List.head?_eq_none_iff.1 hempty] at hmem
        exact List.not_mem_nil hmem
      rw [hnil hread (hheads.trans hhead), hnil hr hhead]
    | some c =>
      have hstarts : ∀ starts,
          r.starts s₁.start (Stamp.ofInstant lower) (Stamp.ofInstant upper) = .ok starts ↔
            r.starts s₂.start (Stamp.ofInstant lower) (Stamp.ofInstant upper) = .ok starts := by
        intro starts
        rw [Rule.starts_first (hheads.trans hhead), Rule.starts_first hhead]
      have hcontains : ∀ t, (s₁.exceptions ++ cancelled₁).contains t =
          (s₂.exceptions ++ cancelled₂).contains t := by
        intro t
        rw [Bool.eq_iff_iff, List.contains_iff_mem, List.contains_iff_mem, hcancelled]
      unfold shown
      rw [hread, hr, hd]
      simp only [hcontains]
      split
      · rfl
      · cases h₁ : r.starts s₁.start (Stamp.ofInstant lower) (Stamp.ofInstant upper) with
        | ok starts => rw [(hstarts starts).1 h₁]
        | error e =>
          cases h₂ : r.starts s₂.start (Stamp.ofInstant lower) (Stamp.ofInstant upper) with
          | ok starts => exact absurd (h₁.symm.trans ((hstarts starts).2 h₂)) nofun
          | error e' => rfl

end Series

namespace CacheKey

variable {s₁ s₂ : Series} {lower₁ upper₁ lower₂ upper₂ : Instant} {extra₁ extra₂ : List Stamp}
  {cancelled₁ cancelled₂ : List Instant}

/-- **When equal keys have equal expansions.**  Two expansions with the same key are the same exactly if
they show the same starts and last equally long or are empty.  If the events start at different times
of day, that leaves the empty expansion only.  If the rules have the same first start, then it is
enough that the durations are the same, which they are below `2 ^ 33` seconds. -/
theorem expand_eq_iff (h₁ : instantsOf extra₁ = .ok cancelled₁)
    (h₂ : instantsOf extra₂ = .ok cancelled₂)
    (hkey : CacheKey.of s₁ (Stamp.ofInstant lower₁) (Stamp.ofInstant upper₁) cancelled₁ =
      CacheKey.of s₂ (Stamp.ofInstant lower₂) (Stamp.ofInstant upper₂) cancelled₂) :
    (s₁.expandUtc lower₁ upper₁ extra₁ = s₂.expandUtc lower₂ upper₂ extra₂ ↔
      s₁.shown lower₁ upper₁ cancelled₁ = s₂.shown lower₂ upper₂ cancelled₂ ∧
        (s₁.shown lower₁ upper₁ cancelled₁ = [] ∨ s₁.duration = s₂.duration)) ∧
    (s₁.start.timeOfDay ≠ s₂.start.timeOfDay →
      s₁.expandUtc lower₁ upper₁ extra₁ = s₂.expandUtc lower₂ upper₂ extra₂ →
      s₁.expandUtc lower₁ upper₁ extra₁ = .ok []) ∧
    (s₁.firstStart = s₂.firstStart →
      s₁.duration = s₂.duration ∨
        s₁.duration < Binary64.exactMicros ∧ s₂.duration < Binary64.exactMicros →
      s₁.expandUtc lower₁ upper₁ extra₁ = s₂.expandUtc lower₂ upper₂ extra₂) := by
  obtain ⟨hid, rfl, rfl, hrule, hseconds, hcancelled⟩ := of_eq_iff.1 hkey
  have he₁ := s₁.expandUtc_eq_shown lower₁ upper₁ h₁
  have he₂ := s₂.expandUtc_eq_shown lower₁ upper₁ h₂
  have hiff : s₁.expandUtc lower₁ upper₁ extra₁ = s₂.expandUtc lower₁ upper₁ extra₂ ↔
      s₁.shown lower₁ upper₁ cancelled₁ = s₂.shown lower₁ upper₁ cancelled₂ ∧
        (s₁.shown lower₁ upper₁ cancelled₁ = [] ∨ s₁.duration = s₂.duration) := by
    rw [he₁, he₂, Except.ok.injEq]
    exact Series.filterMap_ofStart?_eq_iff hid (fun _ => Series.ends_of_mem_shown)
      fun _ => Series.ends_of_mem_shown
  refine ⟨hiff, ?_, ?_⟩
  · intro htime heq
    obtain ⟨hshown, -⟩ := hiff.1 heq
    have hnil : s₁.shown lower₁ upper₁ cancelled₁ = [] := by
      apply List.eq_nil_iff_forall_not_mem.2
      intro t ht
      have ht₁ := Series.timeOfDay_of_mem_shown ht
      rw [hshown] at ht
      exact htime (ht₁.symm.trans (Series.timeOfDay_of_mem_shown ht))
    rw [he₁, hnil]
    rfl
  · intro hfirst hduration
    have hd : s₁.duration = s₂.duration :=
      hduration.elim (fun h => h) fun h => Series.duration_eq_of_seconds hseconds h.1 h.2
    exact hiff.2 ⟨Series.shown_eq_of_firstStart hrule hfirst hd hcancelled, .inr hd⟩

/-- An hour on every day, from nine o'clock on. -/
def morningRun : Series where
  id := "run"
  start := Instant.ofDay 738885 32400000000 (by decide) (by decide)
  finish := Instant.ofDay 738885 36000000000 (by decide) (by decide)
  rule := "RRULE:FREQ=DAILY;INTERVAL=1"
  exceptions := []

/-- The same event, moved to the afternoon. -/
def afternoonRun : Series where
  id := "run"
  start := Instant.ofDay 738885 50400000000 (by decide) (by decide)
  finish := Instant.ofDay 738885 54000000000 (by decide) (by decide)
  rule := "RRULE:FREQ=DAILY;INTERVAL=1"
  exceptions := []

/-- An hour on Wednesdays, for an event on Monday. -/
def mondayClass : Series :=
  { morningRun with rule := "RRULE:FREQ=WEEKLY;INTERVAL=1;BYDAY=WE" }

/-- The same for an event on Tuesday. -/
def tuesdayClass : Series :=
  { mondayClass with
    start := Instant.ofDay 738886 32400000000 (by decide) (by decide)
    finish := Instant.ofDay 738886 36000000000 (by decide) (by decide) }

/-- The first and the last instant of the window: the first two days of 2024. -/
def twoDays : Instant × Instant :=
  (Instant.ofDate (Date.ofDay 738885 (by decide)), Instant.ofDate (Date.ofDay 738887 (by decide)))

/-- A week later, both classes have been held twice. -/
def twoWeeks : Instant × Instant :=
  (Instant.ofDate (Date.ofDay 738885 (by decide)), Instant.ofDate (Date.ofDay 738899 (by decide)))

theorem expand_eq_iff_classes :
    mondayClass.start ≠ tuesdayClass.start ∧
      (mondayClass.expandUtc twoWeeks.1 twoWeeks.2 []).map List.length = .ok 2 ∧
      mondayClass.expandUtc twoWeeks.1 twoWeeks.2 [] =
        tuesdayClass.expandUtc twoWeeks.1 twoWeeks.2 [] := by
  have hkey : CacheKey.of mondayClass (Stamp.ofInstant twoWeeks.1) (Stamp.ofInstant twoWeeks.2) [] =
      CacheKey.of tuesdayClass (Stamp.ofInstant twoWeeks.1) (Stamp.ofInstant twoWeeks.2) [] := by
    decide +kernel
  refine ⟨by decide +kernel, by decide +kernel, ?_⟩
  exact (expand_eq_iff rfl rfl hkey).2.2 (by decide +kernel) (.inl (by decide +kernel))

/-- **A moved event goes stale.**  The key does not change with the time of the event, so the cache
answers with the occurrences from before the move. -/
theorem stale_after_move :
    CacheKey.of morningRun (Stamp.ofInstant twoDays.1) (Stamp.ofInstant twoDays.2) [] =
        CacheKey.of afternoonRun (Stamp.ofInstant twoDays.1) (Stamp.ofInstant twoDays.2) [] ∧
      morningRun.expandUtc twoDays.1 twoDays.2 [] ≠ afternoonRun.expandUtc twoDays.1 twoDays.2 [] ∧
      (((ExpansionCache.ofConfig Config.default).expand (.int 0) morningRun
          (.stamp (Stamp.ofInstant twoDays.1)) (.stamp (Stamp.ofInstant twoDays.2)) []).2.expand
            (.int 0) afternoonRun (.stamp (Stamp.ofInstant twoDays.1))
            (.stamp (Stamp.ofInstant twoDays.2)) []).1.toOption =
        (morningRun.expandUtc twoDays.1 twoDays.2 []).toOption := by
  decide +kernel

end CacheKey

end Recurrence
