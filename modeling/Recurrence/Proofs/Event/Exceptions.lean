import Recurrence.Event.Split
import Recurrence.Proofs.Calendar.Instant

/-!
# Dividing the cancelled starts

Cancelled starts are texts, and dividing them at a cutoff keeps those that spell an instant, each in
the part in which the instant lies (`partitionExceptions_eq_filter`).  So they can be divided at two
cutoffs in either order, with the same three parts (`early_of_early`, `late_of_early`,
`late_of_late`).

Reading the texts gives the instants that they spell, and texts that spell none do no harm
(`readExceptions_of_inRange`); each part is read as the instants that lie in it
(`mem_spelledInstants_filter`).  Only an instant outside the calendar keeps the cancelled starts from
being read (`readExceptions_of_mem`).  So it is for cancelling one start more
(`excludeOccurrence_of_inRange`, `excludeOccurrence_of_mem`).
-/

namespace Recurrence

/-- Whether a text spells an instant before a cutoff. -/
def spellsBefore (cutoff : Instant) (s : String) : Bool :=
  match Instant.ofIso s with
  | .ok t => decide (t < cutoff)
  | .error _ => false

/-- Whether a text spells an instant from a cutoff on. -/
def spellsFrom (cutoff : Instant) (s : String) : Bool :=
  match Instant.ofIso s with
  | .ok t => decide (cutoff ≤ t)
  | .error _ => false

theorem spellsBefore_eq_true_iff {cutoff : Instant} {s : String} :
    spellsBefore cutoff s = true ↔ ∃ t, Instant.ofIso s = .ok t ∧ t < cutoff := by
  unfold spellsBefore
  cases Instant.ofIso s <;> simp

theorem spellsFrom_eq_true_iff {cutoff : Instant} {s : String} :
    spellsFrom cutoff s = true ↔ ∃ t, Instant.ofIso s = .ok t ∧ cutoff ≤ t := by
  unfold spellsFrom
  cases Instant.ofIso s <;> simp

/-- **Dividing keeps the texts that spell an instant**, in their order. -/
theorem partitionExceptions_eq_filter (cutoff : Instant) (texts : List String) :
    partitionExceptions cutoff texts =
      (texts.filter (spellsBefore cutoff), texts.filter (spellsFrom cutoff)) := by
  induction texts with
  | nil => rfl
  | cons s texts ih =>
    cases ht : Instant.ofIso s with
    | error e =>
      have hbefore : ¬spellsBefore cutoff s = true := by simp [spellsBefore, ht]
      have hfrom : ¬spellsFrom cutoff s = true := by simp [spellsFrom, ht]
      rw [List.filter_cons_of_neg hbefore, List.filter_cons_of_neg hfrom, ← ih]
      simp only [partitionExceptions, ht]
    | ok t =>
      by_cases hle : cutoff ≤ t
      · have hbefore : ¬spellsBefore cutoff s = true := by
          simp [spellsBefore, ht, Instant.not_lt.2 hle]
        have hfrom : spellsFrom cutoff s = true := by simp [spellsFrom, ht, hle]
        rw [List.filter_cons_of_neg hbefore, List.filter_cons_of_pos hfrom]
        simp only [partitionExceptions, ht, if_pos hle, ih]
      · have hbefore : spellsBefore cutoff s = true := by
          simp [spellsBefore, ht, Instant.not_le.1 hle]
        have hfrom : ¬spellsFrom cutoff s = true := by simp [spellsFrom, ht, hle]
        rw [List.filter_cons_of_pos hbefore, List.filter_cons_of_neg hfrom]
        simp only [partitionExceptions, ht, if_neg hle, ih]

theorem mem_of_mem_partition {cutoff : Instant} {texts : List String} {s : String}
    (h : s ∈ (partitionExceptions cutoff texts).1 ∨ s ∈ (partitionExceptions cutoff texts).2) :
    s ∈ texts := by
  rw [partitionExceptions_eq_filter] at h
  rcases h with h | h
  · exact (List.mem_filter.1 h).1
  · exact (List.mem_filter.1 h).1

/-! ## Dividing at two cutoffs -/

section TwoCutoffs

variable {c₁ c₂ : Instant} (h : c₁ ≤ c₂) (texts : List String)

include h

theorem early_of_early : (partitionExceptions c₁ (partitionExceptions c₂ texts).1).1 =
    (partitionExceptions c₁ texts).1 := by
  simp only [partitionExceptions_eq_filter, List.filter_filter]
  refine List.filter_congr fun s _ => ?_
  unfold spellsBefore
  cases Instant.ofIso s with
  | error e => rfl
  | ok t =>
    have hle : t < c₁ → t < c₂ := fun ht => Nat.lt_of_lt_of_le ht h
    simpa using hle

omit h in
/-- The middle part is the same in either order. -/
theorem late_of_early : (partitionExceptions c₁ (partitionExceptions c₂ texts).1).2 =
    (partitionExceptions c₂ (partitionExceptions c₁ texts).2).1 := by
  simp only [partitionExceptions_eq_filter, List.filter_filter, Bool.and_comm]

theorem late_of_late : (partitionExceptions c₂ (partitionExceptions c₁ texts).2).2 =
    (partitionExceptions c₂ texts).2 := by
  simp only [partitionExceptions_eq_filter, List.filter_filter]
  refine List.filter_congr fun s _ => ?_
  unfold spellsFrom
  cases Instant.ofIso s with
  | error e => rfl
  | ok t =>
    have hle : c₂ ≤ t → c₁ ≤ t := fun ht => Nat.le_trans h ht
    simpa using hle

end TwoCutoffs

/-! ## Reading them -/

/-- The instants that texts spell, without regard to texts that spell none. -/
def spelledInstants (texts : List String) : List Instant :=
  texts.filterMap fun s => (Instant.ofIso s).toOption

theorem mem_spelledInstants {texts : List String} {t : Instant} :
    t ∈ spelledInstants texts ↔ ∃ s ∈ texts, Instant.ofIso s = .ok t := by
  have hspells : ∀ s, (Instant.ofIso s).toOption = some t ↔ Instant.ofIso s = .ok t := by
    intro s
    cases Instant.ofIso s <;> simp [Except.toOption]
  simp only [spelledInstants, List.mem_filterMap, hspells]

/-- **Texts that are kept for their instants** spell those of the instants that are kept. -/
theorem mem_spelledInstants_filter {p : String → Bool} {Q : Instant → Prop} {texts : List String}
    {t : Instant} (hp : ∀ s, p s = true ↔ ∃ u, Instant.ofIso s = .ok u ∧ Q u) :
    t ∈ spelledInstants (texts.filter p) ↔ t ∈ spelledInstants texts ∧ Q t := by
  rw [mem_spelledInstants, mem_spelledInstants]
  constructor
  · rintro ⟨s, hs, ht⟩
    obtain ⟨hs, hps⟩ := List.mem_filter.1 hs
    obtain ⟨u, hu, hQ⟩ := (hp s).1 hps
    obtain rfl : t = u := Except.ok.inj (ht.symm.trans hu)
    exact ⟨⟨s, hs, ht⟩, hQ⟩
  · rintro ⟨⟨s, hs, ht⟩, hQ⟩
    exact ⟨s, List.mem_filter.2 ⟨hs, (hp s).2 ⟨t, ht, hQ⟩⟩, ht⟩

theorem spelledInstants_cons {s : String} {t : Instant} (h : Instant.ofIso s = .ok t)
    (texts : List String) : spelledInstants (s :: texts) = t :: spelledInstants texts := by
  simp [spelledInstants, h, Except.toOption]

theorem spelledInstants_cons_of_error {s : String} {e : TimeError} (h : Instant.ofIso s = .error e)
    (texts : List String) : spelledInstants (s :: texts) = spelledInstants texts := by
  simp [spelledInstants, h, Except.toOption]

/-- **Texts are read unless one spells an instant outside the calendar.** -/
theorem readExceptions_of_inRange {texts : List String}
    (h : ∀ s ∈ texts, Instant.ofIso s ≠ .error .outOfRange) :
    readExceptions texts = .ok (spelledInstants texts) := by
  induction texts with
  | nil => rfl
  | cons s texts ih =>
    have hread := ih fun u hu => h u (List.mem_cons_of_mem s hu)
    cases ht : Instant.ofIso s with
    | ok t =>
      rw [spelledInstants_cons ht]
      simp only [readExceptions, ht, hread]
      rfl
    | error e =>
      rw [spelledInstants_cons_of_error ht]
      cases e with
      | malformed => simp only [readExceptions, ht, hread]
      | outOfRange => exact absurd ht (h s List.mem_cons_self)

theorem inRange_filter {texts : List String} (h : ∀ s ∈ texts, Instant.ofIso s ≠ .error .outOfRange)
    (p : String → Bool) : ∀ s ∈ texts.filter p, Instant.ofIso s ≠ .error .outOfRange :=
  fun s hs => h s (List.mem_filter.1 hs).1

theorem exists_readExceptions {texts : List String}
    (h : ∀ s ∈ texts, Instant.ofIso s ≠ .error .outOfRange) :
    ∃ cancelled, readExceptions texts = .ok cancelled :=
  ⟨_, readExceptions_of_inRange h⟩

/-- **One instant outside the calendar spoils all.** -/
theorem readExceptions_of_mem {texts : List String} {s : String} (hs : s ∈ texts)
    (h : Instant.ofIso s = .error .outOfRange) : readExceptions texts = .error .outOfRange := by
  induction texts with
  | nil => exact absurd hs List.not_mem_nil
  | cons u texts ih =>
    by_cases hsu : s = u
    · simp only [readExceptions, ← hsu, h]
    · have hrest := ih ((List.mem_cons.1 hs).resolve_left hsu)
      cases hu : Instant.ofIso u with
      | ok t =>
        simp only [readExceptions, hu, hrest]
        rfl
      | error e => cases e <;> simp only [readExceptions, hu, hrest]

/-! ## One more -/

/-- The texts with one for another instant, unless one of them spells it. -/
def withCancelled (texts : List String) (t : Instant) : List String :=
  if t ∈ spelledInstants texts then texts else texts ++ [t.toZulu]

section Exclude

variable {texts : List String} {start : Stamp} {t : Instant} (hstart : start.utc = .ok t)

include hstart

/-- **Cancelling a start adds it to the texts**, if they can be read. -/
theorem excludeOccurrence_of_inRange (h : ∀ s ∈ texts, Instant.ofIso s ≠ .error .outOfRange) :
    excludeOccurrence texts start = .ok (withCancelled texts t) := by
  unfold excludeOccurrence withCancelled
  rw [hstart, readExceptions_of_inRange h]
  show Except.ok _ = _
  simp only [List.contains_iff_mem]

theorem excludeOccurrence_of_mem {s : String} (hs : s ∈ texts)
    (h : Instant.ofIso s = .error .outOfRange) :
    excludeOccurrence texts start = .error .outOfRange := by
  unfold excludeOccurrence
  rw [hstart, readExceptions_of_mem hs h]
  rfl

end Exclude

end Recurrence
