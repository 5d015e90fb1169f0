import Mathlib.Data.List.Forall2
import Mathlib.Data.List.Lex
import Mathlib.Data.List.Pairwise
import Recurrence.Proofs.Text.Numeral
import Recurrence.Timestamp.Compact

/-!
# Which texts are compact time stamps

A text can often be divided among the fields of a time stamp in several ways, and `Compact.read?`
commits itself to the first reading before it looks whether that one uses up the text.

A reading takes one piece of the text for each field (`mem_readings`), and the first one is the
*widest*, in which no earlier piece could be longer (`head?_readings`).  The pieces of one field
differ by no more than one character (`Lawful.elastic`), so that a reading that stops short of the
end cannot fall behind one that does not without meeting it; from there on it could go on like the
other, against its being the widest (`rest_eq_nil`).  Committing to the first reading therefore loses
nothing: it is the widest division of the whole text, as soon as there is a division
(`head?_readings_eq_some_iff`).

`read?_accepts` draws the conclusion for the two forms of a stamp, and tells which texts are read
beyond the documented ones with all fields in full width: those that are too short, and those with a
blank in the place of a leading zero.
-/

namespace Recurrence

open Text

namespace Compact

/-! ## Pieces of a text -/

/-- The number that the digits spell in base ten; any other character counts as a zero. -/
def number (w : List Char) : Nat := w.foldl (fun n c => 10 * n + (digitValue? c).getD 0) 0

/-- The field can be read off the text so that nothing is left. -/
def Spells (f : Field) (w : List Char) : Prop := ∃ v, (v, []) ∈ f w

/-- One piece of the text for each field. -/
def Divides (fs : List Field) (ws : List (List Char)) (s : List Char) : Prop :=
  List.Forall₂ Spells fs ws ∧ ws.flatten = s

def widths (ws : List (List Char)) : List Nat := ws.map List.length

/-- The first pieces decide, or the others if those are of one length. -/
theorem widths_cons_le_iff {w w' : List Char} {ws ws' : List (List Char)} :
    widths (w' :: ws') ≤ widths (w :: ws) ↔
      w'.length < w.length ∨ w'.length = w.length ∧ widths ws' ≤ widths ws := by
  have hlt : widths (w' :: ws') < widths (w :: ws) ↔
      w'.length < w.length ∨ w'.length = w.length ∧ widths ws' < widths ws :=
    List.cons_lt_cons_iff
  have heq : widths (w' :: ws') = widths (w :: ws) ↔
      w'.length = w.length ∧ widths ws' = widths ws := List.cons_eq_cons
  rw [le_iff_lt_or_eq, le_iff_lt_or_eq, hlt, heq, or_assoc, ← and_or_left]

/-- A division in which the pieces are as long as possible, the earlier ones before the later. -/
def Widest (fs : List Field) (ws : List (List Char)) (s : List Char) : Prop :=
  Divides fs ws s ∧ ∀ ws', Divides fs ws' s → widths ws' ≤ widths ws

theorem Widest.unique {fs : List Field} {ws ws' : List (List Char)} {s : List Char}
    (h : Widest fs ws s) (h' : Widest fs ws' s) : ws = ws' :=
  List.eq_iff_flatten_eq.2 ⟨h.1.2.trans h'.1.2.symm, le_antisymm (h'.2 ws h.1) (h.2 ws' h'.1)⟩

/-! ## Fields -/

/-- A field is read off the front, whatever follows: the worth of its digits, the longer pieces
first, and no two pieces differ by more than one character. -/
structure Lawful (f : Field) : Prop where
  mem_iff : ∀ s v r, (v, r) ∈ f s ↔ ∃ w, s = w ++ r ∧ (v, []) ∈ f w
  value : ∀ w v, (v, []) ∈ f w → v = number w
  widerFirst : ∀ s, (f s).Pairwise fun x y => x.2.length ≤ y.2.length
  elastic : ∀ w w', Spells f w → Spells f w' → w'.length ≤ w.length + 1

/-- The readings of several fields, one after the other. -/
def readings : List Field → List Char → List (List Nat × List Char)
  | [], s => [([], s)]
  | f :: fs, s => (f s).flatMap fun r => (readings fs r.2).map fun q => (r.1 :: q.1, q.2)

/-- A reading is a piece of the text for each field. -/
theorem mem_readings {fs : List Field} (hfs : ∀ f ∈ fs, Lawful f) {s r : List Char}
    {vs : List Nat} : (vs, r) ∈ readings fs s ↔
      ∃ ws, List.Forall₂ Spells fs ws ∧ s = ws.flatten ++ r ∧ vs = ws.map number := by
  induction fs generalizing s vs with
  | nil =>
    simp only [readings, List.mem_singleton, Prod.mk.injEq, List.forall₂_nil_left_iff,
      exists_eq_left, List.flatten_nil, List.nil_append, List.map_nil]
    exact ⟨fun ⟨hv, hr⟩ => ⟨hr.symm, hv⟩, fun ⟨hr, hv⟩ => ⟨hv, hr.symm⟩⟩
  | cons f fs ih =>
    have hf : Lawful f := hfs f List.mem_cons_self
    have ih := @ih fun g hg => hfs g (List.mem_cons_of_mem f hg)
    simp only [readings, List.mem_flatMap, List.mem_map, Prod.mk.injEq, Prod.exists]
    constructor
    · rintro ⟨v, t, hv, us, r', hus, rfl, rfl⟩
      obtain ⟨w, rfl, hw⟩ := (hf.mem_iff s v t).1 hv
      obtain ⟨ws, hws, rfl, rfl⟩ := ih.1 hus
      refine ⟨w :: ws, hws.cons ⟨v, hw⟩, ?_, ?_⟩
      · rw [List.flatten_cons, List.append_assoc]
      · rw [List.map_cons, ← hf.value w v hw]
    · rintro ⟨ws', hws', rfl, rfl⟩
      obtain ⟨w, ws, ⟨v, hw⟩, hws, rfl⟩ := List.forall₂_cons_left_iff.1 hws'
      refine ⟨v, ws.flatten ++ r, (hf.mem_iff _ _ _).2 ⟨w, ?_, hw⟩, ws.map number, r,
        ih.2 ⟨ws, hws, rfl, rfl⟩, ?_, rfl⟩
      · rw [List.flatten_cons, List.append_assoc]
      · rw [List.map_cons, ← hf.value w v hw]

/-- The first reading takes the first reading of its first field that can be completed. -/
theorem head?_readings_cons {f : Field} {fs : List Field} {s r : List Char} {vs : List Nat}
    (h : (readings (f :: fs) s).head? = some (vs, r)) :
    ∃ before v t after us, f s = before ++ (v, t) :: after ∧
      (∀ x ∈ before, readings fs x.2 = []) ∧ (readings fs t).head? = some (us, r) ∧
        vs = v :: us := by
  rw [readings, List.head?_flatMap, List.findSome?_eq_some_iff] at h
  obtain ⟨before, ⟨v, t⟩, after, hsplit, hfirst, hbefore⟩ := h
  rw [List.head?_map, Option.map_eq_some_iff] at hfirst
  obtain ⟨⟨us, r'⟩, hus, heq⟩ := hfirst
  obtain ⟨hvs, rfl⟩ := Prod.mk.inj heq
  refine ⟨before, v, t, after, us, hsplit, fun x hx => ?_, hus, hvs.symm⟩
  simpa only [List.head?_map, Option.map_eq_none_iff, List.head?_eq_none_iff] using hbefore x hx

/-- The first reading is the widest one. -/
theorem head?_readings {fs : List Field} (hfs : ∀ f ∈ fs, Lawful f) {s r : List Char}
    {vs : List Nat} (h : (readings fs s).head? = some (vs, r)) :
    ∃ ws, List.Forall₂ Spells fs ws ∧ s = ws.flatten ++ r ∧ vs = ws.map number ∧
      ∀ ws', List.Forall₂ Spells fs ws' → ws'.flatten <+: s → widths ws' ≤ widths ws := by
  induction fs generalizing s vs with
  | nil =>
    obtain ⟨rfl, rfl⟩ : [] = vs ∧ s = r := by simpa [readings] using h
    refine ⟨[], .nil, rfl, rfl, fun ws' hws' _ => ?_⟩
    rw [List.forall₂_nil_left_iff.1 hws']
  | cons f fs ih =>
    have hf : Lawful f := hfs f List.mem_cons_self
    have hfs' : ∀ g ∈ fs, Lawful g := fun g hg => hfs g (List.mem_cons_of_mem f hg)
    obtain ⟨before, v, t, after, us, hsplit, hbefore, hus, rfl⟩ := head?_readings_cons h
    obtain ⟨ws, hws, rfl, rfl, hwidest⟩ := ih hfs' hus
    have hmem : (v, ws.flatten ++ r) ∈ f s := by
      rw [hsplit]
      exact List.mem_append_right before List.mem_cons_self
    obtain ⟨w, rfl, hw⟩ := (hf.mem_iff s v _).1 hmem
    refine ⟨w :: ws, hws.cons ⟨v, hw⟩, ?_, ?_, ?_⟩
    · rw [List.flatten_cons, List.append_assoc]
    · rw [List.map_cons, ← hf.value w v hw]
    intro ws'' hws'' hprefix
    obtain ⟨w', ws', ⟨v', hw'⟩, hws', rfl⟩ := List.forall₂_cons_left_iff.1 hws''
    obtain ⟨r', hr'⟩ := hprefix
    rw [List.flatten_cons, List.append_assoc] at hr'
    have hmem' : (v', ws'.flatten ++ r') ∈ f (w ++ (ws.flatten ++ r)) :=
      (hf.mem_iff _ _ _).2 ⟨w', hr'.symm, hw'⟩
    have hsorted := hf.widerFirst (w ++ (ws.flatten ++ r))
    have hlength : w'.length + (ws'.flatten ++ r').length =
        w.length + (ws.flatten ++ r).length := by
      rw [← List.length_append, ← List.length_append, hr']
    rw [hsplit] at hmem' hsorted
    have hle : w'.length ≤ w.length := by
      rcases List.mem_append.1 hmem' with hearlier | hlater
      · -- a reading of the field before the chosen one cannot be completed
        have hread : (ws'.map number, r') ∈ readings fs (ws'.flatten ++ r') :=
          (mem_readings hfs').2 ⟨ws', hws', rfl, rfl⟩
        exact absurd (hbefore _ hearlier ▸ hread) List.not_mem_nil
      rcases List.mem_cons.1 hlater with hsame | hlater
      · rw [(Prod.mk.inj hsame).2] at hlength
        omega
      · have := (List.pairwise_cons.1 (List.pairwise_append.1 hsorted).2.1).1 _ hlater
        simp only at this
        omega
    rw [widths_cons_le_iff]
    rcases Nat.lt_or_eq_of_le hle with hlt | heq
    · exact .inl hlt
    · exact .inr ⟨heq, hwidest ws' hws' ⟨r', (List.append_inj hr' heq).2⟩⟩

/-- The widest reading uses up a text that can be used up.  The other division may start up to `u`
earlier; where the pieces of the widest reading come to lie behind those of the other one, `u` is
empty again. -/
theorem rest_eq_nil {fs : List Field} (hfs : ∀ f ∈ fs, Lawful f) {ws vs : List (List Char)}
    {u r : List Char} (hws : List.Forall₂ Spells fs ws) (hvs : List.Forall₂ Spells fs vs)
    (h : vs.flatten = u ++ (ws.flatten ++ r))
    (hwidest : ∀ ws', List.Forall₂ Spells fs ws' → ws'.flatten <+: ws.flatten ++ r →
      widths ws' ≤ widths ws) : r = [] := by
  induction fs generalizing ws vs u with
  | nil =>
    rw [List.forall₂_nil_left_iff.1 hws, List.forall₂_nil_left_iff.1 hvs] at h
    simp only [List.flatten_nil, List.nil_append] at h
    exact (List.append_eq_nil_iff.1 h.symm).2
  | cons f fs ih =>
    obtain ⟨w, ws, hw, hws', rfl⟩ := List.forall₂_cons_left_iff.1 hws
    obtain ⟨v, vs, hv, hvs', rfl⟩ := List.forall₂_cons_left_iff.1 hvs
    have hlength : v.length ≤ (u ++ w).length := by
      cases u with
      | nil =>
        have hle := hwidest (v :: vs) hvs ⟨[], by rw [List.append_nil, h, List.nil_append]⟩
        rw [List.nil_append]
        rcases widths_cons_le_iff.1 hle with hlt | ⟨heq, -⟩
        · exact Nat.le_of_lt hlt
        · exact Nat.le_of_eq heq
      | cons c u =>
        have := (hfs f List.mem_cons_self).elastic w v hw hv
        rw [List.length_append, List.length_cons]
        omega
    rw [List.flatten_cons, List.flatten_cons, List.append_assoc, ← List.append_assoc u] at h
    obtain ⟨u', hu'⟩ : v <+: u ++ w :=
      List.prefix_of_prefix_length_le ⟨vs.flatten, h⟩ (List.prefix_append _ _) hlength
    rw [← hu', List.append_assoc, List.append_cancel_left_eq] at h
    refine ih (fun g hg => hfs g (List.mem_cons_of_mem f hg)) hws' hvs' h fun ws'' hws'' hprefix => ?_
    have hle := hwidest (w :: ws'') (hws''.cons hw) (by
      rw [List.flatten_cons, List.flatten_cons, List.append_assoc]
      exact (List.prefix_append_right_inj w).2 hprefix)
    exact (widths_cons_le_iff.1 hle).elim (fun hlt => absurd hlt (Nat.lt_irrefl _)) And.right

/-- **The first reading is the widest division of the text, as soon as there is a division.** -/
theorem head?_readings_eq_some_iff {fs : List Field} (hfs : ∀ f ∈ fs, Lawful f) {s : List Char}
    {vs : List Nat} : (readings fs s).head? = some (vs, []) ↔
      ∃ ws, Widest fs ws s ∧ vs = ws.map number := by
  constructor
  · intro h
    obtain ⟨ws, hws, hs, hvs, hwidest⟩ := head?_readings hfs h
    rw [List.append_nil] at hs
    refine ⟨ws, ⟨⟨hws, hs.symm⟩, fun ws' hws' => hwidest ws' hws'.1 ?_⟩, hvs⟩
    exact ⟨[], (List.append_nil _).trans hws'.2⟩
  · rintro ⟨ws, hws, rfl⟩
    have hmem : (ws.map number, []) ∈ readings fs s :=
      (mem_readings hfs).2 ⟨ws, hws.1.1, by rw [hws.1.2, List.append_nil], rfl⟩
    obtain ⟨⟨vs, r⟩, hhead⟩ := Option.isSome_iff_exists.1
      (List.isSome_head?.2 (List.ne_nil_of_mem hmem))
    obtain ⟨ws', hws', rfl, rfl, hwidest⟩ := head?_readings hfs hhead
    obtain rfl : r = [] := rest_eq_nil hfs hws' hws.1.1 (u := []) hws.1.2 hwidest
    have hunique : ws = ws' := by
      refine hws.unique ⟨⟨hws', (List.append_nil _).symm⟩, fun ws'' hws'' => ?_⟩
      exact hwidest ws'' hws''.1 (hws''.2 ▸ List.prefix_refl _)
    rw [hunique, hhead]

/-! ## The fields of a time stamp -/

/-- What a field reads off the front does not depend on what follows. -/
def Local (f : Field) : Prop := ∀ s v r, (v, r) ∈ f s ↔ ∃ w, s = w ++ r ∧ (v, []) ∈ f w

/-- Digits, or a blank in the place of a zero, with their worth. -/
def IsNumeral (w : List Char) (v : Nat) : Prop :=
  v = number w ∧ ∀ c ∈ w, isDigit c = true ∨ c = ' '

/-- A field of exactly `k` characters. -/
structure OfWidth (k : Nat) (f : Field) : Prop where
  isLocal : Local f
  piece : ∀ w v, (v, []) ∈ f w → w.length = k ∧ IsNumeral w v

/-- A field of one or two characters, two in preference to one. -/
structure Narrow (f : Field) : Prop where
  isLocal : Local f
  piece : ∀ w v, (v, []) ∈ f w → (w.length = 1 ∨ w.length = 2) ∧ IsNumeral w v
  widerFirst : ∀ s, (f s).Pairwise fun x y => x.2.length ≤ y.2.length

theorem OfWidth.length_eq {k : Nat} {f : Field} (h : OfWidth k f) {s : List Char}
    {x : Nat × List Char} (hx : x ∈ f s) : s.length = k + x.2.length := by
  obtain ⟨w, rfl, hw⟩ := (h.isLocal s x.1 x.2).1 hx
  rw [List.length_append, (h.piece w x.1 hw).1]

theorem OfWidth.pairwise {k : Nat} {f : Field} (h : OfWidth k f) (s : List Char) :
    (f s).Pairwise fun x y => x.2.length ≤ y.2.length := by
  refine List.pairwise_of_forall_mem_list fun x hx y hy => ?_
  have := h.length_eq hx
  have := h.length_eq hy
  omega

theorem OfWidth.lawful {k : Nat} {f : Field} (h : OfWidth k f) : Lawful f where
  mem_iff := h.isLocal
  value w v hv := (h.piece w v hv).2.1
  widerFirst := h.pairwise
  elastic := by
    rintro w w' ⟨v, hv⟩ ⟨v', hv'⟩
    rw [(h.piece w v hv).1, (h.piece w' v' hv').1]
    exact Nat.le_succ k

theorem Narrow.lawful {f : Field} (h : Narrow f) : Lawful f where
  mem_iff := h.isLocal
  value w v hv := (h.piece w v hv).2.1
  widerFirst := h.widerFirst
  elastic := by
    rintro w w' ⟨v, hv⟩ ⟨v', hv'⟩
    have := (h.piece w v hv).1
    have := (h.piece w' v' hv').1
    omega

theorem Local.of_pieces {f : Field} {P : List Char → Nat → Prop}
    (h : ∀ s v r, (v, r) ∈ f s ↔ ∃ w, s = w ++ r ∧ P w v) : Local f := by
  intro s v r
  have hpiece : ∀ w, (v, []) ∈ f w ↔ P w v := by
    intro w
    rw [h]
    simp only [List.append_nil]
    exact ⟨fun ⟨_, hw, hv⟩ => hw ▸ hv, fun hv => ⟨w, rfl, hv⟩⟩
  rw [h]
  simp only [hpiece]

theorem mem_firstOf {fields : List Field} {s r : List Char} {v : Nat} :
    (v, r) ∈ firstOf fields s ↔ ∃ f ∈ fields, (v, r) ∈ f s := List.mem_flatMap

theorem Local.firstOf {fields : List Field} (h : ∀ f ∈ fields, Local f) :
    Local (firstOf fields) := by
  intro s v r
  simp only [mem_firstOf]
  constructor
  · rintro ⟨f, hf, hv⟩
    obtain ⟨w, hs, hw⟩ := (h f hf s v r).1 hv
    exact ⟨w, hs, f, hf, hw⟩
  · rintro ⟨w, hs, f, hf, hw⟩
    exact ⟨f, hf, (h f hf s v r).2 ⟨w, hs, hw⟩⟩

/-- Two characters in preference to one. -/
theorem narrow_firstOf (wide : List Field) {f : Field} (hwide : ∀ g ∈ wide, OfWidth 2 g)
    (hf : OfWidth 1 f) : Narrow (firstOf (wide ++ [f])) where
  isLocal := by
    refine Local.firstOf fun g hg => ?_
    rcases List.mem_append.1 hg with hg | hg
    · exact (hwide g hg).isLocal
    · rw [List.mem_singleton.1 hg]
      exact hf.isLocal
  piece w v hv := by
    obtain ⟨g, hg, hv⟩ := mem_firstOf.1 hv
    rcases List.mem_append.1 hg with hg | hg
    · exact ((hwide g hg).piece w v hv).imp_left Or.inr
    · rw [List.mem_singleton.1 hg] at hv
      exact (hf.piece w v hv).imp_left Or.inl
  widerFirst s := by
    rw [firstOf, List.flatMap_append, List.flatMap_singleton]
    refine List.pairwise_append.2 ⟨List.pairwise_of_forall_mem_list ?_, hf.pairwise s, ?_⟩
    · intro x hx y hy
      obtain ⟨g, hg, hx⟩ := List.mem_flatMap.1 hx
      obtain ⟨g', hg', hy⟩ := List.mem_flatMap.1 hy
      have := (hwide g hg).length_eq hx
      have := (hwide g' hg').length_eq hy
      omega
    · intro x hx y hy
      obtain ⟨g, hg, hx⟩ := List.mem_flatMap.1 hx
      have := (hwide g hg).length_eq hx
      have := hf.length_eq hy
      omega

/-- Characters that the function takes are digits of that worth. -/
def TakesDigits (units : Char → Option Nat) : Prop := ∀ c x, units c = some x → digitValue? c = some x

theorem takesDigits_digitValue : TakesDigits digitValue? := fun _ _ h => h

theorem takesDigits_plain {lo hi : Nat} (hhi : hi ≤ 9) : TakesDigits (plain lo hi) := by
  intro c x h
  unfold plain at h
  split at h
  · rename_i hc
    rw [digitValue?_of_digit (by omega), h]
  · exact absurd h (by simp)

theorem isDigit_of_digitValue? {c : Char} {x : Nat} (h : digitValue? c = some x) :
    isDigit c = true := by
  rw [isDigit, h]
  rfl

theorem mem_pair {tens units : Char → Option Nat} {s r : List Char} {v : Nat} :
    (v, r) ∈ pair tens units s ↔ ∃ w, s = w ++ r ∧
      ∃ a b x y, w = [a, b] ∧ tens a = some x ∧ units b = some y ∧ v = 10 * x + y := by
  constructor
  · intro h
    unfold pair at h
    split at h
    · rename_i a b rest
      split at h
      · rename_i x y hx hy
        obtain ⟨rfl, rfl⟩ := Prod.mk.inj (List.mem_singleton.1 h)
        exact ⟨[a, b], rfl, a, b, x, y, rfl, hx, hy, rfl⟩
      · exact absurd h List.not_mem_nil
    · exact absurd h List.not_mem_nil
  · rintro ⟨_, rfl, a, b, x, y, rfl, hx, hy, rfl⟩
    simp only [pair, List.cons_append, List.nil_append, hx, hy, List.mem_singleton]

theorem mem_single {units : Char → Option Nat} {s r : List Char} {v : Nat} :
    (v, r) ∈ single units s ↔ ∃ w, s = w ++ r ∧ ∃ a, w = [a] ∧ units a = some v := by
  constructor
  · intro h
    unfold single at h
    split at h
    · rename_i a rest
      split at h
      · rename_i x hx
        obtain ⟨rfl, rfl⟩ := Prod.mk.inj (List.mem_singleton.1 h)
        exact ⟨[a], rfl, a, rfl, hx⟩
      · exact absurd h List.not_mem_nil
    · exact absurd h List.not_mem_nil
  · rintro ⟨_, rfl, a, rfl, ha⟩
    simp only [single, List.cons_append, List.nil_append, ha, List.mem_singleton]

theorem mem_blankSingle {units : Char → Option Nat} {s r : List Char} {v : Nat} :
    (v, r) ∈ blankSingle units s ↔ ∃ w, s = w ++ r ∧ ∃ a, w = [' ', a] ∧ units a = some v := by
  constructor
  · intro h
    unfold blankSingle at h
    split at h
    · obtain ⟨_, rfl, a, rfl, ha⟩ := mem_single.1 h
      exact ⟨[' ', a], rfl, a, rfl, ha⟩
    · exact absurd h List.not_mem_nil
  · rintro ⟨_, rfl, a, rfl, ha⟩
    exact mem_single.2 ⟨[a], rfl, a, rfl, ha⟩

theorem ofWidth_pair {tens units : Char → Option Nat}
    (htens : TakesDigits tens) (hunits : TakesDigits units) : OfWidth 2 (pair tens units) where
  isLocal := Local.of_pieces fun _ _ _ => mem_pair
  piece w v hv := by
    obtain ⟨_, heq, a, b, x, y, rfl, hx, hy, rfl⟩ := mem_pair.1 hv
    obtain rfl : w = [a, b] := by rw [heq, List.append_nil]
    have hx := htens a x hx
    have hy := hunits b y hy
    refine ⟨rfl, by simp [number, hx, hy], ?_⟩
    simp [isDigit_of_digitValue? hx, isDigit_of_digitValue? hy]

theorem ofWidth_single {units : Char → Option Nat} (hunits : TakesDigits units) :
    OfWidth 1 (single units) where
  isLocal := Local.of_pieces fun _ _ _ => mem_single
  piece w v hv := by
    obtain ⟨_, heq, a, rfl, ha⟩ := mem_single.1 hv
    obtain rfl : w = [a] := by rw [heq, List.append_nil]
    have ha := hunits a v ha
    exact ⟨rfl, by simp [number, ha], by simp [isDigit_of_digitValue? ha]⟩

theorem ofWidth_blankSingle {units : Char → Option Nat} (hunits : TakesDigits units) :
    OfWidth 2 (blankSingle units) where
  isLocal := Local.of_pieces fun _ _ _ => mem_blankSingle
  piece w v hv := by
    obtain ⟨_, heq, a, rfl, ha⟩ := mem_blankSingle.1 hv
    obtain rfl : w = [' ', a] := by rw [heq, List.append_nil]
    have ha := hunits a v ha
    have hblank : digitValue? ' ' = none := by decide
    exact ⟨rfl, by simp [number, ha, hblank], by simp [isDigit_of_digitValue? ha]⟩

theorem mem_year {s r : List Char} {v : Nat} : (v, r) ∈ year s ↔ ∃ ds, s = ds ++ r ∧
    ∃ a b c d w x y z, ds = [a, b, c, d] ∧ digitValue? a = some w ∧ digitValue? b = some x ∧
      digitValue? c = some y ∧ digitValue? d = some z ∧ v = 1000 * w + 100 * x + 10 * y + z := by
  constructor
  · intro h
    unfold year at h
    split at h
    · rename_i a b c d rest
      split at h
      · rename_i w x y z hw hx hy hz
        obtain ⟨rfl, rfl⟩ := Prod.mk.inj (List.mem_singleton.1 h)
        exact ⟨[a, b, c, d], rfl, a, b, c, d, w, x, y, z, rfl, hw, hx, hy, hz, rfl⟩
      · exact absurd h List.not_mem_nil
    · exact absurd h List.not_mem_nil
  · rintro ⟨_, rfl, a, b, c, d, w, x, y, z, rfl, hw, hx, hy, hz, rfl⟩
    simp only [year, List.cons_append, List.nil_append, hw, hx, hy, hz, List.mem_singleton]

theorem ofWidth_year : OfWidth 4 year where
  isLocal := Local.of_pieces fun _ _ _ => mem_year
  piece ds v hv := by
    obtain ⟨_, heq, a, b, c, d, w, x, y, z, rfl, hw, hx, hy, hz, rfl⟩ := mem_year.1 hv
    obtain rfl : ds = [a, b, c, d] := by rw [heq, List.append_nil]
    refine ⟨rfl, ?_, ?_⟩
    · simp only [number, List.foldl_cons, List.foldl_nil, hw, hx, hy, hz, Option.getD_some]
      omega
    · simp [isDigit_of_digitValue? hw, isDigit_of_digitValue? hx, isDigit_of_digitValue? hy,
        isDigit_of_digitValue? hz]

/-- A field of two digits, in one of two ways, or of a single digit. -/
theorem narrow_pairs {tens units tens' units' digit : Char → Option Nat} (htens : TakesDigits tens)
    (hunits : TakesDigits units) (htens' : TakesDigits tens') (hunits' : TakesDigits units')
    (hdigit : TakesDigits digit) :
    Narrow (firstOf [pair tens units, pair tens' units', single digit]) := by
  refine narrow_firstOf [_, _] ?_ (ofWidth_single hdigit)
  exact List.forall_mem_cons.2 ⟨ofWidth_pair htens hunits, List.forall_mem_singleton.2
    (ofWidth_pair htens' hunits')⟩

theorem narrow_month : Narrow month :=
  narrow_pairs (takesDigits_plain (by decide)) (takesDigits_plain (by decide))
    (takesDigits_plain (by decide)) (takesDigits_plain (by decide)) (takesDigits_plain (by decide))

/-- A blank and a digit cannot start one text, so that their order does not matter. -/
theorem day_eq : day = firstOf ([pair (plain 3 3) (plain 0 1), pair (plain 1 2) digitValue?,
    pair (plain 0 0) (plain 1 9), blankSingle (plain 1 9)] ++ [single (plain 1 9)]) := by
  funext s
  have hor : single (plain 1 9) s = [] ∨ blankSingle (plain 1 9) s = [] := by
    cases s with
    | nil => exact .inl rfl
    | cons c rest =>
      by_cases hc : c = ' '
      · rw [hc]
        exact .inl rfl
      · refine .inr ?_
        unfold blankSingle
        split
        · rename_i heq
          exact absurd (List.cons.inj heq).1 hc
        · rfl
  simp only [day, firstOf, List.cons_append, List.nil_append, List.flatMap_cons, List.flatMap_nil,
    List.append_nil]
  rcases hor with h | h
  · rw [h, List.append_nil, List.nil_append]
  · rw [h, List.append_nil, List.nil_append]

theorem narrow_day : Narrow day := by
  have hdigit := takesDigits_digitValue
  have hplain : ∀ {lo hi}, hi ≤ 9 → TakesDigits (plain lo hi) := takesDigits_plain
  rw [day_eq]
  refine narrow_firstOf _ ?_ (ofWidth_single (hplain (by decide)))
  refine List.forall_mem_cons.2 ⟨ofWidth_pair (hplain (by decide)) (hplain (by decide)), ?_⟩
  refine List.forall_mem_cons.2 ⟨ofWidth_pair (hplain (by decide)) hdigit, ?_⟩
  refine List.forall_mem_cons.2 ⟨ofWidth_pair (hplain (by decide)) (hplain (by decide)), ?_⟩
  exact List.forall_mem_singleton.2 (ofWidth_blankSingle (hplain (by decide)))

theorem narrow_hour : Narrow hour :=
  narrow_pairs (takesDigits_plain (by decide)) (takesDigits_plain (by decide))
    (takesDigits_plain (by decide)) takesDigits_digitValue takesDigits_digitValue

theorem narrow_minute : Narrow minute :=
  narrow_firstOf [_] (List.forall_mem_singleton.2
    (ofWidth_pair (takesDigits_plain (by decide)) takesDigits_digitValue))
      (ofWidth_single takesDigits_digitValue)

theorem narrow_second : Narrow second :=
  narrow_pairs (takesDigits_plain (by decide)) (takesDigits_plain (by decide))
    (takesDigits_plain (by decide)) takesDigits_digitValue takesDigits_digitValue

/-- A field behind the letter between date and time. -/
def behindT (f : Field) : Field
  | 'T' :: rest => f rest
  | _ => []

theorem mem_behindT {f : Field} {s r : List Char} {v : Nat} :
    (v, r) ∈ behindT f s ↔ ∃ s', s = 'T' :: s' ∧ (v, r) ∈ f s' := by
  constructor
  · intro h
    unfold behindT at h
    split at h
    · exact ⟨_, rfl, h⟩
    · exact absurd h List.not_mem_nil
  · rintro ⟨s', rfl, h⟩
    exact h

theorem spells_behindT {f : Field} {w : List Char} :
    Spells (behindT f) w ↔ ∃ w', w = 'T' :: w' ∧ Spells f w' := by
  constructor
  · rintro ⟨v, hv⟩
    obtain ⟨w', rfl, hv⟩ := mem_behindT.1 hv
    exact ⟨w', rfl, v, hv⟩
  · rintro ⟨w', rfl, v, hv⟩
    exact ⟨v, mem_behindT.2 ⟨w', rfl, hv⟩⟩

theorem number_behindT (w : List Char) : number ('T' :: w) = number w := by
  have hT : digitValue? 'T' = none := by decide
  simp [number, hT]

theorem Lawful.behindT {f : Field} (hf : Lawful f) : Lawful (behindT f) where
  mem_iff s v r := by
    constructor
    · intro h
      obtain ⟨s', rfl, h⟩ := mem_behindT.1 h
      obtain ⟨w, rfl, hw⟩ := (hf.mem_iff s' v r).1 h
      exact ⟨'T' :: w, rfl, mem_behindT.2 ⟨w, rfl, hw⟩⟩
    · rintro ⟨w, rfl, hw⟩
      obtain ⟨w, rfl, hw⟩ := mem_behindT.1 hw
      exact mem_behindT.2 ⟨w ++ r, rfl, (hf.mem_iff _ v r).2 ⟨w, rfl, hw⟩⟩
  value w v hv := by
    obtain ⟨w, rfl, hv⟩ := mem_behindT.1 hv
    rw [number_behindT, hf.value w v hv]
  widerFirst s := by
    unfold Compact.behindT
    split
    · exact hf.widerFirst _
    · exact List.Pairwise.nil
  elastic w w' hw hw' := by
    obtain ⟨w, rfl, hw⟩ := spells_behindT.1 hw
    obtain ⟨w', rfl, hw'⟩ := spells_behindT.1 hw'
    have := hf.elastic w w' hw hw'
    simp only [List.length_cons]
    omega

/-! ## The division of a time stamp -/

def dateFields : List Field := [year, month, day]

def dateTimeFields : List Field := [year, month, day, behindT hour, minute, second]

/-- The second that the pieces of a division spell: that of a date alone is its last one. -/
def secondOfPieces? (ws : List (List Char)) : Option Second :=
  match ws.map number with
  | [y, mo, d] => (Date.of? y mo d).map Second.endOfDate
  | [y, mo, d, h, mi, sec] => secondOf? y mo d h mi sec
  | _ => none

theorem lawful_dateFields : ∀ f ∈ dateFields, Lawful f :=
  List.forall_mem_cons.2 ⟨ofWidth_year.lawful, List.forall_mem_cons.2 ⟨narrow_month.lawful,
    List.forall_mem_singleton.2 narrow_day.lawful⟩⟩

theorem lawful_dateTimeFields : ∀ f ∈ dateTimeFields, Lawful f := by
  have htime : ∀ f ∈ [behindT hour, minute, second], Lawful f :=
    List.forall_mem_cons.2 ⟨narrow_hour.lawful.behindT, List.forall_mem_cons.2
      ⟨narrow_minute.lawful, List.forall_mem_singleton.2 narrow_second.lawful⟩⟩
  exact List.forall_mem_append.2 ⟨lawful_dateFields, htime⟩

theorem foldl_next (fs : List Field) (l : List (List Nat × List Char)) :
    fs.foldl (fun l f => l.flatMap (next f)) l =
      l.flatMap fun q => (readings fs q.2).map fun r => (q.1 ++ r.1, r.2) := by
  induction fs generalizing l with
  | nil => simp [readings]
  | cons f fs ih =>
    rw [List.foldl_cons, ih, List.flatMap_assoc]
    refine congrArg (List.flatMap · l) (funext fun q => ?_)
    simp only [next, readings, List.flatMap_map, List.map_flatMap, List.map_map]
    refine congrArg (List.flatMap · (f q.2)) (funext fun r => ?_)
    refine congrArg (List.map · (readings fs r.2)) (funext fun p => ?_)
    simp

theorem dateReadings_eq (s : List Char) : dateReadings s = readings dateFields s := by
  have h := foldl_next dateFields [([], s)]
  simpa [dateFields, dateReadings] using h

theorem dateTimeReadings_eq (s : List Char) : dateTimeReadings s = readings dateTimeFields s := by
  have hT : ∀ l : List (List Nat × List Char),
      (l.flatMap letterT).flatMap (next hour) = l.flatMap (next (behindT hour)) := by
    intro l
    rw [List.flatMap_assoc]
    refine congrArg (List.flatMap · l) (funext fun q => ?_)
    obtain ⟨found, rest⟩ := q
    simp only [letterT, next, behindT]
    split <;> simp [next]
  have h := foldl_next dateTimeFields [([], s)]
  simpa [dateTimeFields, dateTimeReadings, dateReadings, hT] using h

theorem readDate?_eq_some_iff {s : List Char} {t : Second} :
    readDate? s = some t ↔ ∃ ws, Widest dateFields ws s ∧ secondOfPieces? ws = some t := by
  unfold readDate? secondOfPieces?
  rw [dateReadings_eq]
  constructor
  · intro h
    split at h
    · rename_i y mo d hhead
      obtain ⟨ws, hws, hvs⟩ := (head?_readings_eq_some_iff lawful_dateFields).1 hhead
      exact ⟨ws, hws, hvs ▸ h⟩
    · exact absurd h (by simp)
  · rintro ⟨ws, hws, h⟩
    rw [(head?_readings_eq_some_iff lawful_dateFields).2 ⟨ws, hws, rfl⟩]
    match ws, hws.1.1.length_eq with
    | [y, mo, d], _ => exact h

theorem readDateTime?_eq_some_iff {s : List Char} {t : Second} :
    readDateTime? s = some t ↔ ∃ ws, Widest dateTimeFields ws s ∧ secondOfPieces? ws = some t := by
  unfold readDateTime? secondOfPieces?
  rw [dateTimeReadings_eq]
  constructor
  · intro h
    split at h
    · rename_i y mo d ho mi sec hhead
      obtain ⟨ws, hws, hvs⟩ := (head?_readings_eq_some_iff lawful_dateTimeFields).1 hhead
      exact ⟨ws, hws, hvs ▸ h⟩
    · exact absurd h (by simp)
  · rintro ⟨ws, hws, h⟩
    rw [(head?_readings_eq_some_iff lawful_dateTimeFields).2 ⟨ws, hws, rfl⟩]
    match ws, hws.1.1.length_eq with
    | [y, mo, d, ho, mi, sec], _ => exact h

/-! ## The documented forms -/

/-- Exactly `k` decimal digits. -/
def IsDigits (k : Nat) (w : List Char) : Prop := w.length = k ∧ ∀ c ∈ w, isDigit c = true

/-- Every field in full width: eight digits, and six more behind a `T` if there is a time. -/
def Documented : List (List Char) → Prop
  | [y, mo, d] => IsDigits 4 y ∧ IsDigits 2 mo ∧ IsDigits 2 d
  | [y, mo, d, h, mi, sec] => (IsDigits 4 y ∧ IsDigits 2 mo ∧ IsDigits 2 d) ∧
      (∃ h', h = 'T' :: h' ∧ IsDigits 2 h') ∧ IsDigits 2 mi ∧ IsDigits 2 sec
  | _ => False

theorem isDigits_iff {k : Nat} {w : List Char} {v : Nat} (hw : IsNumeral w v) :
    IsDigits k w ↔ w.length = k ∧ ' ' ∉ w := by
  refine and_congr_right fun _ => ⟨fun h hblank => ?_, fun h c hc => ?_⟩
  · exact absurd (h ' ' hblank) (by decide)
  · rcases hw.2 c hc with hdigit | rfl
    · exact hdigit
    · exact absurd hc h

/-- The pieces of a date. -/
theorem Divides.date {ws : List (List Char)} {s : List Char} (h : Divides dateFields ws s) :
    (6 ≤ s.length ∧ s.length ≤ 8) ∧ (Documented ws ↔ s.length = 8 ∧ ' ' ∉ s) := by
  obtain ⟨hws, rfl⟩ := h
  match ws, hws with
  | [y, mo, d], .cons ⟨_, hy⟩ (.cons ⟨_, hmo⟩ (.cons ⟨_, hd⟩ .nil)) =>
    obtain ⟨hyl, hy⟩ := ofWidth_year.piece _ _ hy
    obtain ⟨hmol, hmo⟩ := narrow_month.piece _ _ hmo
    obtain ⟨hdl, hd⟩ := narrow_day.piece _ _ hd
    simp only [Documented, isDigits_iff hy, isDigits_iff hmo, isDigits_iff hd, List.flatten_cons,
      List.flatten_nil, List.append_nil, List.length_append, List.mem_append, not_or]
    refine ⟨by omega, ?_, ?_⟩
    · rintro ⟨⟨-, hyb⟩, ⟨hmol, hmob⟩, hdl, hdb⟩
      exact ⟨by omega, hyb, hmob, hdb⟩
    · rintro ⟨hlength, hyb, hmob, hdb⟩
      exact ⟨⟨hyl, hyb⟩, ⟨by omega, hmob⟩, by omega, hdb⟩

/-- The pieces of a date and a time. -/
theorem Divides.dateTime {ws : List (List Char)} {s : List Char}
    (h : Divides dateTimeFields ws s) :
    (10 ≤ s.length ∧ s.length ≤ 15) ∧ (Documented ws ↔ s.length = 15 ∧ ' ' ∉ s) := by
  obtain ⟨hws, rfl⟩ := h
  match ws, hws with
  | [y, mo, d, h, mi, sec], .cons hy (.cons hmo (.cons hd (.cons hh (.cons ⟨_, hmi⟩
      (.cons ⟨_, hsec⟩ .nil))))) =>
    have hdivides : Divides dateFields [y, mo, d] _ := ⟨.cons hy (.cons hmo (.cons hd .nil)), rfl⟩
    obtain ⟨hdatel, hdate⟩ := hdivides.date
    obtain ⟨h, rfl, _, hh⟩ := spells_behindT.1 hh
    obtain ⟨hhl, hh⟩ := narrow_hour.piece _ _ hh
    obtain ⟨hmil, hmi⟩ := narrow_minute.piece _ _ hmi
    obtain ⟨hsecl, hsec⟩ := narrow_second.piece _ _ hsec
    have hT : ' ' ≠ 'T' := by decide
    simp only [Documented, List.cons.injEq, true_and, exists_eq_left'] at hdate ⊢
    rw [hdate]
    simp only [isDigits_iff hh, isDigits_iff hmi, isDigits_iff hsec, List.flatten_cons,
      List.flatten_nil, List.append_nil, List.length_append, List.length_cons, List.mem_append,
      List.mem_cons, hT, false_or, not_or] at hdatel ⊢
    refine ⟨by omega, ?_, ?_⟩
    · rintro ⟨⟨_, hyb, hmob, hdb⟩, ⟨_, hhb⟩, ⟨_, hmib⟩, _, hsecb⟩
      exact ⟨by omega, hyb, hmob, hdb, hhb, hmib, hsecb⟩
    · rintro ⟨hlength, hyb, hmob, hdb, hhb, hmib, hsecb⟩
      exact ⟨⟨by omega, hyb, hmob, hdb⟩, ⟨by omega, hhb⟩, ⟨by omega, hmib⟩, by omega, hsecb⟩

/-- Without a time there is no division that has one, so that trying dates last changes nothing. -/
theorem read?_eq_some_iff_widest {s : List Char} {t : Second} :
    read? s = some t ↔ ∃ ws, (Widest dateTimeFields ws (body s) ∨ Widest dateFields ws (body s)) ∧
      secondOfPieces? ws = some t := by
  unfold read?
  constructor
  · intro h
    split at h
    · rename_i t' hread
      obtain rfl := Option.some.inj h
      obtain ⟨ws, hws, ht⟩ := readDateTime?_eq_some_iff.1 hread
      exact ⟨ws, .inl hws, ht⟩
    · obtain ⟨ws, hws, ht⟩ := readDate?_eq_some_iff.1 h
      exact ⟨ws, .inr hws, ht⟩
  · rintro ⟨ws, hws | hws, ht⟩
    · rw [readDateTime?_eq_some_iff.2 ⟨ws, hws, ht⟩]
    · have hnone : readDateTime? (body s) = none := by
        refine Option.eq_none_iff_forall_ne_some.2 fun t' ht' => ?_
        obtain ⟨ws', hws', -⟩ := readDateTime?_eq_some_iff.1 ht'
        have := hws'.1.dateTime.1
        have := hws.1.date.1
        omega
      rw [hnone]
      exact readDate?_eq_some_iff.2 ⟨ws, hws, ht⟩

theorem Documented.full {ws : List (List Char)} (h : Documented ws) :
    (ws.flatten.length = 8 ∨ ws.flatten.length = 15) ∧ ' ' ∉ ws.flatten := by
  have hblank : ∀ {k w}, IsDigits k w → ' ' ∉ w := fun hw hmem =>
    absurd (hw.2 ' ' hmem) (by decide)
  match ws, h with
  | [y, mo, d], ⟨hy, hmo, hd⟩ =>
    refine ⟨.inl ?_, ?_⟩
    · simp [hy.1, hmo.1, hd.1]
    · simp [hblank hy, hblank hmo, hblank hd]
  | [y, mo, d, _, mi, sec], ⟨⟨hy, hmo, hd⟩, ⟨h, rfl, hh⟩, hmi, hsec⟩ =>
    refine ⟨.inr ?_, ?_⟩
    · simp [hy.1, hmo.1, hd.1, hh.1, hmi.1, hsec.1]
    · simp [hblank hy, hblank hmo, hblank hd, hblank hh, hblank hmi, hblank hsec]

/-- **The compact time stamps that are read.**  They are the texts that can be divided among the
fields, each value being that of the widest division, and have 6 to 8 characters without a time and
10 to 15 with one.  Among them those with 8 or 15 characters and no blank are the documented ones. -/
theorem read?_accepts (s : List Char) (t : Second) :
    (read? s = some t ↔ ∃ ws, (Widest dateTimeFields ws (body s) ∨ Widest dateFields ws (body s)) ∧
      secondOfPieces? ws = some t) ∧
    (read? s = some t → 6 ≤ (body s).length ∧ (body s).length ≤ 8 ∨
      10 ≤ (body s).length ∧ (body s).length ≤ 15) ∧
    (read? s = some t → ((∃ ws, Documented ws ∧ ws.flatten = body s ∧ secondOfPieces? ws = some t) ↔
      ((body s).length = 8 ∨ (body s).length = 15) ∧ ' ' ∉ body s)) := by
  refine ⟨read?_eq_some_iff_widest, fun h => ?_, fun h => ⟨?_, fun hfull => ?_⟩⟩
  · obtain ⟨ws, hws | hws, -⟩ := read?_eq_some_iff_widest.1 h
    · exact .inr hws.1.dateTime.1
    · exact .inl hws.1.date.1
  · rintro ⟨ws, hdocumented, hbody, -⟩
    exact hbody ▸ hdocumented.full
  · obtain ⟨ws, hws | hws, ht⟩ := read?_eq_some_iff_widest.1 h
    · obtain ⟨hbounds, hdocumented⟩ := hws.1.dateTime
      exact ⟨ws, hdocumented.2 ⟨by omega, hfull.2⟩, hws.1.2, ht⟩
    · obtain ⟨hbounds, hdocumented⟩ := hws.1.date
      exact ⟨ws, hdocumented.2 ⟨by omega, hfull.2⟩, hws.1.2, ht⟩

/-- A documented text with a final letter and white space around it. -/
theorem read?_accepts_lunch :
    ∃ t ws, read? " 20250303t121500z ".toList = some t ∧ Documented ws ∧
      ws.flatten = "20250303T121500".toList ∧ secondOfPieces? ws = some t := by
  have hread : (read? " 20250303t121500z ".toList).isSome = true := by decide +kernel
  obtain ⟨t, ht⟩ := Option.isSome_iff_exists.1 hread
  have hbody : body " 20250303t121500z ".toList = "20250303T121500".toList := by decide +kernel
  obtain ⟨ws, hws⟩ := ((read?_accepts _ t).2.2 ht).2 ⟨by decide +kernel, by decide +kernel⟩
  exact ⟨t, ws, ht, hws.1, hbody ▸ hws.2.1, hws.2.2⟩

/-- The stamp of a month, November 2025, is read as the first of January. -/
theorem cutStamp_passes :
    ((read? "202511".toList).map fun t => t.instant.toCompact) = some "20250101T235959Z" ∧
      ¬∃ ws, Documented ws ∧ ws.flatten = body "202511".toList := by
  refine ⟨by decide +kernel, ?_⟩
  rintro ⟨ws, hdocumented, hbody⟩
  have hlength : (body "202511".toList).length = 6 := by decide +kernel
  have := hbody ▸ hdocumented.full.1
  omega

end Compact

end Recurrence
