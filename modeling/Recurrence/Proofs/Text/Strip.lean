import Mathlib.Data.List.DropRight
import Mathlib.Data.List.Flatten
import Recurrence.Proofs.Text.Steady

/-!
# White space at the ends

White space at the two ends of a text does not matter to its stripped form (`strip_blank_append`,
`strip_append_blank`), and a text without any stays as it is (`strip_eq_self_iff`).  Where a text is cut
at a character that is no white space, what stands behind it goes to the last piece
(`exists_splitOn_back`).  No other pieces join to the text (`splitOn_eq_iff`).
-/

namespace Recurrence.Text

/-- A text of white space. -/
def Blank (s : List Char) : Prop := ∀ c ∈ s, isBlank c = true

variable {s t front back : List Char} {c sep : Char}

theorem stripLeft_eq_nil_iff : stripLeft s = [] ↔ Blank s := List.dropWhile_eq_nil_iff

theorem stripRight_eq_nil_iff : stripRight s = [] ↔ Blank s := List.rdropWhile_eq_nil_iff

/-- White space stands in front of what is left when the front is stripped. -/
theorem exists_stripLeft (s : List Char) : ∃ front, Blank front ∧ front ++ stripLeft s = s :=
  ⟨s.takeWhile isBlank, fun _ => List.mem_takeWhile_imp, List.takeWhile_append_dropWhile⟩

theorem exists_stripRight (s : List Char) : ∃ back, Blank back ∧ stripRight s ++ back = s :=
  ⟨s.rtakeWhile isBlank, fun _ => List.mem_rtakeWhile_imp, List.rdropWhile_append_rtakeWhile⟩

theorem stripLeft_append (h : ¬Blank s) : stripLeft (s ++ t) = stripLeft s ++ t := by
  have hne : (s.dropWhile isBlank).isEmpty = false := by
    rw [List.isEmpty_eq_false_iff]
    exact fun he => h (stripLeft_eq_nil_iff.1 he)
  rw [stripLeft, List.dropWhile_append, hne]
  rfl

theorem stripRight_append (h : ¬Blank t) : stripRight (s ++ t) = s ++ stripRight t := by
  have ht : ¬Blank t.reverse := fun hb => h fun c hc => hb c (List.mem_reverse.2 hc)
  have hleft := stripLeft_append (t := s.reverse) ht
  rw [stripLeft, stripLeft] at hleft
  rw [stripRight, List.reverse_append, hleft, List.reverse_append, List.reverse_reverse]
  rfl

theorem strip_blank_append (h : Blank front) (s : List Char) : strip (front ++ s) = strip s := by
  rw [strip, stripLeft, List.dropWhile_append_of_pos h]
  rfl

theorem stripRight_append_blank (h : Blank back) (s : List Char) :
    stripRight (s ++ back) = stripRight s := by
  have hback : ∀ c ∈ back.reverse, isBlank c = true := fun c hc => h c (List.mem_reverse.1 hc)
  rw [stripRight, List.reverse_append, List.dropWhile_append_of_pos hback]
  rfl

theorem strip_append_blank (h : Blank back) (s : List Char) : strip (s ++ back) = strip s := by
  by_cases hs : Blank s
  · have hall : Blank (s ++ back) := by
      intro c hc
      exact (List.mem_append.1 hc).elim (hs c) (h c)
    rw [strip, strip, stripLeft_eq_nil_iff.2 hs, stripLeft_eq_nil_iff.2 hall]
  · rw [strip, stripLeft_append hs, stripRight_append_blank h]
    rfl

theorem strip_stripLeft (s : List Char) : strip (stripLeft s) = strip s := by
  obtain ⟨front, hfront, hs⟩ := exists_stripLeft s
  rw [← strip_blank_append hfront (stripLeft s), hs]

theorem blank_append : Blank (s ++ t) ↔ Blank s ∧ Blank t := List.forall_mem_append

theorem blank_stripLeft_iff : Blank (stripLeft s) ↔ Blank s := by
  obtain ⟨front, hfront, hs⟩ := exists_stripLeft s
  conv_rhs => rw [← hs]
  rw [blank_append, and_iff_right hfront]

theorem strip_eq_nil_iff : strip s = [] ↔ Blank s := by
  show stripRight (stripLeft s) = [] ↔ Blank s
  rw [stripRight_eq_nil_iff, blank_stripLeft_iff]

/-- Behind a part that is no white space, the back is stripped; in front of one, the front. -/
theorem strip_append (hs : ¬Blank s) (ht : ¬Blank t) :
    strip (s ++ t) = stripLeft s ++ stripRight t := by
  rw [strip, stripLeft_append hs, stripRight_append ht]

theorem isBlank_of_head?_strip (h : (strip s).head? = some c) : isBlank c = false := by
  obtain ⟨back, hs⟩ : strip s <+: stripLeft s := List.rdropWhile_prefix _ _
  have hhead : (stripLeft s).head? = some c := by
    rw [← hs, List.head?_append, h]
    rfl
  have hstop := List.head?_dropWhile_not isBlank s
  rw [show s.dropWhile isBlank = stripLeft s from rfl, hhead] at hstop
  exact hstop

theorem stripLeft_eq_self_iff : stripLeft s = s ↔ ∀ c ∈ s.head?, isBlank c = false := by
  rw [stripLeft, List.dropWhile_eq_self_iff]
  cases s with
  | nil => simp
  | cons c s => simp

theorem stripRight_eq_self_iff : stripRight s = s ↔ ∀ c ∈ s.getLast?, isBlank c = false := by
  rw [← List.head?_reverse, ← stripLeft_eq_self_iff, stripRight, List.reverse_eq_iff]
  rfl

theorem strip_sublist (s : List Char) : (strip s).Sublist s :=
  (List.rdropWhile_prefix _ _).sublist.trans (List.dropWhile_sublist _)

/-- **A text is stripped of nothing** exactly if there is no white space at its two ends. -/
theorem strip_eq_self_iff : strip s = s ↔
    (∀ c ∈ s.head?, isBlank c = false) ∧ ∀ c ∈ s.getLast?, isBlank c = false := by
  rw [← stripLeft_eq_self_iff, ← stripRight_eq_self_iff]
  constructor
  · intro h
    have hback : (strip s).Sublist (stripLeft s) := (List.rdropWhile_prefix _ _).sublist
    rw [h] at hback
    have hleft : stripLeft s = s := (List.dropWhile_sublist _).antisymm hback
    rw [strip, hleft] at h
    exact ⟨hleft, h⟩
  · rintro ⟨hleft, hright⟩
    rw [strip, hleft, hright]

theorem not_mem_of_blank (hsep : isBlank sep = false) (h : Blank s) : sep ∉ s := by
  intro hm
  rw [h sep hm] at hsep
  cases hsep

/-- Stripping takes nothing but white space away. -/
theorem mem_strip_iff (hc : isBlank c = false) : c ∈ strip s ↔ c ∈ s := by
  obtain ⟨front, hfront, hs⟩ := exists_stripLeft s
  obtain ⟨back, hback, hright⟩ := exists_stripRight (stripLeft s)
  have hstrip : strip s ++ back = stripLeft s := hright
  conv_rhs => rw [← hs, ← hstrip, List.mem_append, List.mem_append]
  constructor
  · intro h
    exact .inr (.inl h)
  · rintro (h | h | h)
    · exact absurd h (not_mem_of_blank hc hfront)
    · exact h
    · exact absurd h (not_mem_of_blank hc hback)

/-! ## Pieces -/

/-- What is put behind a text without a separator goes to the last piece. -/
theorem exists_splitOn_back (sep : Char) (s : List Char) :
    ∃ ps p, splitOn sep s = ps ++ [p] ∧
      ∀ back, sep ∉ back → splitOn sep (s ++ back) = ps ++ [p ++ back] := by
  induction s with
  | nil => exact ⟨[], [], rfl, fun back hback => splitOn_of_not_mem hback⟩
  | cons c s ih =>
    obtain ⟨ps, p, hs, hback⟩ := ih
    by_cases hc : c = sep
    · refine ⟨[] :: ps, p, ?_, fun back hb => ?_⟩
      · rw [splitOn, if_pos hc, hs, List.cons_append]
      · rw [List.cons_append, splitOn, if_pos hc, hback back hb, List.cons_append]
    · cases ps with
      | nil =>
        refine ⟨[], c :: p, ?_, fun back hb => ?_⟩
        · rw [splitOn, if_neg hc, hs]
          rfl
        · rw [List.cons_append, splitOn, if_neg hc, hback back hb]
          rfl
      | cons q ps =>
        refine ⟨(c :: q) :: ps, p, ?_, fun back hb => ?_⟩
        · rw [splitOn, if_neg hc, hs]
          rfl
        · rw [List.cons_append, splitOn, if_neg hc, hback back hb]
          rfl

theorem not_mem_of_mem_splitOn {p : List Char} (h : p ∈ splitOn sep s) : sep ∉ p := by
  induction s generalizing p with
  | nil =>
    rw [List.mem_singleton.1 h]
    exact List.not_mem_nil
  | cons c s ih =>
    obtain ⟨q, qs, hs⟩ := List.exists_cons_of_ne_nil (splitOn_ne_nil sep s)
    by_cases hc : c = sep
    · rw [splitOn, if_pos hc] at h
      rcases List.mem_cons.1 h with rfl | h
      · exact List.not_mem_nil
      · exact ih h
    · rw [splitOn, if_neg hc, hs] at h
      rcases List.mem_cons.1 h with rfl | h
      · have hq : sep ∉ q := ih (hs ▸ List.mem_cons_self)
        exact fun hm => (List.mem_cons.1 hm).elim (fun he => hc he.symm) hq
      · exact ih (hs ▸ List.mem_cons_of_mem q h)

theorem cutAt_of_not_mem {p : List Char} (h : sep ∉ p) : cutAt sep p = (p, none) := by
  induction p with
  | nil => rfl
  | cons c p ih =>
    have hc : c ≠ sep := fun he => h (he ▸ List.mem_cons_self)
    rw [cutAt, if_neg hc, ih fun hp => h (List.mem_cons_of_mem _ hp)]

theorem not_mem_cutAt (sep : Char) (s : List Char) : sep ∉ (cutAt sep s).1 := by
  induction s with
  | nil => exact List.not_mem_nil
  | cons c s ih =>
    by_cases hc : c = sep
    · rw [cutAt, if_pos hc]
      exact List.not_mem_nil
    · rw [cutAt, if_neg hc]
      exact fun hm => (List.mem_cons.1 hm).elim (fun he => hc he.symm) ih

theorem joinWith_cons_eq (sep : Char) (p : List Char) (ps : List (List Char)) :
    joinWith sep (p :: ps) = p ++ ps.flatMap (sep :: ·) := by
  induction ps generalizing p with
  | nil => exact (List.append_nil p).symm
  | cons q ps ih =>
    rw [joinWith, ih q, List.flatMap_cons]
    rfl

/-- Leaving pieces out leaves their signs out of the text that joins them. -/
theorem joinWith_sublist {ps qs : List (List Char)} (h : qs.Sublist ps) :
    (joinWith sep qs).Sublist (joinWith sep ps) := by
  induction h with
  | slnil => exact List.Sublist.refl []
  | @cons qs ps p h ih =>
    cases ps with
    | nil =>
      rw [List.sublist_nil.1 h]
      exact List.nil_sublist _
    | cons q ps =>
      rw [joinWith_cons sep p (List.cons_ne_nil q ps)]
      exact (ih.cons sep).trans (List.sublist_append_right p _)
  | cons_cons p h ih =>
    rw [joinWith_cons_eq, joinWith_cons_eq]
    exact (h.flatMap _).append_left p

/-- **Splitting has one answer**: the pieces without the separator that join to the text. -/
theorem splitOn_eq_iff {ps : List (List Char)} :
    splitOn sep s = ps ↔ ps ≠ [] ∧ (∀ p ∈ ps, sep ∉ p) ∧ joinWith sep ps = s := by
  constructor
  · rintro rfl
    exact ⟨splitOn_ne_nil sep s, fun _ hp => not_mem_of_mem_splitOn hp, joinWith_splitOn sep s⟩
  · rintro ⟨hne, hsep, rfl⟩
    exact splitOn_joinWith hne hsep

end Recurrence.Text
