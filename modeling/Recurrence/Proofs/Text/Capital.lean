import Recurrence.Proofs.Text.Steady

/-!
# What upper-casing leaves alone

Upper-casing goes character by character (`upper_append`), and none of them gets lost (`upper_eq_nil_iff`).
A capital is a letter, so all that comes before the letters was there before (`mem_of_mem_upper`):
upper-casing does not bring a separator about.  White space stays as it is (`upperChar_of_isBlank`).
-/

namespace Recurrence.Text

variable {c : Char} {s : List Char}

theorem upper_append (s t : List Char) : upper (s ++ t) = upper s ++ upper t := List.flatMap_append

theorem mem_upper_of_isSteady (hc : isSteady c = true) (h : c ∈ s) : c ∈ upper s := by
  refine List.mem_flatMap.2 ⟨c, h, ?_⟩
  rw [upperChar_of_isSteady hc]
  exact List.mem_singleton_self c

/-- White space has no capitals. -/
theorem upperChar_of_isBlank (h : isBlank c = true) : upperChar c = [c] := by
  have hall : ∀ n ∈ List.range' 9 5 ++ List.range' 28 5 ++ [0x85, 0xA0, 0x1680] ++
      List.range' 0x2000 11 ++ [0x2028, 0x2029, 0x202F, 0x205F, 0x3000],
      upperChar (Char.ofNat n) = [Char.ofNat n] := by
    decide +kernel
  have hcode := hall c.toNat (by
    simp only [isBlank, Bool.or_eq_true, Bool.and_eq_true, decide_eq_true_eq, beq_iff_eq] at h
    simp only [List.mem_append, List.mem_range'_1, List.mem_cons, List.not_mem_nil, or_false]
    omega)
  rwa [Char.ofNat_toNat] at hcode

/-- A character has one capital or a spelling from the table. -/
theorem upperChar_cases (c : Char) :
    (∃ x, upperChar c = [x]) ∨ ∃ e ∈ capitalSpellings, upperChar c = e.2.map Char.ofNat := by
  unfold upperChar
  split
  · exact .inl ⟨_, rfl⟩
  · split
    · rename_i e he
      exact .inr ⟨e, List.mem_of_find?_eq_some he, rfl⟩
    · split
      · exact .inl ⟨_, rfl⟩
      · exact .inl ⟨_, rfl⟩

theorem upperChar_ne_nil (c : Char) : upperChar c ≠ [] := by
  have hspelled : ∀ e ∈ capitalSpellings, e.2 ≠ [] := by decide
  rcases upperChar_cases c with ⟨x, hx⟩ | ⟨e, he, hcapitals⟩
  · rw [hx]
    exact List.cons_ne_nil x []
  · rw [hcapitals]
    exact mt List.map_eq_nil_iff.1 (hspelled e he)

theorem upper_eq_nil_iff : upper s = [] ↔ s = [] := by
  constructor
  · intro h
    cases s with
    | nil => rfl
    | cons c s => exact absurd (List.append_eq_nil_iff.1 h).1 (upperChar_ne_nil c)
  · rintro rfl
    rfl

/-! ## Capitals are letters -/

theorem toNat_ofNat {n : Nat} (h : n.isValidChar) : (Char.ofNat n).toNat = n := by
  rw [Char.ofNat, dif_pos h]
  rfl

/-- The capital of a letter from a run is a letter. -/
theorem le_toNat_capital {r : CaseRun} (hr : r ∈ capitalRuns) {n : Nat} (hn : r.mem n = true) :
    65 ≤ (Char.ofNat (n + r.shift).toNat).toNat := by
  have hruns : ∀ r ∈ capitalRuns, 65 ≤ r.first + r.shift ∧
      (r.last + r.shift < 0xD800 ∨ 0xDFFF < r.first + r.shift ∧ r.last + r.shift < 0x110000) := by
    decide +kernel
  obtain ⟨hletter, hchar⟩ := hruns r hr
  rw [CaseRun.mem, Bool.and_eq_true, Bool.and_eq_true, decide_eq_true_iff, decide_eq_true_iff] at hn
  have hvalid : ((n : Int) + r.shift).toNat.isValidChar := by
    unfold Nat.isValidChar
    omega
  rw [toNat_ofNat hvalid]
  omega

/-- Before the letters, a character in the upper-case spelling is the one that is spelled. -/
theorem eq_of_mem_upperChar {d : Char} (h : c ∈ upperChar d) (hc : c.toNat < 65) : c = d := by
  unfold upperChar at h
  split at h
  · rename_i hascii
    have hcapital : ∀ n < 128, (Char.ofNat n).toUpper.toNat < 65 →
        (Char.ofNat n).toUpper = Char.ofNat n := by
      decide +kernel
    obtain rfl := List.mem_singleton.1 h
    rw [← d.ofNat_toNat] at hc ⊢
    exact hcapital d.toNat hascii hc
  · split at h
    · rename_i e he
      have hspelled : ∀ e ∈ capitalSpellings, ∀ n ∈ e.2, 65 ≤ (Char.ofNat n).toNat := by
        decide +kernel
      obtain ⟨n, hn, rfl⟩ := List.mem_map.1 h
      exact absurd hc (Nat.not_lt.2 (hspelled e (List.mem_of_find?_eq_some he) n hn))
    · split at h
      · rename_i r hr
        obtain rfl := List.mem_singleton.1 h
        have hmem : r.mem d.toNat = true := List.find?_some (p := (CaseRun.mem · d.toNat)) hr
        exact absurd hc (Nat.not_lt.2 (le_toNat_capital (List.mem_of_find?_eq_some hr) hmem))
      · exact List.mem_singleton.1 h

/-- **Upper-casing brings about nothing but letters.** -/
theorem mem_of_mem_upper (h : c ∈ upper s) (hc : c.toNat < 65) : c ∈ s := by
  obtain ⟨d, hd, hcd⟩ := List.mem_flatMap.1 h
  rwa [eq_of_mem_upperChar hcd hc]

end Recurrence.Text
