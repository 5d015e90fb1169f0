import Mathlib.Algebra.Group.Nat.Defs
import Recurrence.Proofs.Text.Steady

/-!
# Numerals read back

`decimal` and `signed` write a number without padding, and `readInt?` reads it back as long as it
has no more than `maxDigits` digits (`readInt?_signed`).  Whatever `readInt?` reads can be written
with that many digits (`length_decimal_of_readInt?`), so that reading and writing agree on which
numbers a text can hold.
-/

namespace Recurrence.Text

/-! ## Digits -/

theorem digitValue?_of_digit {c : Char} (h : 48 ≤ c.toNat ∧ c.toNat ≤ 57) :
    digitValue? c = some (c.toNat - 48) := by
  rw [digitValue?, if_pos (by omega), if_pos h]

theorem digitValue?_digitChar {d : Nat} (h : d < 10) : digitValue? d.digitChar = some d := by
  have hc := Nat.toNat_digitChar_of_lt_ten h
  rw [digitValue?_of_digit (by omega), hc, Nat.add_sub_cancel_left]

theorem digitValue?_lt {c : Char} {d : Nat} (h : digitValue? c = some d) : d < 10 := by
  rw [digitValue?] at h
  split at h
  · split at h
    · obtain rfl := Option.some.inj h
      omega
    · exact absurd h (by simp)
  · obtain ⟨z, hz, rfl⟩ := Option.map_eq_some_iff.1 h
    have := List.find?_some hz
    simp only [Bool.and_eq_true, decide_eq_true_eq] at this
    omega

theorem digitRun?_of_digits {s : List Char} (hne : s ≠ [])
    (h : ∀ c ∈ s, 48 ≤ c.toNat ∧ c.toNat ≤ 57) :
    digitRun? s = some (s.map (·.toNat - 48)) := by
  induction s with
  | nil => exact absurd rfl hne
  | cons c r ih =>
    rw [digitRun?, digitValue?_of_digit (h c List.mem_cons_self)]
    cases r with
    | nil => rfl
    | cons e r' =>
      have he : e ≠ '_' := by
        rintro rfl
        exact absurd (h '_' (by simp)) (by decide)
      have hr := ih (List.cons_ne_nil e r') fun d hd => h d (List.mem_cons_of_mem _ hd)
      simp only [hr, Option.map_some, List.map_cons]

theorem ofDigits_map (s : List Char) :
    ofDigits (s.map (·.toNat - 48)) = Nat.ofDigitChars 10 s 0 := by
  rw [ofDigits, List.foldl_map, Nat.ofDigitChars_eq_foldl]
  rfl

/-! ## Reading what is written -/

theorem readNat?_decimal {n : Nat} (h : (decimal n).length ≤ maxDigits) :
    readNat? (decimal n) = some n := by
  have hd := digitRun?_of_digits (s := decimal n) Nat.toDigits_ne_nil fun _ => digit_of_mem_decimal
  rw [readNat?, hd]
  simp only [List.length_map, if_pos h, ofDigits_map]
  rw [decimal, Nat.ofDigitChars_toDigits (by decide) (by decide)]

theorem decimal_injective {m n : Nat} (h : decimal m = decimal n) : m = n := by
  have hm : Nat.ofDigitChars 10 (decimal m) 0 = m := Nat.ofDigitChars_toDigits (by decide) (by decide)
  have hn : Nat.ofDigitChars 10 (decimal n) 0 = n := Nat.ofDigitChars_toDigits (by decide) (by decide)
  rw [← hm, h, hn]

theorem isNumeralBlank_of_isSteady {c : Char} (h : isSteady c = true) :
    isNumeralBlank c = false := by
  simp only [isSteady, Bool.and_eq_true, decide_eq_true_eq] at h
  simp only [isNumeralBlank, Bool.or_eq_false_iff, Bool.and_eq_false_iff, decide_eq_false_iff_not,
    beq_eq_false_iff_ne]
  omega

theorem stripNumeral_of_unblank {s : List Char} (h : ∀ c ∈ s, isNumeralBlank c = false) :
    stripNumeral s = s := by
  have front : ∀ t : List Char, (∀ c ∈ t, isNumeralBlank c = false) → t.dropWhile isNumeralBlank = t := by
    intro t ht
    cases t with
    | nil => rfl
    | cons c r =>
      have hc := ht c List.mem_cons_self
      rw [List.dropWhile_cons_of_neg (by simp [hc])]
  have hr : ∀ c ∈ s.reverse, isNumeralBlank c = false := fun c hc => h c (List.mem_reverse.1 hc)
  rw [stripNumeral, front s h, front _ hr, List.reverse_reverse]

theorem stripNumeral_of_steady {s : List Char} (h : Steady s) : stripNumeral s = s :=
  stripNumeral_of_unblank fun c hc => isNumeralBlank_of_isSteady (h c hc)

theorem takeSign_decimal (n : Nat) : takeSign (decimal n) = (false, decimal n) := by
  have hd : ∀ c ∈ decimal n, 48 ≤ c.toNat := fun c hc => (digit_of_mem_decimal hc).1
  unfold takeSign
  split
  · rename_i r hr
    exact absurd (hd '-' (hr ▸ List.mem_cons_self)) (by decide)
  · rename_i r hr
    exact absurd (hd '+' (hr ▸ List.mem_cons_self)) (by decide)
  · rfl

theorem readInt?_of_takeSign {s t : List Char} {negative : Bool} {n : Nat} (hs : Steady s)
    (ht : takeSign s = (negative, t)) (hn : readNat? t = some n) :
    readInt? s = some (withSign negative n) := by
  rw [readInt?, stripNumeral_of_steady hs, ht]
  simp only [hn, Option.map_some]

/-- **A number is read back from its numeral.** -/
theorem readInt?_signed {i : Int} (h : (decimal i.natAbs).length ≤ maxDigits) :
    readInt? (signed i) = some i := by
  by_cases hi : i < 0
  · have hs : signed i = '-' :: decimal i.natAbs := if_pos hi
    rw [readInt?_of_takeSign (steady_signed i) (by rw [hs]; rfl) (readNat?_decimal h)]
    simp only [withSign, if_true, Int.ofNat_eq_natCast, Option.some.injEq]
    clear h
    omega
  · have hs : signed i = decimal i.natAbs := if_neg hi
    rw [readInt?_of_takeSign (steady_signed i) (by rw [hs]; exact takeSign_decimal _)
      (readNat?_decimal h)]
    simp only [withSign, Bool.false_eq_true, if_false, Int.ofNat_eq_natCast, Option.some.injEq]
    clear h
    omega

theorem readInt?_decimal {n : Nat} (h : (decimal n).length ≤ maxDigits) :
    readInt? (decimal n) = some (n : Int) := by
  have hs : signed (n : Int) = decimal n := by
    rw [signed, if_neg (by omega), Int.natAbs_natCast]
  rw [← hs]
  exact readInt?_signed (by rwa [Int.natAbs_natCast])

/-! ## Writing what is read -/

theorem length_decimal_le_iff {n k : Nat} (hk : 0 < k) :
    (decimal n).length ≤ k ↔ n < 10 ^ k :=
  Nat.length_toDigits_le_iff (by decide) hk

theorem length_decimal_mono {m n : Nat} (h : m ≤ n) : (decimal m).length ≤ (decimal n).length := by
  have hpos : 0 < (decimal n).length := Nat.length_toDigits_pos
  have hn := (length_decimal_le_iff hpos).1 (Nat.le_refl _)
  exact (length_decimal_le_iff hpos).2 (Nat.lt_of_le_of_lt h hn)

theorem lt_ten_of_digitRun? {s : List Char} {ds : List Nat} (h : digitRun? s = some ds) :
    ∀ d ∈ ds, d < 10 := by
  fun_induction digitRun? s generalizing ds with
  | case1 => exact absurd h (by simp)
  | case2 => exact absurd h (by simp)
  | case3 c d hd =>
    obtain rfl := Option.some.inj h
    intro e he
    rw [List.mem_singleton.1 he]
    exact digitValue?_lt hd
  | case4 c d hd r ih =>
    obtain ⟨es, hes, rfl⟩ := Option.map_eq_some_iff.1 h
    intro e he
    rcases List.mem_cons.1 he with rfl | he
    · exact digitValue?_lt hd
    · exact ih hes e he
  | case5 c d hd e' r hne ih =>
    obtain ⟨es, hes, rfl⟩ := Option.map_eq_some_iff.1 h
    intro e he
    rcases List.mem_cons.1 he with rfl | he
    · exact digitValue?_lt hd
    · exact ih hes e he

theorem foldl_digits_lt (ds : List Nat) (h : ∀ d ∈ ds, d < 10) (k n : Nat) (hn : n < 10 ^ k) :
    ds.foldl (fun n d => 10 * n + d) n < 10 ^ (k + ds.length) := by
  induction ds generalizing k n with
  | nil => exact hn
  | cons d ds ih =>
    have hd : d < 10 := h d List.mem_cons_self
    have hp : 10 ^ (k + 1) = 10 * 10 ^ k := Nat.pow_succ'
    have := ih (fun e he => h e (List.mem_cons_of_mem _ he)) (k + 1) (10 * n + d) (by omega)
    rwa [Nat.add_assoc, Nat.add_comm 1] at this

theorem length_decimal_of_readNat? {s : List Char} {n : Nat} (h : readNat? s = some n) :
    (decimal n).length ≤ maxDigits := by
  rw [readNat?] at h
  split at h
  · rename_i ds hds
    split at h
    · rename_i hlen
      obtain rfl := Option.some.inj h
      have hlt := foldl_digits_lt ds (lt_ten_of_digitRun? hds) 0 0 (by decide)
      rw [Nat.zero_add] at hlt
      rw [length_decimal_le_iff (by decide)]
      exact Nat.lt_of_lt_of_le hlt (Nat.pow_le_pow_right (by decide) hlen)
    · exact absurd h (by simp)
  · exact absurd h (by simp)

/-- **What is read can be written.** -/
theorem length_decimal_of_readInt? {s : List Char} {i : Int} (h : readInt? s = some i) :
    (decimal i.natAbs).length ≤ maxDigits := by
  have hs : ∀ (negative : Bool) (n : Nat), (withSign negative n).natAbs = n := by
    intro negative n
    cases negative <;> simp [withSign]
  unfold readInt? at h
  obtain ⟨n, hn, rfl⟩ := Option.map_eq_some_iff.1 h
  rw [hs]
  exact length_decimal_of_readNat? hn

end Recurrence.Text
