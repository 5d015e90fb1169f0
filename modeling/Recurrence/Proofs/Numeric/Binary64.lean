import Recurrence.Calendar.Instant
import Recurrence.Numeric.Binary64

/-!
# Microseconds in binary floating point

A number of seconds below `2 ^ 33` is a multiple of a power of two that is less than a microsecond.  So
a count of microseconds, divided by a million, is rounded by less than half a microsecond
(`ofRatio_micros_near`), and different counts stay different (`ofRatio_micros_injective`).  From there
on neighbouring counts may become one number.
-/

namespace Recurrence

theorem twoTo_mono {a b : Nat} (h : a ≤ b) : twoTo a ≤ twoTo b := Nat.pow_le_pow_right (by decide) h

/-- Rounding moves a quotient by at most a half. -/
theorem roundDiv_near (num : Nat) {den : Nat} (hden : 0 < den) :
    2 * num ≤ 2 * (roundDiv num den * den) + den ∧ 2 * (roundDiv num den * den) ≤ 2 * num + den := by
  have hdiv := Nat.div_add_mod num den
  have hmod := Nat.mod_lt num hden
  have hsucc : (num / den + 1) * den = num / den * den + den := Nat.succ_mul _ _
  rw [Nat.mul_comm] at hdiv
  simp only [roundDiv]
  split
  · omega
  · split
    · omega
    · rcases Nat.mod_two_eq_zero_or_one (num / den) with hq | hq
      · rw [hq, Nat.add_zero]
        omega
      · rw [hq]
        omega

namespace Binary64

/-- The counts of microseconds that are told apart: those below `2 ^ 33` seconds. -/
def exactMicros : Nat := twoTo 33 * microsPerSecond

theorem exponentOf_micros_le {d : Nat} (hpos : d ≠ 0) (hd : d < exactMicros) :
    exponentOf d microsPerSecond ≤ -20 := by
  have hden : Nat.log2 microsPerSecond = 19 := by decide +kernel
  have hnum : Nat.log2 d < 53 := by
    rw [Nat.log2_lt hpos]
    exact Nat.lt_trans hd (by decide +kernel)
  unfold exponentOf
  rw [hden]
  simp only
  split
  · rename_i hfull
    by_cases htop : Nat.log2 d = 52
    · -- with all 53 bits in use the quotient would have to reach `2 ^ 33`
      rw [htop] at hfull
      have hscale : scale microsPerSecond (((52 : Nat) : Int) - ((19 : Nat) : Int) - 53) =
          (microsPerSecond, twoTo 20) := by decide +kernel
      rw [hscale] at hfull
      have hexact : exactMicros * twoTo 20 = twoTo 53 * microsPerSecond := by decide +kernel
      have hlt := Nat.mul_lt_mul_of_pos_right hd (twoTo_pos 20)
      simp only at hfull
      omega
    · omega
  · omega

/-- **A count of microseconds moves by less than half a microsecond.** -/
theorem ofRatio_micros_near {d : Nat} (hd : d < exactMicros) :
    ∃ m k : Nat, ofRatio false d microsPerSecond = finite false m (-(k : Int)) ∧
      2097152 * (d * twoTo k) ≤ 2097152 * (m * microsPerSecond) + microsPerSecond * twoTo k ∧
      2097152 * (m * microsPerSecond) ≤ 2097152 * (d * twoTo k) + microsPerSecond * twoTo k := by
  unfold ofRatio
  by_cases hzero : d = 0
  · rw [if_pos hzero, hzero]
    exact ⟨0, 1074, rfl, by simp, by simp⟩
  · rw [if_neg hzero]
    have hle := exponentOf_micros_le hzero hd
    generalize exponentOf d microsPerSecond = e at hle
    obtain ⟨k, rfl⟩ : ∃ k : Nat, e = -((k : Int) + 20) := ⟨(-e - 20).toNat, by omega⟩
    have hscale : scale microsPerSecond (-((k : Int) + 20)) = (microsPerSecond, twoTo (k + 20)) := by
      rw [scale, if_neg (by omega), Int.neg_neg]
      rfl
    have hpos : 0 < microsPerSecond := by decide
    have hnear := roundDiv_near (d * twoTo (k + 20)) hpos
    have hdouble : d * twoTo (k + 20) = 2 * (d * twoTo (k + 19)) := by
      rw [show k + 20 = k + 19 + 1 from rfl, twoTo_succ, Nat.mul_left_comm]
    have hlarger : twoTo (k + 20) = 2 * twoTo (k + 19) := twoTo_succ (k + 19)
    have hlarge : twoTo 19 ≤ twoTo (k + 19) := twoTo_mono (Nat.le_add_left 19 k)
    have h19 : twoTo 19 = 524288 := by decide
    simp only [hscale]
    generalize roundDiv (d * twoTo (k + 20)) microsPerSecond = m at hnear
    simp only [microsPerSecond] at hnear ⊢
    by_cases hfull : m = twoTo 53
    · -- the quotient was rounded up to the next power of two
      have hhalf : twoTo 53 = 2 * twoTo 52 := twoTo_succ 52
      rw [hfull, hhalf, hdouble] at hnear
      rw [if_pos hfull]
      simp only [if_neg (show ¬(971 : Int) < -((k : Int) + 20) + 1 by omega)]
      refine ⟨twoTo 52, k + 19, ?_, ?_⟩
      · congr 1
      · omega
    · rw [if_neg hfull]
      simp only [if_neg (show ¬(971 : Int) < -((k : Int) + 20) by omega)]
      refine ⟨m, k + 20, ?_, ?_⟩
      · rfl
      · omega

theorem ofRatio_micros_injective {d₁ d₂ : Nat} (h₁ : d₁ < exactMicros) (h₂ : d₂ < exactMicros)
    (h : ofRatio false d₁ microsPerSecond = ofRatio false d₂ microsPerSecond) : d₁ = d₂ := by
  obtain ⟨m, k, he₁, hupper₁, hlower₁⟩ := ofRatio_micros_near h₁
  obtain ⟨m', k', he₂, hupper₂, hlower₂⟩ := ofRatio_micros_near h₂
  rw [he₁, he₂] at h
  obtain ⟨-, rfl, hk⟩ := Binary64.finite.inj h
  obtain rfl : k = k' := by omega
  have hpos := twoTo_pos k
  have close : ∀ {a b : Nat},
      2097152 * (a * twoTo k) ≤ 2097152 * (m * microsPerSecond) + microsPerSecond * twoTo k →
      2097152 * (m * microsPerSecond) ≤ 2097152 * (b * twoTo k) + microsPerSecond * twoTo k →
      a ≤ b := by
    intro a b ha hb
    have hmul : 2097152 * a * twoTo k ≤ (2097152 * b + 2 * microsPerSecond) * twoTo k := by
      rw [Nat.mul_assoc, Nat.add_mul, Nat.mul_assoc, Nat.mul_assoc]
      omega
    have hle := Nat.le_of_mul_le_mul_right hmul hpos
    unfold microsPerSecond at hle
    omega
  exact Nat.le_antisymm (close hupper₁ hlower₂) (close hupper₂ hlower₁)

example : ofRatio false (exactMicros + 1) microsPerSecond =
    ofRatio false (exactMicros + 2) microsPerSecond := by decide +kernel

end Binary64

end Recurrence
