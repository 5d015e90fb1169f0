import Mathlib.Tactic.Linarith
import Mathlib.Tactic.Positivity
import Recurrence.Proofs.Numeric.Number

/-!
# Rounding keeps the order

A quotient is rounded to a multiple of the power of two with which it has 53 bits before the point
(`Binary64.exponentOf_spec`).  A larger quotient has the same power, and then rounding to the nearest
multiple keeps the order (`roundDiv_mono`), or a larger one, and then a power of two lies between the two
results.  So rounding keeps the order (`Binary64.nearest_mono`), with either sign and where the result is
infinite (`Binary64.place?_ofRatio`).

Hence sums in floating point keep the order (`Binary64.place?_add_mono`), and so do sums of any number with
numbers that are written alike, all as integers or all in floating point (`Number.add?_outlasts`).
-/

namespace Recurrence

/-! ## Rounding a quotient to an integer -/

/-- A quotient is rounded down from a half exactly if that makes it even. -/
theorem roundDiv_le_iff {num den n : Nat} (hden : 0 < den) :
    roundDiv num den ≤ n ↔
      2 * num < (2 * n + 1) * den ∨ 2 * num = (2 * n + 1) * den ∧ n % 2 = 0 := by
  have hdiv := Nat.div_add_mod num den
  have hmod := Nat.mod_lt num hden
  have hn : (2 * n + 1) * den = 2 * (n * den) + den := by ring
  rw [Nat.mul_comm] at hdiv
  rw [hn]
  have hbelow : n < num / den → n * den + den ≤ num / den * den := fun hlt => by
    rw [← Nat.succ_mul]
    exact Nat.mul_le_mul_right den hlt
  have habove : num / den < n → num / den * den + den ≤ n * den := fun hlt => by
    rw [← Nat.succ_mul]
    exact Nat.mul_le_mul_right den hlt
  have hparity := Nat.mod_two_eq_zero_or_one (num / den)
  unfold roundDiv
  rcases Nat.lt_trichotomy n (num / den) with hlt | rfl | hlt
  · have hle := hbelow hlt
    simp only
    split
    · omega
    · split <;> omega
  · simp only
    split
    · omega
    · split <;> omega
  · have hle := habove hlt
    simp only
    split
    · omega
    · split <;> omega

/-- **Rounding a quotient to an integer keeps the order.** -/
theorem roundDiv_mono {a b c d : Nat} (hb : 0 < b) (hd : 0 < d) (h : a * d ≤ c * b) :
    roundDiv a b ≤ roundDiv c d := by
  have hc := (roundDiv_le_iff hd).1 (Nat.le_refl (roundDiv c d))
  generalize roundDiv c d = n at hc
  rw [roundDiv_le_iff hb]
  have hstep : 2 * a * d ≤ 2 * c * b := by
    rw [Nat.mul_assoc, Nat.mul_assoc]
    exact Nat.mul_le_mul_left 2 h
  rcases hc with hc | ⟨hc, heven⟩
  · have hlt : 2 * a * d < (2 * n + 1) * b * d :=
      calc 2 * a * d ≤ 2 * c * b := hstep
        _ < (2 * n + 1) * d * b := Nat.mul_lt_mul_of_pos_right hc hb
        _ = (2 * n + 1) * b * d := Nat.mul_right_comm _ _ _
    exact .inl (Nat.lt_of_mul_lt_mul_right hlt)
  · have hle : 2 * a * d ≤ (2 * n + 1) * b * d :=
      calc 2 * a * d ≤ 2 * c * b := hstep
        _ = (2 * n + 1) * d * b := by rw [hc]
        _ = (2 * n + 1) * b * d := Nat.mul_right_comm _ _ _
    rcases Nat.lt_or_eq_of_le (Nat.le_of_mul_le_mul_right hle hd) with hlt | heq
    · exact .inl hlt
    · exact .inr ⟨heq, heven⟩

theorem roundDiv_le {num den n : Nat} (hden : 0 < den) (h : num ≤ n * den) :
    roundDiv num den ≤ n := by
  rw [roundDiv_le_iff hden]
  have hn : (2 * n + 1) * den = 2 * (n * den) + den := by ring
  exact .inl (by omega)

theorem le_roundDiv {num den n : Nat} (hden : 0 < den) (h : n * den ≤ num) :
    n ≤ roundDiv num den := by
  have hle : n ≤ num / den := (Nat.le_div_iff_mul_le hden).2 h
  unfold roundDiv
  simp only
  split
  · exact hle
  · split
    · exact Nat.le_succ_of_le hle
    · exact Nat.le_trans hle (Nat.le_add_right _ _)

theorem roundDiv_zero {den : Nat} (hden : 0 < den) : roundDiv 0 den = 0 :=
  Nat.le_zero.1 (roundDiv_le hden (by rw [Nat.zero_mul]))

namespace Binary64

variable {num den num' den' : Nat} {i i' e e' : Int}

/-! ## The power of two -/

theorem zpow_le_zpow {a b : Int} (h : a ≤ b) : (2 : ℚ) ^ a ≤ 2 ^ b :=
  zpow_le_zpow_right₀ (by norm_num) h

theorem two_zpow_pos (a : Int) : (0 : ℚ) < 2 ^ a := zpow_pos (by norm_num) a

theorem two_zpow_add (a b : Int) : (2 : ℚ) ^ (a + b) = 2 ^ a * 2 ^ b := zpow_add₀ (by norm_num) a b

theorem scale_snd_pos (n : Nat) (e : Int) : 0 < (scale n e).2 := by
  unfold scale
  split
  · exact Nat.one_pos
  · exact twoTo_pos _

/-- Numerator and denominator are those of a multiple of a power of two. -/
theorem scale_fst (n : Nat) (e : Int) :
    ((scale n e).1 : ℚ) = n * 2 ^ e * (scale n e).2 := by
  unfold scale
  split
  · rename_i he
    rw [Nat.cast_mul, cast_twoTo, ← zpow_natCast, Int.toNat_of_nonneg he, Nat.cast_one, mul_one]
  · rename_i he
    rw [cast_twoTo, ← zpow_natCast, Int.toNat_of_nonneg (by omega), mul_assoc, ← two_zpow_add,
      add_neg_cancel, zpow_zero, mul_one]

theorem scale_fst_pos (hden : den ≠ 0) (e : Int) : 0 < (scale den e).1 := by
  have hden : (0 : ℚ) < den := Nat.cast_pos.2 (Nat.pos_of_ne_zero hden)
  have hsnd : (0 : ℚ) < (scale den e).2 := Nat.cast_pos.2 (scale_snd_pos den e)
  have hpos := mul_pos (mul_pos hden (two_zpow_pos e)) hsnd
  rw [← scale_fst] at hpos
  exact Nat.cast_pos.1 hpos

/-- A quotient and a multiple of a power of two, as whole numbers over one positive factor. -/
theorem exists_factor (hden : den ≠ 0) (num m : Nat) (e : Int) :
    ∃ c : ℚ, 0 < c ∧ ((num * (scale den e).2 : Nat) : ℚ) = (num : ℚ) / den * c ∧
      ((m * (scale den e).1 : Nat) : ℚ) = (m : ℚ) * 2 ^ e * c := by
  have hden : (0 : ℚ) < den := Nat.cast_pos.2 (Nat.pos_of_ne_zero hden)
  have hsnd : (0 : ℚ) < (scale den e).2 := Nat.cast_pos.2 (scale_snd_pos den e)
  refine ⟨den * (scale den e).2, mul_pos hden hsnd, ?_, ?_⟩
  · rw [Nat.cast_mul, ← mul_assoc, div_mul_cancel₀ _ hden.ne']
  · rw [Nat.cast_mul, scale_fst]
    ring

/-- A comparison with a multiple of a power of two, without fractions. -/
theorem mul_scale_le_iff (hden : den ≠ 0) (m : Nat) (e : Int) :
    m * (scale den e).1 ≤ num * (scale den e).2 ↔ (m : ℚ) * 2 ^ e ≤ (num : ℚ) / den := by
  obtain ⟨c, hc, hnum, hm⟩ := exists_factor hden num m e
  rw [← Nat.cast_le (α := ℚ), hnum, hm, mul_le_mul_iff_left₀ hc]

theorem le_mul_scale_iff (hden : den ≠ 0) (m : Nat) (e : Int) :
    num * (scale den e).2 ≤ m * (scale den e).1 ↔ (num : ℚ) / den ≤ (m : ℚ) * 2 ^ e := by
  obtain ⟨c, hc, hnum, hm⟩ := exists_factor hden num m e
  rw [← Nat.cast_le (α := ℚ), hnum, hm, mul_le_mul_iff_left₀ hc]

theorem log2_bounds {n : Nat} (hn : n ≠ 0) :
    (2 : ℚ) ^ (Nat.log2 n : Int) ≤ n ∧ (n : ℚ) < 2 ^ ((Nat.log2 n : Int) + 1) := by
  constructor
  · rw [zpow_natCast]
    exact_mod_cast Nat.log2_self_le hn
  · have hlt : n < 2 ^ (Nat.log2 n + 1) := Nat.lt_log2_self
    exact_mod_cast hlt

/-- **With this power of two a quotient has 53 bits before the point**, or fewer if the power is the least
there is. -/
theorem exponentOf_spec (hnum : num ≠ 0) (hden : den ≠ 0) :
    (num : ℚ) / den < 2 ^ (exponentOf num den + 53) ∧
      (exponentOf num den = -1074 ∨ (2 : ℚ) ^ (exponentOf num den + 52) ≤ (num : ℚ) / den) ∧
      -1074 ≤ exponentOf num den := by
  obtain ⟨hnumLower, hnumUpper⟩ := log2_bounds hnum
  obtain ⟨hdenLower, hdenUpper⟩ := log2_bounds hden
  have hpos : (0 : ℚ) < den := Nat.cast_pos.2 (Nat.pos_of_ne_zero hden)
  unfold exponentOf
  simp only
  generalize hfirst : (Nat.log2 num : Int) - (Nat.log2 den : Int) - 53 = first
  have hlower : (2 : ℚ) ^ (first + 52) ≤ (num : ℚ) / den := by
    rw [le_div_iff₀ hpos]
    calc (2 : ℚ) ^ (first + 52) * den
        ≤ 2 ^ (first + 52) * 2 ^ ((Nat.log2 den : Int) + 1) :=
          mul_le_mul_of_nonneg_left hdenUpper.le (two_zpow_pos _).le
      _ = 2 ^ (Nat.log2 num : Int) := by rw [← two_zpow_add]; congr 1; omega
      _ ≤ num := hnumLower
  have hupper : (num : ℚ) / den < 2 ^ (first + 54) := by
    rw [div_lt_iff₀ hpos]
    calc (num : ℚ) < 2 ^ ((Nat.log2 num : Int) + 1) := hnumUpper
      _ = 2 ^ (first + 54) * 2 ^ (Nat.log2 den : Int) := by rw [← two_zpow_add]; congr 1; omega
      _ ≤ 2 ^ (first + 54) * den := mul_le_mul_of_nonneg_left hdenLower (two_zpow_pos _).le
  have htest : twoTo 53 * (scale den first).1 ≤ num * (scale den first).2 ↔
      (2 : ℚ) ^ (first + 53) ≤ (num : ℚ) / den := by
    rw [mul_scale_le_iff hden, cast_twoTo, add_comm, two_zpow_add]
    rfl
  have hspec : ∀ e : Int, (num : ℚ) / den < 2 ^ (e + 53) → (2 : ℚ) ^ (e + 52) ≤ (num : ℚ) / den →
      (num : ℚ) / den < 2 ^ (max e (-1074) + 53) ∧
        (max e (-1074) = -1074 ∨ (2 : ℚ) ^ (max e (-1074) + 52) ≤ (num : ℚ) / den) ∧
        -1074 ≤ max e (-1074) := by
    intro e hlt hle
    refine ⟨hlt.trans_le (zpow_le_zpow (by omega)), ?_, le_max_right _ _⟩
    rcases max_choice e (-1074) with hmax | hmax
    · exact .inr (hmax.symm ▸ hle)
    · exact .inl hmax
  split
  · rename_i hfull
    refine hspec (first + 1) ?_ ?_
    · rwa [add_assoc]
    · rw [add_assoc]
      exact htest.1 hfull
  · rename_i hsmall
    exact hspec first (lt_of_not_ge fun h => hsmall (htest.2 h)) hlower

theorem exponentOf_mono (hnum : num ≠ 0) (hden : den ≠ 0) (hnum' : num' ≠ 0) (hden' : den' ≠ 0)
    (h : (num : ℚ) / den ≤ (num' : ℚ) / den') : exponentOf num den ≤ exponentOf num' den' := by
  obtain ⟨-, hleast | hle, -⟩ := exponentOf_spec hnum hden
  · rw [hleast]
    exact (exponentOf_spec hnum' hden').2.2
  · have hlt := (hle.trans h).trans_lt (exponentOf_spec hnum' hden').1
    have hlt := (zpow_lt_zpow_iff_right₀ (by norm_num : (1 : ℚ) < 2)).1 hlt
    omega

/-! ## The rounded quotient -/

/-- The quotient rounded to a multiple of its power of two. -/
def mantissa (num den : Nat) : Nat :=
  roundDiv (num * (scale den (exponentOf num den)).2) (scale den (exponentOf num den)).1

/-- The rounded quotient, however large. -/
def nearest (num den : Nat) : ℚ := mantissa num den * 2 ^ exponentOf num den

theorem nearest_nonneg (num den : Nat) : 0 ≤ nearest num den :=
  mul_nonneg (Nat.cast_nonneg _) (two_zpow_pos _).le

theorem nearest_zero (hden : den ≠ 0) : nearest 0 den = 0 := by
  unfold nearest mantissa
  rw [Nat.zero_mul, roundDiv_zero (scale_fst_pos hden _), Nat.cast_zero, zero_mul]

theorem mantissa_le (hnum : num ≠ 0) (hden : den ≠ 0) : mantissa num den ≤ twoTo 53 := by
  refine roundDiv_le (scale_fst_pos hden _) ((le_mul_scale_iff hden _ _).2 ?_)
  have hlt := (exponentOf_spec hnum hden).1
  rw [add_comm, two_zpow_add] at hlt
  rw [cast_twoTo]
  exact hlt.le

theorem le_mantissa (hden : den ≠ 0)
    (h : (2 : ℚ) ^ (exponentOf num den + 52) ≤ (num : ℚ) / den) : twoTo 52 ≤ mantissa num den := by
  refine le_roundDiv (scale_fst_pos hden _) ((mul_scale_le_iff hden _ _).2 ?_)
  rw [add_comm, two_zpow_add] at h
  rw [cast_twoTo]
  exact h

/-- **Rounding keeps the order.** -/
theorem nearest_mono (hden : den ≠ 0) (hden' : den' ≠ 0)
    (h : (num : ℚ) / den ≤ (num' : ℚ) / den') : nearest num den ≤ nearest num' den' := by
  by_cases hnum : num = 0
  · rw [hnum, nearest_zero hden]
    exact nearest_nonneg num' den'
  · have hpos : (0 : ℚ) < den := Nat.cast_pos.2 (Nat.pos_of_ne_zero hden)
    have hpos' : (0 : ℚ) < den' := Nat.cast_pos.2 (Nat.pos_of_ne_zero hden')
    have hnum' : num' ≠ 0 := by
      rintro rfl
      have hquot : (0 : ℚ) < (num : ℚ) / den :=
        div_pos (Nat.cast_pos.2 (Nat.pos_of_ne_zero hnum)) hpos
      rw [Nat.cast_zero, zero_div] at h
      exact absurd h (not_le_of_gt hquot)
    unfold nearest
    rcases (exponentOf_mono hnum hden hnum' hden' h).lt_or_eq with hlt | heq
    · -- a power of two lies between the results
      obtain ⟨-, hleast | hle, -⟩ := exponentOf_spec hnum' hden'
      · have hge := (exponentOf_spec hnum hden).2.2
        omega
      · have hmantissa : (mantissa num den : ℚ) ≤ 2 ^ (53 : Int) := by
          exact_mod_cast mantissa_le hnum hden
        have hmantissa' : (2 : ℚ) ^ (52 : Int) ≤ mantissa num' den' := by
          exact_mod_cast le_mantissa hden' hle
        calc (mantissa num den : ℚ) * 2 ^ exponentOf num den
            ≤ 2 ^ (53 : Int) * 2 ^ exponentOf num den :=
              mul_le_mul_of_nonneg_right hmantissa (two_zpow_pos _).le
          _ = 2 ^ (53 + exponentOf num den) := (two_zpow_add _ _).symm
          _ ≤ 2 ^ (52 + exponentOf num' den') := zpow_le_zpow (by omega)
          _ = 2 ^ (52 : Int) * 2 ^ exponentOf num' den' := two_zpow_add _ _
          _ ≤ mantissa num' den' * 2 ^ exponentOf num' den' :=
              mul_le_mul_of_nonneg_right hmantissa' (two_zpow_pos _).le
    · rw [← heq]
      refine mul_le_mul_of_nonneg_right (Nat.cast_le.2 ?_) (two_zpow_pos _).le
      unfold mantissa
      rw [← heq]
      refine roundDiv_mono (scale_fst_pos hden _) (scale_fst_pos hden' _) ?_
      have hsnd : (0 : ℚ) < (scale den (exponentOf num den)).2 :=
        Nat.cast_pos.2 (scale_snd_pos _ _)
      have hsnd' : (0 : ℚ) < (scale den' (exponentOf num den)).2 :=
        Nat.cast_pos.2 (scale_snd_pos _ _)
      have hcross : (num : ℚ) * den' ≤ num' * den := (div_le_div_iff₀ hpos hpos').1 h
      rw [← Nat.cast_le (α := ℚ)]
      push_cast
      rw [scale_fst, scale_fst]
      calc (num : ℚ) * (scale den (exponentOf num den)).2 *
            (den' * 2 ^ exponentOf num den * (scale den' (exponentOf num den)).2)
          = num * den' * (2 ^ exponentOf num den * (scale den (exponentOf num den)).2 *
              (scale den' (exponentOf num den)).2) := by ring
        _ ≤ num' * den * (2 ^ exponentOf num den * (scale den (exponentOf num den)).2 *
              (scale den' (exponentOf num den)).2) :=
            mul_le_mul_of_nonneg_right hcross
              (mul_pos (mul_pos (two_zpow_pos _) hsnd) hsnd').le
        _ = (num' : ℚ) * (scale den' (exponentOf num den)).2 *
            (den * 2 ^ exponentOf num den * (scale den (exponentOf num den)).2) := by ring

/-! ## Signs and infinities -/

/-- The least value that is too large. -/
def overflow : ℚ := 2 ^ (1024 : Int)

theorem overflow_pos : 0 < overflow := two_zpow_pos 1024

/-- The place of a rounded value. -/
def clip (q : ℚ) : WithBot (WithTop ℚ) :=
  if q ≤ -overflow then ⊥ else if overflow ≤ q then ⊤ else ((q : ℚ) : WithTop ℚ)

theorem clip_mono {p q : ℚ} (h : p ≤ q) : clip p ≤ clip q := by
  unfold clip
  by_cases hp : p ≤ -overflow
  · rw [if_pos hp]
    exact bot_le
  · have hq : ¬q ≤ -overflow := fun hq => hp (h.trans hq)
    rw [if_neg hp, if_neg hq]
    by_cases hq' : overflow ≤ q
    · rw [if_pos hq']
      exact le_top
    · rw [if_neg fun hp' => hq' (hp'.trans h), if_neg hq']
      exact WithBot.coe_le_coe.2 (WithTop.coe_le_coe.2 h)

/-- The rounded quotient with a sign. -/
def signed (negative : Bool) (q : ℚ) : ℚ := if negative then -q else q

theorem clip_signed_of_le (n : Bool) {q : ℚ} (h : overflow ≤ q) :
    clip (signed n q) = if n then ⊥ else ⊤ := by
  have hpos := overflow_pos
  cases n with
  | true => exact if_pos (neg_le_neg h)
  | false =>
    have hneg : ¬q ≤ -overflow := by
      intro hle
      linarith
    exact (if_neg hneg).trans (if_pos h)

theorem clip_signed_of_lt (n : Bool) {q : ℚ} (hq : 0 ≤ q) (h : q < overflow) :
    clip (signed n q) = ((signed n q : ℚ) : WithTop ℚ) := by
  have hpos := overflow_pos
  unfold clip signed
  cases n with
  | true =>
    simp only [if_true]
    rw [if_neg (by linarith), if_neg (by linarith)]
  | false =>
    simp only [Bool.false_eq_true, if_false]
    rw [if_neg (by linarith), if_neg (by linarith)]

theorem rational_eq_signed (n : Bool) (m : Nat) (e : Int) :
    rational n m e = signed n (m * 2 ^ e) := by
  unfold rational signed
  cases n <;> simp [signedPart]

/-- A number with at most 53 bits is infinite from `2 ^ 1024` on. -/
theorem place?_clip (n : Bool) {m : Nat} {e : Int} (hm : m < twoTo 53)
    (hnormal : 971 < e → twoTo 52 ≤ m) :
    (if 971 < e then infinite n else finite n m e).place? = some (clip (signed n (m * 2 ^ e))) := by
  by_cases he : 971 < e
  · have hle : (2 : ℚ) ^ (52 : Int) ≤ m := by exact_mod_cast hnormal he
    have hlarge : overflow ≤ m * 2 ^ e :=
      calc overflow ≤ 2 ^ (52 + e) := zpow_le_zpow (by omega)
        _ = 2 ^ (52 : Int) * 2 ^ e := two_zpow_add _ _
        _ ≤ m * 2 ^ e := mul_le_mul_of_nonneg_right hle (two_zpow_pos _).le
    rw [if_pos he, clip_signed_of_le n hlarge]
    rfl
  · have hlt : (m : ℚ) < 2 ^ (53 : Int) := by exact_mod_cast hm
    have hsmall : (m : ℚ) * 2 ^ e < overflow :=
      calc (m : ℚ) * 2 ^ e < 2 ^ (53 : Int) * 2 ^ e := mul_lt_mul_of_pos_right hlt (two_zpow_pos _)
        _ = 2 ^ (53 + e) := (two_zpow_add _ _).symm
        _ ≤ overflow := zpow_le_zpow (by omega)
    rw [if_neg he, place?, rational_eq_signed,
      clip_signed_of_lt n (mul_nonneg (Nat.cast_nonneg _) (two_zpow_pos _).le) hsmall]

theorem ofRatio_of_full (n : Bool) (hnum : num ≠ 0) (h : mantissa num den = twoTo 53) :
    ofRatio n num den = if 971 < exponentOf num den + 1 then infinite n
      else finite n (twoTo 52) (exponentOf num den + 1) := by
  unfold mantissa at h
  unfold ofRatio
  rw [if_neg hnum]
  simp only [if_pos h]

theorem ofRatio_of_not_full (n : Bool) (hnum : num ≠ 0) (h : mantissa num den ≠ twoTo 53) :
    ofRatio n num den = if 971 < exponentOf num den then infinite n
      else finite n (mantissa num den) (exponentOf num den) := by
  unfold mantissa at h
  unfold ofRatio
  rw [if_neg hnum]
  simp only [if_neg h]
  rfl

/-- **The place of a quotient** is that of its rounded value. -/
theorem place?_ofRatio (n : Bool) (num : Nat) (hden : den ≠ 0) :
    (ofRatio n num den).place? = some (clip (signed n (nearest num den))) := by
  by_cases hnum : num = 0
  · have hzero := place?_clip n (m := 0) (e := -1074) (twoTo_pos 53) (fun h => absurd h (by decide))
    rw [ofRatio, if_pos hnum, hnum, nearest_zero hden]
    rwa [Nat.cast_zero, zero_mul] at hzero
  · unfold nearest
    by_cases hfull : mantissa num den = twoTo 53
    · have hvalue : ((mantissa num den : Nat) : ℚ) * 2 ^ exponentOf num den =
          (twoTo 52 : Nat) * 2 ^ (exponentOf num den + 1) := by
        rw [hfull, two_zpow_add, zpow_one, twoTo_succ 52]
        push_cast
        ring
      rw [ofRatio_of_full n hnum hfull, hvalue]
      exact place?_clip n (by decide) fun _ => Nat.le_refl _
    · have hnormal : 971 < exponentOf num den → twoTo 52 ≤ mantissa num den := fun he => by
        obtain ⟨-, hleast | hle, -⟩ := exponentOf_spec hnum hden
        · omega
        · exact le_mantissa hden hle
      rw [ofRatio_of_not_full n hnum hfull]
      exact place?_clip n (Nat.lt_of_le_of_ne (mantissa_le hnum hden) hfull) hnormal

/-! ## Sums -/

/-- The rounded value of a multiple of a power of two. -/
def nearestScaled (i e : Int) : ℚ :=
  signed (decide (i < 0)) (nearest (scale i.natAbs e).1 (scale i.natAbs e).2)

theorem place?_ofScaled (i e : Int) (z : Bool) :
    (ofScaled i e z).place? = some (clip (nearestScaled i e)) := by
  have hsnd : (scale i.natAbs e).2 ≠ 0 := Nat.pos_iff_ne_zero.1 (scale_snd_pos _ _)
  unfold ofScaled nearestScaled
  simp only
  rw [place?_ofRatio _ _ hsnd]
  by_cases hzero : i = 0
  · have hfst : (scale (0 : Int).natAbs e).1 = 0 := by
      have h := scale_fst 0 e
      rw [Nat.cast_zero, zero_mul, zero_mul] at h
      exact_mod_cast h
    subst hzero
    rw [hfst, nearest_zero hsnd]
    unfold signed
    simp
  · rw [if_neg hzero]

theorem scale_ratio (n : Nat) (e : Int) :
    ((scale n e).1 : ℚ) / (scale n e).2 = n * 2 ^ e := by
  have hsnd : ((scale n e).2 : ℚ) ≠ 0 := Nat.cast_ne_zero.2 (Nat.pos_iff_ne_zero.1 (scale_snd_pos n e))
  rw [scale_fst, mul_div_cancel_right₀ _ hsnd]

/-- Rounding a multiple of a power of two keeps the order. -/
theorem nearestScaled_mono (h : (i : ℚ) * 2 ^ e ≤ (i' : ℚ) * 2 ^ e') :
    nearestScaled i e ≤ nearestScaled i' e' := by
  have hsnd : ∀ n e, (scale n e).2 ≠ 0 := fun n e => Nat.pos_iff_ne_zero.1 (scale_snd_pos n e)
  have habs : ∀ j : Int, 0 ≤ j → (j.natAbs : ℚ) = j := fun j hj => by
    rw [← Int.cast_natCast, Int.natAbs_of_nonneg hj]
  have habs' : ∀ j : Int, j < 0 → (j.natAbs : ℚ) = -j := fun j hj => by
    rw [← Int.cast_natCast, Int.ofNat_natAbs_of_nonpos hj.le, Int.cast_neg]
  unfold nearestScaled signed
  by_cases hi : i < 0
  · rw [decide_eq_true hi, if_pos rfl]
    by_cases hi' : i' < 0
    · rw [decide_eq_true hi', if_pos rfl]
      refine neg_le_neg (nearest_mono (hsnd _ _) (hsnd _ _) ?_)
      rw [scale_ratio, scale_ratio, habs' i hi, habs' i' hi']
      linarith
    · rw [decide_eq_false hi', if_neg (by decide)]
      exact (neg_nonpos.2 (nearest_nonneg _ _)).trans (nearest_nonneg _ _)
  · rw [decide_eq_false hi, if_neg (by decide)]
    have hi' : ¬i' < 0 := by
      intro hi'
      have hneg : (i' : ℚ) * 2 ^ e' < 0 := mul_neg_of_neg_of_pos (by exact_mod_cast hi') (two_zpow_pos _)
      have hnonneg : 0 ≤ (i : ℚ) * 2 ^ e :=
        mul_nonneg (by exact_mod_cast not_lt.1 hi) (two_zpow_pos _).le
      linarith
    rw [decide_eq_false hi', if_neg (by decide)]
    refine nearest_mono (hsnd _ _) (hsnd _ _) ?_
    rwa [scale_ratio, scale_ratio, habs i (not_lt.1 hi), habs i' (not_lt.1 hi')]

theorem place?_add_finite (n₁ n₂ : Bool) (m₁ m₂ : Nat) (e₁ e₂ : Int) :
    ∃ i e : Int, ((finite n₁ m₁ e₁).add (finite n₂ m₂ e₂)).place? = some (clip (nearestScaled i e)) ∧
      (i : ℚ) * 2 ^ e = rational n₁ m₁ e₁ + rational n₂ m₂ e₂ := by
  refine ⟨_, min e₁ e₂, place?_ofScaled _ _ _, ?_⟩
  rw [Int.cast_add, add_mul, rational_scale n₁ m₁ (Int.min_le_left e₁ e₂),
    rational_scale n₂ m₂ (Int.min_le_right e₁ e₂)]

theorem place?_ofInt (i : Int) : (ofInt i).place? = some (clip (nearestScaled i 0)) := by
  have hscale : scale i.natAbs 0 = (i.natAbs, 1) := by
    rw [scale, if_pos (Int.le_refl 0)]
    exact Prod.ext (Nat.mul_one _) rfl
  unfold ofInt nearestScaled
  rw [place?_ofRatio _ _ Nat.one_ne_zero, hscale]

variable {x x' y : Binary64} {a b p : WithBot (WithTop ℚ)}

/-- Nothing else stands at the place of an infinity. -/
theorem eq_infinite_of_place? {n : Bool} (h : x.place? = (infinite n).place?) : x = infinite n := by
  cases x with
  | nan => cases h
  | finite n' m e => cases n <;> cases h
  | infinite n' => cases n <;> cases n' <;> first | rfl | cases h

/-- What is above negative infinity and not positive infinity is finite. -/
theorem eq_finite_of_place? (h : x.place? = some a) (hbot : x ≠ infinite true)
    (htop : x ≠ infinite false) : ∃ n m e, x = finite n m e := by
  cases x with
  | nan => cases h
  | finite n m e => exact ⟨n, m, e, rfl⟩
  | infinite n =>
    cases n with
    | true => exact absurd rfl hbot
    | false => exact absurd rfl htop

/-- Negative infinity stays itself in a sum, unless that is `nan`. -/
theorem eq_bot_of_place?_add (h : x = infinite true ∨ y = infinite true)
    (hp : (x.add y).place? = some p) : p = ⊥ := by
  rcases h with rfl | rfl
  · rcases y with _ | _ | _
    · exact (Option.some.inj hp).symm
    · rename_i n
      cases n with
      | true => exact (Option.some.inj hp).symm
      | false => cases hp
    · cases hp
  · rcases x with _ | _ | _
    · exact (Option.some.inj hp).symm
    · rename_i n
      cases n with
      | true => exact (Option.some.inj hp).symm
      | false => cases hp
    · cases hp

/-- Positive infinity stays itself in a sum with what is above negative infinity. -/
theorem place?_add_top (hx : x.place? = some a) (hy : y.place? = some b) (hxbot : x ≠ infinite true)
    (hybot : y ≠ infinite true) (h : x = infinite false ∨ y = infinite false) :
    (x.add y).place? = some ⊤ := by
  rcases h with rfl | rfl
  · by_cases htop : y = infinite false
    · rw [htop]
      rfl
    · obtain ⟨n, m, e, rfl⟩ := eq_finite_of_place? hy hybot htop
      rfl
  · by_cases htop : x = infinite false
    · rw [htop]
      rfl
    · obtain ⟨n, m, e, rfl⟩ := eq_finite_of_place? hx hxbot htop
      rfl

theorem place?_of_place?_add (hp : (x.add y).place? = some p) : ∃ b, y.place? = some b := by
  cases y with
  | nan => cases x <;> cases hp
  | finite n m e => exact ⟨_, rfl⟩
  | infinite n => exact ⟨_, rfl⟩

/-- **Sums keep the order.**  Only where the first is infinite with negative sign the second may be
`nan`. -/
theorem place?_add_mono (hx : x.place? = some a) (hx' : x'.place? = some b) (hab : a ≤ b)
    (hp : (x.add y).place? = some p) :
    p = ⊥ ∨ ∃ p', (x'.add y).place? = some p' ∧ p ≤ p' := by
  by_cases hbot : x = infinite true ∨ y = infinite true
  · exact .inl (eq_bot_of_place?_add hbot hp)
  · right
    obtain ⟨hxbot, hybot⟩ := not_or.1 hbot
    obtain ⟨d, hy⟩ := place?_of_place?_add hp
    have hxbot' : x' ≠ infinite true := by
      rintro rfl
      obtain rfl := Option.some.inj hx'
      obtain rfl := le_bot_iff.1 hab
      exact hxbot (eq_infinite_of_place? hx)
    by_cases htop : x' = infinite false ∨ y = infinite false
    · exact ⟨⊤, place?_add_top hx' hy hxbot' hybot htop, le_top⟩
    · obtain ⟨hxtop', hytop⟩ := not_or.1 htop
      have hxtop : x ≠ infinite false := by
        rintro rfl
        obtain rfl := Option.some.inj hx
        obtain rfl := top_le_iff.1 hab
        exact hxtop' (eq_infinite_of_place? hx')
      obtain ⟨n₁, m₁, e₁, rfl⟩ := eq_finite_of_place? hx hxbot hxtop
      obtain ⟨n₂, m₂, e₂, rfl⟩ := eq_finite_of_place? hx' hxbot' hxtop'
      obtain ⟨n₃, m₃, e₃, rfl⟩ := eq_finite_of_place? hy hybot hytop
      obtain ⟨i, e, hplace, hvalue⟩ := place?_add_finite n₁ n₃ m₁ m₃ e₁ e₃
      obtain ⟨i', e', hplace', hvalue'⟩ := place?_add_finite n₂ n₃ m₂ m₃ e₂ e₃
      obtain rfl := Option.some.inj (hplace.symm.trans hp)
      refine ⟨_, hplace', clip_mono (nearestScaled_mono ?_)⟩
      obtain rfl := Option.some.inj hx
      obtain rfl := Option.some.inj hx'
      have hle : rational n₁ m₁ e₁ ≤ rational n₂ m₂ e₂ :=
        WithTop.coe_le_coe.1 (WithBot.coe_le_coe.1 hab)
      rw [hvalue, hvalue']
      exact add_le_add_left hle _

end Binary64

namespace Number

/-- Whether a number is written as an integer. -/
def isInt : Number → Bool
  | int _ => true
  | float _ => false

variable {a b c x x' : Number}

theorem outlasts_of_place?
    (h : ∀ p, a.place? = some p → p = ⊥ ∨ ∃ p', b.place? = some p' ∧ p ≤ p') : b.Outlasts a := by
  intro now hnow
  obtain ⟨n, p, hn, hp, hlt⟩ := lt_iff.1 hnow
  rcases h p hp with rfl | ⟨p', hp', hle⟩
  · exact absurd hlt not_lt_bot
  · exact lt_iff.2 ⟨n, p', hn, hp', hlt.trans_le hle⟩

theorem toBinary64?_int {i : Int} {y : Binary64} (h : (int i).toBinary64? = some y) :
    y = Binary64.ofInt i := by
  unfold toBinary64? at h
  simp only at h
  split at h
  · cases h
  · exact (Option.some.inj h).symm

/-- **Sums keep the order of numbers that are written alike.** -/
theorem add?_outlasts (hkind : a.isInt = b.isInt) (hle : a.le b = true) (hx : a.add? c = some x)
    (hx' : b.add? c = some x') : x'.Outlasts x := by
  have hfloats : ∀ {y y' z : Binary64} {p q}, y.place? = some p → y'.place? = some q → p ≤ q →
      (float (y'.add z)).Outlasts (float (y.add z)) := fun hy hy' hpq =>
    outlasts_of_place? fun _ hp => Binary64.place?_add_mono hy hy' hpq hp
  obtain ⟨p, q, hp, hq, hpq⟩ := le_iff.1 hle
  cases a with
  | int i =>
    cases b with
    | float y' => cases hkind
    | int j =>
      have hij : i ≤ j := int_le_iff.1 hle
      cases c with
      | int d =>
        obtain rfl := Option.some.inj hx
        obtain rfl := Option.some.inj hx'
        exact outlasts_of_le (int_le_iff.2 (Int.add_le_add_right hij d))
      | float z =>
        unfold add? at hx hx'
        simp only at hx hx'
        cases hi : (int i).toBinary64? with
        | none => rw [hi] at hx; cases hx
        | some y =>
          cases hj : (int j).toBinary64? with
          | none => rw [hj] at hx'; cases hx'
          | some y' =>
            rw [hi] at hx
            rw [hj] at hx'
            obtain rfl := Option.some.inj hx
            obtain rfl := Option.some.inj hx'
            rw [toBinary64?_int hi, toBinary64?_int hj]
            refine hfloats (Binary64.place?_ofInt i) (Binary64.place?_ofInt j)
              (Binary64.clip_mono (Binary64.nearestScaled_mono ?_))
            rw [zpow_zero, mul_one, mul_one]
            exact_mod_cast hij
  | float y =>
    cases b with
    | int j => cases hkind
    | float y' =>
      unfold add? at hx hx'
      simp only at hx hx'
      cases hc : c.toBinary64? with
      | none => rw [hc] at hx; cases hx
      | some z =>
        rw [hc] at hx hx'
        obtain rfl := Option.some.inj hx
        obtain rfl := Option.some.inj hx'
        exact hfloats hp hq hpq

end Number

end Recurrence
