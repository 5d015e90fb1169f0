import Mathlib.Algebra.Field.Rat
import Mathlib.Algebra.Order.Field.Power
import Mathlib.Algebra.Order.Ring.Rat
import Mathlib.Order.Compare
import Mathlib.Order.WithBot
import Mathlib.Tactic.Ring
import Recurrence.Numeric.Number

/-!
# The order of numbers

Every number but `nan` has a place among the rationals and the two infinities (`Number.place?`).
Comparing two numbers is comparing their places, also if one of them is an integer and the other is
not (`Number.compare?_eq_some_iff`).  So the order is transitive (`Number.places_trans`), although an
integer may have no equal among the numbers in floating point.
-/

namespace Recurrence

namespace Binary64

/-- The value of a finite number. -/
def rational (negative : Bool) (m : Nat) (e : Int) : ℚ := (signedPart negative m : ℚ) * 2 ^ e

/-- The place of a number in the order. -/
def place? : Binary64 → Option (WithBot (WithTop ℚ))
  | finite n m e => some ((rational n m e : ℚ) : WithTop ℚ)
  | infinite n => some (if n then ⊥ else ⊤)
  | nan => none

theorem cast_twoTo (n : Nat) : ((twoTo n : Nat) : ℚ) = 2 ^ n := by
  unfold twoTo
  exact Nat.cast_pow 2 n

/-- The same value with a smaller exponent. -/
theorem rational_scale (n : Bool) (m : Nat) {e e' : Int} (h : e' ≤ e) :
    (signedPart n (m * twoTo (e - e').toNat) : ℚ) * 2 ^ e' = rational n m e := by
  have hpower : (2 : ℚ) ^ e = 2 ^ (e - e').toNat * 2 ^ e' := by
    rw [← zpow_natCast, Int.toNat_of_nonneg (by omega), ← zpow_add₀ (by norm_num)]
    congr 1
    omega
  unfold rational
  rw [hpower, ← mul_assoc]
  congr 1
  cases n <;> simp [signedPart, cast_twoTo]

/-- Over the smaller of the two exponents, the comparison is that of the values. -/
theorem compare_align (n₁ n₂ : Bool) (m₁ m₂ : Nat) (e₁ e₂ : Int) :
    compare (align n₁ m₁ e₁ n₂ m₂ e₂).1 (align n₁ m₁ e₁ n₂ m₂ e₂).2.1 =
      compare (rational n₁ m₁ e₁) (rational n₂ m₂ e₂) := by
  have hmono : StrictMono fun i : Int => (i : ℚ) * 2 ^ min e₁ e₂ := by
    intro i j h
    exact mul_lt_mul_of_pos_right (Int.cast_lt.2 h) (zpow_pos (by norm_num) _)
  rw [← cmp_eq_compare, ← cmp_eq_compare, ← rational_scale n₁ m₁ (Int.min_le_left e₁ e₂),
    ← rational_scale n₂ m₂ (Int.min_le_right e₁ e₂)]
  exact (hmono.cmp_map_eq _ _).symm

theorem compare_eq_iff_compares {α : Type} [LinearOrder α] {a b : α} {o : Ordering} :
    compare a b = o ↔ o.Compares a b := by
  rw [← cmp_eq_compare]
  exact ⟨fun h => h ▸ cmp_compares a b, Ordering.Compares.cmp_eq⟩

theorem compares_place {p q : ℚ} {o : Ordering} :
    o.Compares ((p : WithTop ℚ) : WithBot (WithTop ℚ)) ((q : WithTop ℚ) : WithBot (WithTop ℚ)) ↔
      o.Compares p q := by
  cases o <;> simp [Ordering.Compares]

theorem place_lt_top (p : ℚ) : ((p : WithTop ℚ) : WithBot (WithTop ℚ)) < ⊤ :=
  WithBot.coe_lt_coe.2 (WithTop.coe_lt_top p)

variable {x y : Binary64} {o : Ordering}

/-- Two numbers are compared as their places. -/
theorem compare?_eq_some_iff :
    x.compare? y = some o ↔ ∃ a b, x.place? = some a ∧ y.place? = some b ∧ o.Compares a b := by
  cases x with
  | nan => cases y <;> simp [compare?, place?]
  | infinite n =>
    cases y with
    | nan => simp [compare?, place?]
    | infinite n' => cases o <;> cases n <;> cases n' <;> simp [compare?, place?]
    | finite n' m e => cases o <;> cases n <;> simp [compare?, place?, place_lt_top]
  | finite n m e =>
    cases y with
    | nan => simp [compare?, place?]
    | infinite n' => cases o <;> cases n' <;> simp [compare?, place?, place_lt_top]
    | finite n' m' e' =>
      simp [compare?, place?, compare_align, compare_eq_iff_compares, compares_place]

end Binary64

namespace Number

/-- The place of a number in the order. -/
def place? : Number → Option (WithBot (WithTop ℚ))
  | int i => some ((i : ℚ) : WithTop ℚ)
  | float x => x.place?

theorem place?_exact (i : Int) : (exact i).place? = (int i).place? := by
  have hrational : Binary64.rational (decide (i < 0)) i.natAbs 0 = i := by
    have hsigned : Binary64.signedPart (decide (i < 0)) i.natAbs = i := by
      unfold Binary64.signedPart
      by_cases hneg : i < 0
      · rw [decide_eq_true hneg, if_pos rfl]
        show -(i.natAbs : Int) = i
        omega
      · rw [decide_eq_false hneg, if_neg (by decide)]
        show (i.natAbs : Int) = i
        omega
    rw [Binary64.rational, hsigned, zpow_zero, mul_one]
  rw [exact, Binary64.place?, hrational, place?]

variable {a b c : Number}

/-- Two numbers are compared as their places, one of them an integer or both. -/
theorem compare?_eq_some_iff {o : Ordering} :
    a.compare? b = some o ↔ ∃ x y, a.place? = some x ∧ b.place? = some y ∧ o.Compares x y := by
  cases a with
  | int i =>
    cases b with
    | int j =>
      have hcast : compare i j = compare (i : ℚ) (j : ℚ) := by
        rw [← cmp_eq_compare, ← cmp_eq_compare]
        exact (Int.cast_strictMono.cmp_map_eq i j).symm
      simp [compare?, place?, hcast, Binary64.compare_eq_iff_compares, Binary64.compares_place]
    | float y => rw [compare?, Binary64.compare?_eq_some_iff, place?_exact]; rfl
  | float x =>
    cases b with
    | int j => rw [compare?, Binary64.compare?_eq_some_iff, place?_exact]; rfl
    | float y => exact Binary64.compare?_eq_some_iff

theorem lt_iff : a.lt b = true ↔ ∃ x y, a.place? = some x ∧ b.place? = some y ∧ x < y := by
  rw [lt, beq_iff_eq, compare?_eq_some_iff]
  rfl

theorem le_iff : a.le b = true ↔ ∃ x y, a.place? = some x ∧ b.place? = some y ∧ x ≤ y := by
  rw [le, Bool.or_eq_true, beq_iff_eq, beq_iff_eq, compare?_eq_some_iff, compare?_eq_some_iff]
  constructor
  · rintro (⟨x, y, hx, hy, h⟩ | ⟨x, y, hx, hy, h⟩)
    · exact ⟨x, y, hx, hy, h.le⟩
    · exact ⟨x, y, hx, hy, h.le⟩
  · rintro ⟨x, y, hx, hy, h⟩
    exact h.lt_or_eq.imp (fun h => ⟨x, y, hx, hy, h⟩) fun h => ⟨x, y, hx, hy, h⟩

theorem int_le_iff {i j : Int} : (int i).le (int j) = true ↔ i ≤ j := by
  rw [le_iff]
  simp [place?]

/-- Two comparisons with one number in the middle, put together as those of the places are. -/
theorem places_trans {r r' r'' : WithBot (WithTop ℚ) → WithBot (WithTop ℚ) → Prop}
    (hab : ∃ x y, a.place? = some x ∧ b.place? = some y ∧ r x y)
    (hbc : ∃ y z, b.place? = some y ∧ c.place? = some z ∧ r' y z)
    (htrans : ∀ {x y z}, r x y → r' y z → r'' x z) :
    ∃ x z, a.place? = some x ∧ c.place? = some z ∧ r'' x z := by
  obtain ⟨x, y, hx, hy, hxy⟩ := hab
  obtain ⟨y', z, hy', hz, hyz⟩ := hbc
  rw [hy, Option.some.injEq] at hy'
  exact ⟨x, z, hx, hz, htrans hxy (hy' ▸ hyz)⟩

theorem le_trans (hab : a.le b = true) (hbc : b.le c = true) : a.le c = true :=
  le_iff.2 (places_trans (le_iff.1 hab) (le_iff.1 hbc) fun h h' => h.trans h')

/-- What can be compared is not `nan`. -/
theorem le_refl_of_le (h : a.le b = true) : a.le a = true := by
  obtain ⟨x, y, hx, -, -⟩ := le_iff.1 h
  exact le_iff.2 ⟨x, x, hx, hx, le_rfl⟩

/-- **What is earlier than a later time is earlier**, in whatever way the times are written. -/
theorem lt_of_le_of_lt (hab : a.le b = true) (hbc : b.lt c = true) : a.lt c = true :=
  lt_iff.2 (places_trans (le_iff.1 hab) (lt_iff.1 hbc) fun h h' => h.trans_lt h')

/-- What expires at `b` lives at least as long as what expires at `a`. -/
def Outlasts (b a : Number) : Prop := ∀ now : Number, now.lt a = true → now.lt b = true

theorem outlasts_of_le (h : a.le b = true) : b.Outlasts a := by
  intro now hnow
  exact lt_iff.2 (places_trans (lt_iff.1 hnow) (le_iff.1 h) fun h h' => h.trans_le h')

end Number

end Recurrence
