import Recurrence.Text.Blank
import Recurrence.Text.Decimal
import Recurrence.Text.Split
import Recurrence.Text.Uppercase

/-!
# Steady texts

Readers strip white space, turn letters into capitals and cut at separators before they look at a
text.  The texts that the library writes pass through all of this unchanged: they are made of
`isSteady` characters, the printed characters of ASCII up to the back quote, so that none of them is
a blank or a small letter.

* `strip_of_steady`, `upper_of_steady`: a steady text stays as it is
* `steady_decimal`, `steady_signed`: numerals are steady
* `splitOn_joinWith`, `cutAt_append`: pieces without the separator come back from the text that
  joins them
-/

namespace Recurrence.Text

/-- A printed character of ASCII that is no small letter. -/
def isSteady (c : Char) : Bool := 33 ≤ c.toNat && c.toNat ≤ 96

/-- A text of steady characters. -/
def Steady (s : List Char) : Prop := ∀ c ∈ s, isSteady c = true

instance (s : List Char) : Decidable (Steady s) :=
  decidable_of_iff (s.all isSteady = true) List.all_eq_true

theorem steady_nil : Steady [] := fun _ h => absurd h List.not_mem_nil

theorem steady_cons {c : Char} {s : List Char} (hc : isSteady c = true) (hs : Steady s) :
    Steady (c :: s) := by
  intro d hd
  rcases List.mem_cons.1 hd with rfl | hd
  · exact hc
  · exact hs d hd

theorem steady_append {s t : List Char} (hs : Steady s) (ht : Steady t) : Steady (s ++ t) := by
  intro c hc
  rcases List.mem_append.1 hc with hc | hc
  · exact hs c hc
  · exact ht c hc

theorem steady_joinWith {sep : Char} (hsep : isSteady sep = true) {ps : List (List Char)}
    (h : ∀ p ∈ ps, Steady p) : Steady (joinWith sep ps) := by
  induction ps with
  | nil => exact steady_nil
  | cons p ps ih =>
    have hp : Steady p := h p List.mem_cons_self
    cases ps with
    | nil => exact hp
    | cons q qs =>
      exact steady_append hp (steady_cons hsep (ih fun r hr => h r (List.mem_cons_of_mem _ hr)))

/-! ## Stripping and capitals -/

theorem isBlank_of_isSteady {c : Char} (h : isSteady c = true) : isBlank c = false := by
  simp only [isSteady, Bool.and_eq_true, decide_eq_true_eq] at h
  simp only [isBlank, Bool.or_eq_false_iff, Bool.and_eq_false_iff, decide_eq_false_iff_not,
    beq_eq_false_iff_ne]
  omega

theorem stripLeft_of_unblank {s : List Char} (h : ∀ c ∈ s, isBlank c = false) : stripLeft s = s := by
  cases s with
  | nil => rfl
  | cons c r =>
    have hc := h c List.mem_cons_self
    rw [stripLeft, List.dropWhile_cons_of_neg (by simp [hc])]

/-- A text without white space stays as it is. -/
theorem strip_of_unblank {s : List Char} (h : ∀ c ∈ s, isBlank c = false) : strip s = s := by
  have hr : ∀ c ∈ s.reverse, isBlank c = false := fun c hc => h c (List.mem_reverse.1 hc)
  have hl := stripLeft_of_unblank hr
  rw [stripLeft] at hl
  rw [strip, stripLeft_of_unblank h, stripRight, hl, List.reverse_reverse]

theorem stripLeft_of_steady {s : List Char} (h : Steady s) : stripLeft s = s :=
  stripLeft_of_unblank fun c hc => isBlank_of_isSteady (h c hc)

theorem strip_of_steady {s : List Char} (h : Steady s) : strip s = s :=
  strip_of_unblank fun c hc => isBlank_of_isSteady (h c hc)

theorem upperChar_of_isSteady {c : Char} (h : isSteady c = true) : upperChar c = [c] := by
  simp only [isSteady, Bool.and_eq_true, decide_eq_true_eq] at h
  have hlower : ¬(97 ≤ c.val ∧ c.val ≤ 122) := by
    rintro ⟨h1, -⟩
    have h2 : (97 : Nat) ≤ c.toNat := h1
    omega
  rw [upperChar_ascii (by omega)]
  exact congrArg (fun d => [d]) (dif_neg hlower)

theorem upper_of_steady {s : List Char} (h : Steady s) : upper s = s := by
  induction s with
  | nil => rfl
  | cons c r ih =>
    have hr : upper r = r := ih fun d hd => h d (List.mem_cons_of_mem _ hd)
    rw [upper] at hr ⊢
    rw [List.flatMap_cons, upperChar_of_isSteady (h c List.mem_cons_self), hr]
    rfl

/-! ## Numerals -/

theorem digit_of_mem_decimal {n : Nat} {c : Char} (h : c ∈ decimal n) :
    48 ≤ c.toNat ∧ c.toNat ≤ 57 :=
  Char.isDigit_iff_toNat.1 (Nat.isDigit_of_mem_toDigits (by decide) (by decide) h)

theorem digit_of_mem_padded {width n : Nat} {c : Char} (h : c ∈ padded width n) :
    48 ≤ c.toNat ∧ c.toNat ≤ 57 := by
  induction width generalizing n with
  | zero => exact absurd h List.not_mem_nil
  | succ w ih =>
    rcases List.mem_append.1 h with h | h
    · exact ih h
    · rw [List.mem_singleton.1 h, Nat.toNat_digitChar_of_lt_ten (Nat.mod_lt _ (by decide))]
      omega

theorem steady_of_digits {s : List Char} (h : ∀ c ∈ s, 48 ≤ c.toNat ∧ c.toNat ≤ 57) :
    Steady s := by
  intro c hc
  have := h c hc
  rw [isSteady, Bool.and_eq_true]
  exact ⟨decide_eq_true (by omega), decide_eq_true (by omega)⟩

theorem steady_decimal (n : Nat) : Steady (decimal n) :=
  steady_of_digits fun _ => digit_of_mem_decimal

theorem steady_signed (i : Int) : Steady (signed i) := by
  unfold signed
  split
  · exact steady_cons (by decide) (steady_decimal _)
  · exact steady_decimal _

/-! ## Separators -/

theorem splitOn_of_not_mem {sep : Char} {p : List Char} (h : sep ∉ p) : splitOn sep p = [p] := by
  induction p with
  | nil => rfl
  | cons c r ih =>
    have hc : c ≠ sep := fun he => h (he ▸ List.mem_cons_self)
    rw [splitOn, if_neg hc, ih fun hr => h (List.mem_cons_of_mem _ hr)]

theorem splitOn_append {sep : Char} {p : List Char} (h : sep ∉ p) (s : List Char) :
    splitOn sep (p ++ sep :: s) = p :: splitOn sep s := by
  induction p with
  | nil => rw [List.nil_append, splitOn, if_pos rfl]
  | cons c r ih =>
    have hc : c ≠ sep := fun he => h (he ▸ List.mem_cons_self)
    rw [List.cons_append, splitOn, if_neg hc, ih fun hr => h (List.mem_cons_of_mem _ hr)]

/-- **Splitting inverts joining** for pieces without the separator. -/
theorem splitOn_joinWith {sep : Char} {ps : List (List Char)} (hne : ps ≠ [])
    (h : ∀ p ∈ ps, sep ∉ p) : splitOn sep (joinWith sep ps) = ps := by
  induction ps with
  | nil => exact absurd rfl hne
  | cons p ps ih =>
    have hp : sep ∉ p := h p List.mem_cons_self
    cases ps with
    | nil => exact splitOn_of_not_mem hp
    | cons q qs =>
      rw [joinWith_cons sep p (List.cons_ne_nil q qs), splitOn_append hp,
        ih (List.cons_ne_nil q qs) fun r hr => h r (List.mem_cons_of_mem _ hr)]

theorem not_mem_joinWith {sep c : Char} (hc : c ≠ sep) {ps : List (List Char)}
    (h : ∀ p ∈ ps, c ∉ p) : c ∉ joinWith sep ps := by
  induction ps with
  | nil => exact List.not_mem_nil
  | cons p ps ih =>
    have hp : c ∉ p := h p List.mem_cons_self
    cases ps with
    | nil => exact hp
    | cons q qs =>
      intro hm
      rcases List.mem_append.1 hm with hm | hm
      · exact hp hm
      rcases List.mem_cons.1 hm with hm | hm
      · exact hc hm
      · exact ih (fun r hr => h r (List.mem_cons_of_mem _ hr)) hm

theorem cutAt_append {sep : Char} {p : List Char} (h : sep ∉ p) (s : List Char) :
    cutAt sep (p ++ sep :: s) = (p, some s) := by
  induction p with
  | nil => rw [List.nil_append, cutAt, if_pos rfl]
  | cons c r ih =>
    have hc : c ≠ sep := fun he => h (he ▸ List.mem_cons_self)
    rw [List.cons_append, cutAt, if_neg hc, ih fun hr => h (List.mem_cons_of_mem _ hr)]

end Recurrence.Text
