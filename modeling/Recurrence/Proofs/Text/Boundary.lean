import Mathlib.Data.List.TakeWhile
import Recurrence.Proofs.Text.Numeral

/-!
# Where the parts of a text end

Texts that are written one after the other can be told apart in three ways: the first is a word, and no
word begins with another one (`PrefixFree.append_inj`); it is a run of characters of one kind, such as a
numeral, and none of them follows it (`takeWhile_run`, `decimal_append_inj`); or a separator stands
between them that the second does not have (`append_cons_inj`).
-/

namespace Recurrence.Text

variable {α : Type} {r s x y : List Char} {sep : Char}

/-! ## Words -/

/-- No word begins with the word of something else. -/
def PrefixFree (word : α → List Char) : Prop := ∀ a b, word a <+: word b → a = b

/-- **A word can be read off the front of a text.** -/
theorem PrefixFree.append_inj {word : α → List Char} (hfree : PrefixFree word) {a b : α}
    (h : word a ++ r = word b ++ s) : a = b ∧ r = s := by
  have hab : a = b := by
    have ha : word a <+: word a ++ r := List.prefix_append _ r
    have hb : word b <+: word a ++ r := h ▸ List.prefix_append _ s
    rcases List.prefix_or_prefix_of_prefix ha hb with hab | hba
    · exact hfree a b hab
    · exact (hfree b a hba).symm
  subst hab
  exact ⟨rfl, List.append_cancel_left h⟩

/-! ## Runs -/

section Runs

variable {p : α → Bool} {run rest : List α}

/-- **A run of one kind is taken off the front of a text**, as far as it goes. -/
theorem takeWhile_run (hrun : ∀ x ∈ run, p x = true) (hrest : ∀ x ∈ rest.head?, p x = false) :
    (run ++ rest).takeWhile p = run := by
  rw [List.takeWhile_append_of_pos hrun]
  cases rest with
  | nil => rw [List.takeWhile_nil, List.append_nil]
  | cons x rest =>
    rw [List.takeWhile_cons_of_neg (Bool.eq_false_iff.1 (hrest x rfl)), List.append_nil]

theorem dropWhile_run (hrun : ∀ x ∈ run, p x = true) (hrest : ∀ x ∈ rest.head?, p x = false) :
    (run ++ rest).dropWhile p = rest := by
  rw [List.dropWhile_append_of_pos hrun]
  cases rest with
  | nil => rfl
  | cons x rest => exact List.dropWhile_cons_of_neg (Bool.eq_false_iff.1 (hrest x rfl))

end Runs

/-! ## Numerals -/

/-- A text that does not go on with a digit. -/
def EndsNumeral (s : List Char) : Prop := ∀ c ∈ s.head?, c.isDigit = false

theorem endsNumeral_cons {c : Char} (h : c.isDigit = false) (s : List Char) : EndsNumeral (c :: s) := by
  rintro _ ⟨⟩
  exact h

theorem takeWhile_isDigit_decimal (n : Nat) (h : EndsNumeral s) :
    (decimal n ++ s).takeWhile Char.isDigit = decimal n := by
  have hdigits : ∀ c ∈ decimal n, c.isDigit = true :=
    fun c hc => Char.isDigit_iff_toNat.2 (digit_of_mem_decimal hc)
  exact takeWhile_run hdigits h

theorem not_endsNumeral_decimal (n : Nat) (s : List Char) : ¬EndsNumeral (decimal n ++ s) := by
  intro h
  cases hdigits : decimal n with
  | nil => exact Nat.toDigits_ne_nil hdigits
  | cons d rest =>
    have hdigit : d.isDigit = true :=
      Char.isDigit_iff_toNat.2 (digit_of_mem_decimal (n := n) (hdigits ▸ List.mem_cons_self))
    rw [hdigits] at h
    exact absurd ((h d rfl).symm.trans hdigit) nofun

/-- **A numeral can be read off the front of a text** if no digit follows it. -/
theorem decimal_append_inj {m n : Nat} (hr : EndsNumeral r) (hs : EndsNumeral s)
    (h : decimal m ++ r = decimal n ++ s) : m = n ∧ r = s := by
  have hmn : decimal m = decimal n := by
    rw [← takeWhile_isDigit_decimal m hr, h, takeWhile_isDigit_decimal n hs]
  refine ⟨decimal_injective hmn, ?_⟩
  rw [hmn] at h
  exact List.append_cancel_left h

/-! ## Separators -/

/-- **The last separator of a text** parts it, whatever stands before it. -/
theorem append_cons_inj (hr : sep ∉ r) (hs : sep ∉ s) (h : x ++ sep :: r = y ++ sep :: s) :
    x = y ∧ r = s := by
  -- If one front were longer, it would reach over the separator, and the other back would have it.
  rcases List.append_eq_append_iff.1 h with ⟨m, hy, hm⟩ | ⟨m, hx, hm⟩
  · cases m with
    | nil => exact ⟨by rw [hy, List.append_nil], (List.cons.inj hm).2⟩
    | cons c m =>
      have hmem : sep ∈ r := by
        rw [(List.cons.inj hm).2]
        exact List.mem_append_right m List.mem_cons_self
      exact absurd hmem hr
  · cases m with
    | nil => exact ⟨by rw [hx, List.append_nil], (List.cons.inj hm).2.symm⟩
    | cons c m =>
      have hmem : sep ∈ s := by
        rw [(List.cons.inj hm).2]
        exact List.mem_append_right m List.mem_cons_self
      exact absurd hmem hs

end Recurrence.Text
