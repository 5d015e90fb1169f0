import Mathlib.Algebra.Group.Nat.Defs
import Recurrence.Proofs.Calendar.Instant
import Recurrence.Timestamp.IsoPrinter

/-!
# International time stamps tell instants apart

The fields of a stamp have a fixed width, and a fraction differs from the sign of an offset in its
first character.  So each field can be read off the text in its turn (`padded_append_inj`,
`isoFraction_append_inj`), and no two instants are written alike (`Instant.toIso_injective`).
-/

namespace Recurrence

namespace Text

theorem digitChar_inj {a b : Nat} (ha : a < 10) (hb : b < 10) (h : a.digitChar = b.digitChar) :
    a = b := by
  have hcode := congrArg Char.toNat h
  rw [Nat.toNat_digitChar_of_lt_ten ha, Nat.toNat_digitChar_of_lt_ten hb] at hcode
  omega

theorem padded_injective {width m n : Nat} (hm : m < 10 ^ width) (hn : n < 10 ^ width)
    (h : padded width m = padded width n) : m = n := by
  induction width generalizing m n with
  | zero => omega
  | succ width ih =>
    obtain ⟨hfront, hlast⟩ := List.append_inj h (by simp)
    have hdigit := digitChar_inj (Nat.mod_lt m (by decide)) (Nat.mod_lt n (by decide))
      (List.cons.inj hlast).1
    have hrest := ih (by omega) (by omega) hfront
    omega

/-- A field can be read off the front of a text. -/
theorem padded_append_inj {width m n : Nat} {r s : List Char} (hm : m < 10 ^ width)
    (hn : n < 10 ^ width) (h : padded width m ++ r = padded width n ++ s) : m = n ∧ r = s := by
  obtain ⟨hfront, hrest⟩ := List.append_inj h (by simp)
  exact ⟨padded_injective hm hn hfront, hrest⟩

end Text

open Text

theorem Date.isoChars_append_inj {d e : Date} {r s : List Char}
    (h : d.isoChars ++ r = e.isoChars ++ s) : d = e ∧ r = s := by
  have hd := d.day_le
  have he := e.day_le
  have hdm := d.month_le
  have hem := e.month_le
  have hdy := d.year_le
  have hey := e.year_le
  have hdl := daysInMonth_le d.year d.month
  have hel := daysInMonth_le e.year e.month
  simp only [isoChars, List.append_assoc, List.cons_append] at h
  obtain ⟨hyear, h⟩ := padded_append_inj (by omega) (by omega) h
  obtain ⟨hmonth, h⟩ := padded_append_inj (by omega) (by omega) (List.cons.inj h).2
  obtain ⟨hday, h⟩ := padded_append_inj (by omega) (by omega) (List.cons.inj h).2
  exact ⟨eq_of_fields hyear hmonth hday, h⟩

/-- The front of a stamp gives the second that holds the instant. -/
theorem Instant.isoSeconds_append_inj {t u : Instant} {r s : List Char}
    (h : t.isoSeconds ++ r = u.isoSeconds ++ s) : t.second = u.second ∧ r = s := by
  have htm := t.minute_lt
  have hum := u.minute_lt
  have hts := t.secondOfMinute_lt
  have hus := u.secondOfMinute_lt
  have hth := t.hour_lt
  have huh := u.hour_lt
  simp only [isoSeconds, List.append_assoc, List.cons_append] at h
  obtain ⟨hdate, h⟩ := Date.isoChars_append_inj h
  obtain ⟨hhour, h⟩ := padded_append_inj (by omega) (by omega) (List.cons.inj h).2
  obtain ⟨hminute, h⟩ := padded_append_inj (by omega) (by omega) (List.cons.inj h).2
  obtain ⟨hsecond, h⟩ := padded_append_inj (by omega) (by omega) (List.cons.inj h).2
  exact ⟨second_eq_of_fields hdate hhour hminute hsecond, h⟩

/-- A fraction ends where the sign of the offset stands. -/
theorem isoFraction_append_inj {m n : Nat} {r s : List Char} (hm : m < 10 ^ 6) (hn : n < 10 ^ 6)
    (h : isoFraction m ++ '+' :: r = isoFraction n ++ '+' :: s) : m = n := by
  unfold isoFraction at h
  by_cases hm0 : m = 0
  · by_cases hn0 : n = 0
    · rw [hm0, hn0]
    · rw [if_pos hm0, if_neg hn0] at h
      exact absurd (List.cons.inj h).1 (by decide)
  · by_cases hn0 : n = 0
    · rw [if_neg hm0, if_pos hn0] at h
      exact absurd (List.cons.inj h).1 (by decide)
    · rw [if_neg hm0, if_neg hn0, List.cons_append, List.cons_append] at h
      exact (padded_append_inj hm hn (List.cons.inj h).2).1

/-- **No two instants are written alike.** -/
theorem Instant.toIso_injective {t u : Instant} (h : t.toIso = u.toIso) : t = u := by
  have hchars : (Stamp.ofInstant t).isoChars = (Stamp.ofInstant u).isoChars := String.ofList_injective h
  simp only [Stamp.isoChars, Stamp.ofInstant, List.append_assoc] at hchars
  obtain ⟨hsecond, hrest⟩ := Instant.isoSeconds_append_inj hchars
  have ht : t.microOfSecond < 10 ^ 6 := Nat.mod_lt _ (by decide)
  have hu : u.microOfSecond < 10 ^ 6 := Nat.mod_lt _ (by decide)
  exact eq_of_second_of_microOfSecond hsecond (isoFraction_append_inj ht hu hrest)

end Recurrence
