import Recurrence.Proofs.Timestamp.Compact
import Recurrence.Timestamp.Iso
import Recurrence.Timestamp.IsoPrinter

/-!
# International time stamps read back

`Instant.zuluChars` writes fields of fixed width with a separator behind each of them.  The reader finds
the end of the date by its length (`dateLength_isoChars`), the end of the time of day by the sign of the
offset (`readTime?_append`), and between the two takes pairs of digits as long as colons follow
(`readPairs?_colon`).  A fraction of three digits is brought to six (`readFraction?_zuluFraction`).

The final `Z` counts as an offset of zero, so that an instant is read back from its text, to the
microsecond (`Instant.ofIso_toZulu`).
-/

namespace Recurrence

open Text

namespace Iso

/-! ## Numbers of fixed width -/

theorem asciiDigit?_digitChar {d : Nat} (h : d < 10) : asciiDigit? d.digitChar = some d := by
  have hc := Nat.toNat_digitChar_of_lt_ten h
  rw [asciiDigit?, if_pos (by omega), hc, Nat.add_sub_cancel_left]

theorem number?_concat (s : List Char) (c : Char) :
    number? (s ++ [c]) =
      match number? s, asciiDigit? c with
      | some n, some d => some (10 * n + d)
      | _, _ => none := by
  rw [number?, List.foldl_append]
  rfl

/-- **A number is read back from a field that is wide enough.** -/
theorem number?_padded {width n : Nat} (h : n < 10 ^ width) : number? (padded width n) = some n := by
  induction width generalizing n with
  | zero =>
    rw [Nat.lt_one_iff.1 h]
    rfl
  | succ width ih =>
    have hfront : n / 10 < 10 ^ width := by omega
    have hn : 10 * (n / 10) + n % 10 = n := Nat.div_add_mod n 10
    simp only [padded, number?_concat, ih hfront, asciiDigit?_digitChar (Nat.mod_lt n (by decide)), hn]

/-! ## The date -/

section Hyphens

variable {a b c d e f g h : Char}

theorem dateLength_of_hyphens (he : e ≠ 'W') (rest : List Char) :
    dateLength (a :: b :: c :: d :: '-' :: e :: f :: '-' :: g :: h :: rest) = 10 := by
  simp [dateLength, he]

theorem readDate?_of_hyphens (he : e ≠ 'W') :
    readDate? [a, b, c, d, '-', e, f, '-', g, h] = dateOf? [a, b, c, d] [e, f] [g, h] := by
  simp [readDate?, he]

end Hyphens

/-- Month and day of a date fit in fields of two digits. -/
theorem fields_lt_hundred (d : Date) : d.month < 100 ∧ d.day < 100 :=
  ⟨Nat.lt_of_le_of_lt d.month_le (by decide),
    Nat.lt_of_le_of_lt (Nat.le_trans d.day_le (daysInMonth_le _ _)) (by decide)⟩

theorem digitChar_month_ne (d : Date) : (d.month / 10).digitChar ≠ 'W' := by
  have hletter : ∀ n, n < 10 → n.digitChar ≠ 'W' := by decide
  have hmonth := (fields_lt_hundred d).1
  exact hletter _ (by omega)

/-- A date that is written has ten characters. -/
theorem dateLength_isoChars (d : Date) (rest : List Char) : dateLength (d.isoChars ++ rest) = 10 := by
  obtain ⟨hmonth, hday⟩ := fields_lt_hundred d
  rw [Date.isoChars, List.append_assoc, List.append_assoc, List.cons_append, List.cons_append,
    padded_two hmonth, padded_two hday, padded_four]
  exact dateLength_of_hyphens (digitChar_month_ne d) rest

/-- **A date is read back from its text.** -/
theorem readDate?_isoChars (d : Date) : readDate? d.isoChars = some d := by
  obtain ⟨hmonth, hday⟩ := fields_lt_hundred d
  have hmonthChars := padded_two hmonth []
  have hdayChars := padded_two hday []
  rw [List.append_nil] at hmonthChars hdayChars
  have hread : readDate? d.isoChars =
      dateOf? (padded 4 d.year) (padded 2 d.month) (padded 2 d.day) := by
    rw [Date.isoChars, hmonthChars, hdayChars]
    exact readDate?_of_hyphens (digitChar_month_ne d)
  rw [hread, dateOf?, number?_padded (Nat.lt_of_le_of_lt d.year_le (by decide)),
    number?_padded hmonth, number?_padded hday]
  exact d.of?_fields

/-! ## The time of day -/

section Pairs

variable {left n : Nat} {colons : Option Bool} {r : List Char}

/-- A pair of digits with a colon behind it, where colons are not ruled out. -/
theorem readPairs?_colon {found : List Nat × Tail} (hn : n < 100) (hcolons : colons ≠ some false)
    (hr : r ≠ []) (h : readPairs? left (some true) r = some found) :
    readPairs? (left + 1) colons (padded 2 n ++ ':' :: r) = some (n :: found.1, found.2) := by
  obtain ⟨c, r, rfl⟩ := List.exists_cons_of_ne_nil hr
  have hvalue : 10 * (n / 10) + n % 10 = n := Nat.div_add_mod n 10
  have hgoes : colons.getD true = true := by
    rcases colons with _ | _ | _
    · rfl
    · exact absurd rfl hcolons
    · rfl
  rw [padded_two hn]
  simp only [readPairs?, asciiDigit?_digitChar (show n / 10 < 10 by omega),
    asciiDigit?_digitChar (Nat.mod_lt n (show 0 < 10 by decide)), beq_self_eq_true, hgoes, hvalue,
    Bool.and_self, if_true, h, Option.map_some]

/-- A pair of digits with a decimal point behind it. -/
theorem readPairs?_point (hn : n < 100) (hr : r ≠ []) :
    readPairs? (left + 1) colons (padded 2 n ++ '.' :: r) = some ([n], .fraction r) := by
  obtain ⟨c, r, rfl⟩ := List.exists_cons_of_ne_nil hr
  have hvalue : 10 * (n / 10) + n % 10 = n := Nat.div_add_mod n 10
  rw [padded_two hn]
  simp [readPairs?, asciiDigit?_digitChar (show n / 10 < 10 by omega),
    asciiDigit?_digitChar (Nat.mod_lt n (show 0 < 10 by decide)), hvalue]

/-- Hours, minutes and seconds with colons between them and a fraction behind. -/
theorem readClock?_of_fraction {hour minute second micro : Nat} {isOver : Bool} (hhour : hour < 100)
    (hminute : minute < 100) (hsecond : second < 100) (hr : r ≠ [])
    (hfraction : readFraction? r = some (micro, isOver)) :
    readClock? (padded 2 hour ++ ':' :: (padded 2 minute ++ ':' :: (padded 2 second ++ '.' :: r))) =
      some (⟨hour, minute, second, micro⟩, isOver) := by
  have hpairs : readPairs? 3 none
      (padded 2 hour ++ ':' :: (padded 2 minute ++ ':' :: (padded 2 second ++ '.' :: r))) =
        some ([hour, minute, second], .fraction r) :=
    readPairs?_colon hhour (by simp) (by simp)
      (readPairs?_colon hminute (by simp) (by simp) (readPairs?_point hsecond hr))
  simp only [readClock?, hpairs, hfraction, Option.map_some]
  rfl

end Pairs

/-- The digits of a fraction in milliseconds or, where it needs them, microseconds. -/
def zuluFraction (micro : Nat) : List Char :=
  if micro % 1000 = 0 then padded 3 (micro / 1000) else padded 6 micro

theorem digit_of_mem_zuluFraction {micro : Nat} {c : Char} (h : c ∈ zuluFraction micro) :
    48 ≤ c.toNat ∧ c.toNat ≤ 57 := by
  unfold zuluFraction at h
  split at h
  · exact digit_of_mem_padded h
  · exact digit_of_mem_padded h

theorem zuluFraction_ne_nil (micro : Nat) : zuluFraction micro ≠ [] := by
  unfold zuluFraction
  split
  · exact List.ne_nil_of_length_pos (by simp)
  · exact List.ne_nil_of_length_pos (by simp)

/-- The digits of a fraction count from the decimal point on. -/
theorem readFraction?_padded {width n : Nat} (hwidth : width ≤ 6) (hn : n < 10 ^ width) :
    readFraction? (padded width n) = some (n * tenTo (6 - width), true) := by
  have htake : (padded width n).take 6 = padded width n := List.take_of_length_le (by simpa)
  have hdrop : (padded width n).drop 6 = [] := List.drop_eq_nil_of_le (by simpa)
  simp only [readFraction?, htake, hdrop, number?_padded hn, length_padded]
  rfl

theorem readFraction?_zuluFraction {micro : Nat} (h : micro < 1000000) :
    readFraction? (zuluFraction micro) = some (micro, true) := by
  unfold zuluFraction
  by_cases hmilli : micro % 1000 = 0
  · have hvalue : micro / 1000 * tenTo (6 - 3) = micro := by
      show micro / 1000 * 1000 = micro
      omega
    rw [if_pos hmilli, readFraction?_padded (by decide) (by omega), hvalue]
  · have hvalue : micro * tenTo (6 - 6) = micro := Nat.mul_one micro
    rw [if_neg hmilli, readFraction?_padded (by decide) h, hvalue]

/-- A time of day is read up to the sign of the offset. -/
theorem readTime?_append {clock s : List Char} {c : Clock} {isOver : Bool} {o : Offset}
    (hclock : ∀ d ∈ clock, isZoneMark d = false) (hread : readClock? clock = some (c, isOver))
    (hoffset : readOffset? false s = some o) :
    readTime? (clock ++ '+' :: s) = some (c, some o) := by
  have hplain : ∀ d ∈ clock, (!isZoneMark d) = true := fun d hd => by rw [hclock d hd]; rfl
  have htake : (clock ++ '+' :: s).takeWhile (!isZoneMark ·) = clock := by
    rw [List.takeWhile_append_of_pos hplain, List.takeWhile_cons_of_neg (by decide), List.append_nil]
  have hdrop : (clock ++ '+' :: s).dropWhile (!isZoneMark ·) = '+' :: s := by
    rw [List.dropWhile_append_of_pos hplain, List.dropWhile_cons_of_neg (by decide)]
  simp only [readTime?, htake, hdrop, hread, hoffset, Option.map_some]

end Iso

namespace Instant

open Iso

variable (t : Instant)

/-- The time of day of a stamp, without its final letter. -/
def zuluClock : List Char :=
  padded 2 t.hour ++ ':' :: (padded 2 t.minute ++ ':' :: (padded 2 t.secondOfMinute ++
    '.' :: zuluFraction t.microOfSecond))

theorem zuluChars_eq : t.zuluChars = t.date.isoChars ++ 'T' :: (t.zuluClock ++ ['Z']) := by
  simp only [zuluChars, isoSeconds, zuluClock, zuluFraction, List.append_assoc, List.cons_append]

theorem mem_zuluClock {c : Char} (h : c ∈ t.zuluClock) :
    (48 ≤ c.toNat ∧ c.toNat ≤ 57) ∨ c = ':' ∨ c = '.' := by
  simp only [zuluClock, List.mem_append, List.mem_cons] at h
  rcases h with h | rfl | h | rfl | h | rfl | h
  · exact .inl (digit_of_mem_padded h)
  · exact .inr (.inl rfl)
  · exact .inl (digit_of_mem_padded h)
  · exact .inr (.inl rfl)
  · exact .inl (digit_of_mem_padded h)
  · exact .inr (.inr rfl)
  · exact .inl (digit_of_mem_zuluFraction h)

theorem steady_zuluChars : Steady t.zuluChars := by
  have hdigits : ∀ width n, Steady (padded width n) := fun _ _ =>
    steady_of_digits fun _ => digit_of_mem_padded
  have hdate : Steady t.date.isoChars :=
    steady_append (steady_append (hdigits 4 _) (steady_cons (by decide) (hdigits 2 _)))
      (steady_cons (by decide) (hdigits 2 _))
  have hclock : Steady t.zuluClock := by
    intro c hc
    rcases t.mem_zuluClock hc with h | rfl | rfl
    · exact steady_of_digits (s := [c]) (by simpa using h) c List.mem_cons_self
    · decide
    · decide
  rw [zuluChars_eq]
  exact steady_append hdate (steady_cons (by decide) (steady_append hclock (by decide)))

theorem body_zuluChars :
    body t.zuluChars = t.date.isoChars ++ 'T' :: (t.zuluClock ++ ['+', '0', '0', ':', '0', '0']) := by
  have hchars : t.zuluChars = (t.date.isoChars ++ 'T' :: t.zuluClock) ++ ['Z'] := by
    rw [zuluChars_eq, List.append_assoc, List.cons_append]
  have hlast : t.zuluChars.getLast? = some 'Z' := by rw [hchars, List.getLast?_concat]
  simp only [body, strip_of_steady t.steady_zuluChars, hlast]
  rw [hchars, List.dropLast_concat, List.append_assoc, List.cons_append]

theorem readTime?_zuluClock :
    readTime? (t.zuluClock ++ ['+', '0', '0', ':', '0', '0']) =
      some (⟨t.hour, t.minute, t.secondOfMinute, t.microOfSecond⟩, some Offset.zero) := by
  have hmark : ∀ c ∈ t.zuluClock, isZoneMark c = false := by
    intro c hc
    rcases t.mem_zuluClock hc with h | rfl | rfl
    · have hne : ∀ d : Char, 57 < d.toNat ∨ d.toNat < 48 → c ≠ d := by
        rintro d hd rfl
        omega
      simp [isZoneMark, hne '+' (by decide), hne '-' (by decide), hne 'Z' (by decide)]
    · rfl
    · rfl
  have hhour := t.hour_lt
  have hminute := t.minute_lt
  have hsecond := t.secondOfMinute_lt
  have hfraction : readFraction? (zuluFraction t.microOfSecond) = some (t.microOfSecond, true) :=
    readFraction?_zuluFraction (Nat.mod_lt _ (by decide))
  have hclock : readClock? t.zuluClock =
      some (⟨t.hour, t.minute, t.secondOfMinute, t.microOfSecond⟩, true) :=
    readClock?_of_fraction (by omega) (by omega) (by omega) (zuluFraction_ne_nil _) hfraction
  exact readTime?_append hmark hclock rfl

/-- The stamp with the fields of an instant. -/
theorem stampOf?_fields (offset : Option Offset) :
    stampOf? t.date ⟨t.hour, t.minute, t.secondOfMinute, t.microOfSecond⟩ offset =
      some ⟨t, offset⟩ := by
  have htime : Clock.micros ⟨t.hour, t.minute, t.secondOfMinute, t.microOfSecond⟩ = t.timeOfDay := by
    simp only [Clock.micros, Clock.seconds, t.secondOfDay_eq, t.microOfSecond_eq]
    exact Nat.div_add_mod' _ _
  have hfit : Clock.micros ⟨t.hour, t.minute, t.secondOfMinute, t.microOfSecond⟩ < microsPerDay ∧
      t.minute < 60 ∧ t.secondOfMinute < 60 :=
    ⟨htime ▸ t.timeOfDay_lt, t.minute_lt, t.secondOfMinute_lt⟩
  rw [stampOf?, dif_pos hfit]
  refine congrArg (fun u => some (Stamp.mk u offset)) (eq_of_day_of_timeOfDay ?_ ?_)
  · rw [day_ofDay, toDay_date]
  · rw [timeOfDay_ofDay, htime]

/-- **An instant is read back from its text**, to the microsecond. -/
theorem ofIso_toZulu : ofIso t.toZulu = .ok t := by
  have hten : t.date.isoChars.length = 10 := by simp [Date.isoChars]
  have hread : Stamp.ofIso? t.toZulu = some (Stamp.ofInstant t) := by
    rw [Stamp.ofIso?, toZulu, String.toList_ofList, body_zuluChars]
    simp only [read?, dateLength_isoChars, List.take_left' hten, List.drop_left' hten,
      readDate?_isoChars, readTime?_zuluClock, stampOf?_fields]
    rfl
  rw [ofIso, hread]
  exact Stamp.utc_ofInstant t

end Instant

end Recurrence
