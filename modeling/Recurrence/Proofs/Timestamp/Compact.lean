import Recurrence.Proofs.Calendar.Instant
import Recurrence.Proofs.Text.Numeral
import Recurrence.Timestamp.Compact

/-!
# Compact time stamps read back

`Instant.compactChars` writes fields of fixed width, while `Compact.read?` takes the first of all
readings in which a field may also be a single digit.  On two digits the preferred reading of each
field takes both (`head?_month`, `head?_day`, …), so that the first reading of the whole text is the
one into the fields that were written, and `read?_compactChars` gives back the second of the
instant.

`compactChars_instant_second` says that the text depends on the second alone.
-/

namespace Recurrence

open Text

namespace Instant

/-- The compact text depends on the second only. -/
theorem compactChars_instant_second (t : Instant) :
    t.second.instant.compactChars = t.compactChars := by
  simp only [compactChars, date_instant_second, hour_instant_second, minute_instant_second,
    secondOfMinute_instant_second]

end Instant

/-! ## The first reading of a field -/

namespace Text

theorem padded_two {n : Nat} (h : n < 100) (rest : List Char) :
    padded 2 n ++ rest = (n / 10).digitChar :: (n % 10).digitChar :: rest := by
  have hd : n / 10 % 10 = n / 10 := Nat.mod_eq_of_lt (by omega)
  simp only [padded, hd, List.nil_append, List.cons_append]

theorem padded_four (n : Nat) (rest : List Char) :
    padded 4 n ++ rest = (n / 10 / 10 / 10 % 10).digitChar :: (n / 10 / 10 % 10).digitChar ::
      (n / 10 % 10).digitChar :: (n % 10).digitChar :: rest := rfl

end Text

namespace Compact

theorem plain_digitChar {lo hi d : Nat} (hd : d < 10) :
    plain lo hi d.digitChar = if lo ≤ d ∧ d ≤ hi then some d else none := by
  have hc := Nat.toNat_digitChar_of_lt_ten hd
  simp only [plain, hc, Nat.add_sub_cancel_left, Nat.add_le_add_iff_left]

theorem pair_digitChar {tens units : Char → Option Nat} {a b x y : Nat} (rest : List Char)
    (hx : tens a.digitChar = some x) (hy : units b.digitChar = some y) :
    pair tens units (a.digitChar :: b.digitChar :: rest) = [(10 * x + y, rest)] := by
  simp only [pair, hx, hy]

theorem pair_digitChar_none {tens units : Char → Option Nat} {a b : Nat} (rest : List Char)
    (hx : tens a.digitChar = none) :
    pair tens units (a.digitChar :: b.digitChar :: rest) = [] := by
  simp only [pair, hx]

theorem head?_flatMap {α β : Type} {l : List α} {f : α → List β} {a : α} {b : β}
    (hl : l.head? = some a) (hf : (f a).head? = some b) : (l.flatMap f).head? = some b := by
  obtain ⟨tl, rfl⟩ := List.head?_eq_some_iff.1 hl
  obtain ⟨tl', htl'⟩ := List.head?_eq_some_iff.1 hf
  rw [List.flatMap_cons, htl']
  rfl

theorem head?_firstOf_cons {field : Field} {fields : List Field} {s : List Char}
    {r : Nat × List Char} (h : (field s).head? = some r) :
    (firstOf (field :: fields) s).head? = some r :=
  head?_flatMap (a := field) rfl h

theorem firstOf_cons_nil {field : Field} {fields : List Field} {s : List Char}
    (h : field s = []) : firstOf (field :: fields) s = firstOf fields s := by
  rw [firstOf, List.flatMap_cons, h]
  rfl

/-- Two digits with the tens in a range are read by the alternative for that range. -/
theorem head?_pair {lo hi n : Nat} {units : Char → Option Nat} {rest : List Char} (h : n < 100)
    (ht : lo ≤ n / 10 ∧ n / 10 ≤ hi) (hu : units (n % 10).digitChar = some (n % 10)) :
    (pair (plain lo hi) units (padded 2 n ++ rest)).head? = some (n, rest) := by
  have htens : plain lo hi (n / 10).digitChar = some (n / 10) := by
    rw [plain_digitChar (by omega), if_pos ht]
  have hn : 10 * (n / 10) + n % 10 = n := Nat.div_add_mod n 10
  rw [padded_two h, pair_digitChar rest htens hu, hn]
  rfl

/-- Two digits with the tens outside a range are not read by the alternative for that range. -/
theorem pair_eq_nil {lo hi n : Nat} {units : Char → Option Nat} {rest : List Char} (h : n < 100)
    (ht : ¬(lo ≤ n / 10 ∧ n / 10 ≤ hi)) : pair (plain lo hi) units (padded 2 n ++ rest) = [] := by
  rw [padded_two h, pair_digitChar_none]
  rw [plain_digitChar (by omega), if_neg ht]

theorem units_digit {n : Nat} : digitValue? (n % 10).digitChar = some (n % 10) :=
  digitValue?_digitChar (Nat.mod_lt _ (by decide))

theorem units_plain {lo hi n : Nat} (h : lo ≤ n % 10 ∧ n % 10 ≤ hi) :
    plain lo hi (n % 10).digitChar = some (n % 10) := by
  rw [plain_digitChar (Nat.mod_lt _ (by decide)), if_pos h]

theorem head?_year {n : Nat} (h : n ≤ 9999) (rest : List Char) :
    (year (padded 4 n ++ rest)).head? = some (n, rest) := by
  have hd : ∀ k, digitValue? (k % 10).digitChar = some (k % 10) := fun k => units_digit
  have hn : 1000 * (n / 10 / 10 / 10 % 10) + 100 * (n / 10 / 10 % 10) + 10 * (n / 10 % 10) +
      n % 10 = n := by omega
  simp only [padded_four, year, hd, List.head?_cons, hn]

theorem head?_month {n : Nat} (h : 1 ≤ n ∧ n ≤ 12) (rest : List Char) :
    (month (padded 2 n ++ rest)).head? = some (n, rest) := by
  unfold month
  by_cases ht : 10 ≤ n
  · exact head?_firstOf_cons (head?_pair (by omega) (by omega) (units_plain (by omega)))
  · rw [firstOf_cons_nil (pair_eq_nil (by omega) (by omega))]
    exact head?_firstOf_cons (head?_pair (by omega) (by omega) (units_plain (by omega)))

theorem head?_day {n : Nat} (h : 1 ≤ n ∧ n ≤ 31) (rest : List Char) :
    (day (padded 2 n ++ rest)).head? = some (n, rest) := by
  unfold day
  by_cases h3 : 30 ≤ n
  · exact head?_firstOf_cons (head?_pair (by omega) (by omega) (units_plain (by omega)))
  rw [firstOf_cons_nil (pair_eq_nil (by omega) (by omega))]
  by_cases h1 : 10 ≤ n
  · exact head?_firstOf_cons (head?_pair (by omega) (by omega) units_digit)
  · rw [firstOf_cons_nil (pair_eq_nil (by omega) (by omega))]
    exact head?_firstOf_cons (head?_pair (by omega) (by omega) (units_plain (by omega)))

theorem head?_hour {n : Nat} (h : n < 24) (rest : List Char) :
    (hour (padded 2 n ++ rest)).head? = some (n, rest) := by
  unfold hour
  by_cases h2 : 20 ≤ n
  · exact head?_firstOf_cons (head?_pair (by omega) (by omega) (units_plain (by omega)))
  · rw [firstOf_cons_nil (pair_eq_nil (by omega) (by omega))]
    exact head?_firstOf_cons (head?_pair (by omega) (by omega) units_digit)

theorem head?_minute {n : Nat} (h : n < 60) (rest : List Char) :
    (minute (padded 2 n ++ rest)).head? = some (n, rest) := by
  unfold minute
  exact head?_firstOf_cons (head?_pair (by omega) (by omega) units_digit)

theorem head?_second {n : Nat} (h : n < 60) (rest : List Char) :
    (second (padded 2 n ++ rest)).head? = some (n, rest) := by
  unfold second
  rw [firstOf_cons_nil (pair_eq_nil (by omega) (by omega))]
  exact head?_firstOf_cons (head?_pair (by omega) (by omega) units_digit)

theorem head?_next {field : Field} {found : List Nat} {s rest : List Char} {v : Nat}
    (h : (field s).head? = some (v, rest)) :
    (next field (found, s)).head? = some (found ++ [v], rest) := by
  obtain ⟨tl, htl⟩ := List.head?_eq_some_iff.1 h
  simp only [next, htl, List.map_cons, List.head?_cons]

/-! ## The first reading of a stamp -/

theorem head?_dateReadings (d : Date) (rest : List Char) :
    (dateReadings (padded 4 d.year ++ (padded 2 d.month ++ (padded 2 d.day ++ rest)))).head? =
      some ([d.year, d.month, d.day], rest) := by
  have hday : 1 ≤ d.day ∧ d.day ≤ 31 := d.monthDay.2
  unfold dateReadings
  refine head?_flatMap (a := ([d.year, d.month], padded 2 d.day ++ rest)) ?_
    (head?_next (head?_day hday rest))
  refine head?_flatMap (a := ([d.year], padded 2 d.month ++ (padded 2 d.day ++ rest))) ?_
    (head?_next (head?_month ⟨d.month_pos, d.month_le⟩ _))
  exact head?_next (head?_year d.year_le _)

/-- A stamp without its final letter. -/
def stampBody (t : Instant) : List Char :=
  padded 4 t.date.year ++ (padded 2 t.date.month ++ (padded 2 t.date.day ++
    ('T' :: (padded 2 t.hour ++ (padded 2 t.minute ++ (padded 2 t.secondOfMinute ++ []))))))

theorem compactChars_eq (t : Instant) : t.compactChars = stampBody t ++ ['Z'] := by
  simp only [Instant.compactChars, stampBody, List.append_assoc, List.cons_append,
    List.append_nil]

theorem head?_dateTimeReadings (t : Instant) :
    (dateTimeReadings (stampBody t)).head? =
      some ([t.date.year, t.date.month, t.date.day, t.hour, t.minute, t.secondOfMinute], []) := by
  have hdate := head?_dateReadings t.date
    ('T' :: (padded 2 t.hour ++ (padded 2 t.minute ++ (padded 2 t.secondOfMinute ++ []))))
  have hletter := head?_flatMap (f := letterT) (b := ([t.date.year, t.date.month, t.date.day], _))
    hdate rfl
  have hhour := head?_flatMap hletter (head?_next (head?_hour t.hour_lt _))
  have hminute := head?_flatMap hhour (head?_next (head?_minute t.minute_lt _))
  exact head?_flatMap hminute (head?_next (head?_second t.secondOfMinute_lt _))

theorem secondOf?_fields (t : Instant) :
    secondOf? t.date.year t.date.month t.date.day t.hour t.minute t.secondOfMinute =
      some t.second := by
  have hlt : 3600 * t.hour + 60 * t.minute + t.secondOfMinute < secondsPerDay := by
    have := t.hour_lt
    have := t.minute_lt
    have := t.secondOfMinute_lt
    simp only [secondsPerDay]
    omega
  have hfit : 3600 * t.hour + 60 * t.minute + t.secondOfMinute < secondsPerDay ∧
      t.minute < 60 ∧ t.secondOfMinute < 60 := ⟨hlt, t.minute_lt, t.secondOfMinute_lt⟩
  rw [secondOf?, Date.of?_fields]
  simp only
  rw [dif_pos hfit, Option.some_inj]
  apply Second.ext
  rw [t.second_index, ← t.toDay_date, ← t.secondOfDay_eq]
  rfl

/-! ## The round trip -/

theorem mem_compactChars {t : Instant} {c : Char} (h : c ∈ t.compactChars) :
    (48 ≤ c.toNat ∧ c.toNat ≤ 57) ∨ c = 'T' ∨ c = 'Z' := by
  simp only [Instant.compactChars, List.mem_append, List.mem_cons, List.not_mem_nil, or_false] at h
  rcases h with (((((h | h) | h) | (h | h)) | h) | h) | h
  · exact Or.inl (digit_of_mem_padded h)
  · exact Or.inl (digit_of_mem_padded h)
  · exact Or.inl (digit_of_mem_padded h)
  · exact Or.inr (Or.inl h)
  · exact Or.inl (digit_of_mem_padded h)
  · exact Or.inl (digit_of_mem_padded h)
  · exact Or.inl (digit_of_mem_padded h)
  · exact Or.inr (Or.inr h)

theorem steady_compactChars (t : Instant) : Steady t.compactChars := by
  intro c hc
  rcases mem_compactChars hc with h | rfl | rfl
  · exact steady_of_digits (s := [c]) (by simpa using h) c List.mem_cons_self
  · decide
  · decide

theorem body_compactChars (t : Instant) : body t.compactChars = stampBody t := by
  have hs := steady_compactChars t
  have hlast : t.compactChars.getLast? = some 'Z' := by
    rw [compactChars_eq, List.getLast?_append]
    rfl
  simp only [body, strip_of_steady hs, upper_of_steady hs, if_pos hlast]
  rw [compactChars_eq, List.dropLast_concat]

/-- **The second of an instant is read back from its compact text.** -/
theorem read?_compactChars (t : Instant) : read? t.compactChars = some t.second := by
  simp only [read?, body_compactChars, readDateTime?, head?_dateTimeReadings, secondOf?_fields]

end Compact

end Recurrence
