import Recurrence.Calendar.Instant
import Recurrence.Proofs.Calendar.Date

/-!
# Instants as days and times of day

An instant is its day and its time of day (`Instant.eq_of_day_of_timeOfDay`), and an earlier day
makes an earlier instant (`Instant.lt_of_day_lt`).  Hour, minute and second of the minute are the time
of day in whole seconds (`Instant.secondOfDay_eq`); with the date they are the second that holds the
instant (`Instant.second_index`).
-/

namespace Recurrence

theorem Date.of?_fields (d : Date) : Date.of? d.year d.month d.day = some d :=
  dif_pos ⟨⟨d.year_pos, d.year_le⟩, ⟨d.month_pos, d.month_le⟩, d.day_pos, d.day_le⟩

namespace Instant

/-! ## Order -/

theorem not_le {s t : Instant} : ¬s ≤ t ↔ t < s := Nat.not_le

theorem not_lt {s t : Instant} : ¬s < t ↔ t ≤ s := Nat.not_lt

theorem lt_irrefl (t : Instant) : ¬t < t := Nat.lt_irrefl _

theorem lt_asymm {s t : Instant} : s < t → ¬t < s := Nat.lt_asymm

/-! ## Day and time of day -/

@[simp] theorem day_ofDay {n time : Nat} (hn : n < calendarDays) (ht : time < microsPerDay) :
    (ofDay n time hn ht).day = n := by
  have hpos : 0 < microsPerDay := by decide
  simp only [day, ofDay]
  rw [Nat.mul_comm, Nat.mul_add_div hpos, Nat.div_eq_of_lt ht, Nat.add_zero]

@[simp] theorem timeOfDay_ofDay {n time : Nat} (hn : n < calendarDays) (ht : time < microsPerDay) :
    (ofDay n time hn ht).timeOfDay = time := by
  simp only [timeOfDay, ofDay]
  rw [Nat.mul_comm, Nat.mul_add_mod, Nat.mod_eq_of_lt ht]

theorem eq_of_day_of_timeOfDay {s t : Instant} (hd : s.day = t.day)
    (ht : s.timeOfDay = t.timeOfDay) : s = t := by
  apply Instant.ext
  rw [← s.day_mul_add_timeOfDay, ← t.day_mul_add_timeOfDay, hd, ht]

theorem eq_of_second_of_microOfSecond {s t : Instant} (hs : s.second = t.second)
    (hm : s.microOfSecond = t.microOfSecond) : s = t := by
  have hdiv : s.micros / microsPerSecond = t.micros / microsPerSecond := congrArg Second.index hs
  have hmod : s.micros % microsPerSecond = t.micros % microsPerSecond := hm
  apply Instant.ext
  rw [← Nat.div_add_mod s.micros microsPerSecond, ← Nat.div_add_mod t.micros microsPerSecond, hdiv,
    hmod]

theorem lt_of_day_lt {s t : Instant} (h : s.day < t.day) : s < t := by
  have hs := s.day_mul_add_timeOfDay
  have ht := t.day_mul_add_timeOfDay
  have hlt := s.timeOfDay_lt
  have hmul : (s.day + 1) * microsPerDay ≤ t.day * microsPerDay := Nat.mul_le_mul_right _ h
  rw [Nat.succ_mul] at hmul
  show s.micros < t.micros
  omega

/-- An instant on a day of a month, counted from its first, has that month in its date. -/
theorem date_of_firstOfMonth {t : Instant} {year month j : Nat} (hy : 1 ≤ year)
    (hm : 1 ≤ month ∧ month ≤ 12) (hj : j < daysInMonth year month)
    (ht : t.day = firstOfMonth year month + j) :
    t.date.year = year ∧ t.date.month = month ∧ t.date.day = j + 1 :=
  Date.ofDay_firstOfMonth t.day_lt hy hm hj ht

theorem toDay_date (t : Instant) : t.date.toDay = t.day := Date.toDay_ofDay _

/-- A part of a second is a part of a day. -/
theorem microOfSecond_eq (t : Instant) : t.microOfSecond = t.timeOfDay % microsPerSecond := by
  have hmicros := t.day_mul_add_timeOfDay
  simp only [microOfSecond, microsPerSecond, microsPerDay] at *
  omega

/-! ## Hours, minutes and seconds -/

theorem hour_lt (t : Instant) : t.hour < 24 := by
  have htime := t.timeOfDay_lt
  simp only [microsPerDay] at htime
  simp only [hour]
  omega

theorem minute_lt (t : Instant) : t.minute < 60 := Nat.mod_lt _ (by decide)

theorem secondOfMinute_lt (t : Instant) : t.secondOfMinute < 60 := Nat.mod_lt _ (by decide)

theorem secondOfDay_eq (t : Instant) :
    3600 * t.hour + 60 * t.minute + t.secondOfMinute = t.timeOfDay / microsPerSecond := by
  simp only [hour, minute, secondOfMinute, microsPerSecond]
  omega

theorem second_index (t : Instant) :
    t.second.index = t.day * secondsPerDay + t.timeOfDay / microsPerSecond := by
  have hmicros := t.day_mul_add_timeOfDay
  simp only [second, microsPerSecond, secondsPerDay, microsPerDay] at *
  omega

/-- Date and time to the second make the second. -/
theorem second_eq_of_fields {t u : Instant} (hdate : t.date = u.date) (hhour : t.hour = u.hour)
    (hminute : t.minute = u.minute) (hsecond : t.secondOfMinute = u.secondOfMinute) :
    t.second = u.second := by
  apply Second.ext
  rw [t.second_index, u.second_index, ← t.toDay_date, ← u.toDay_date, hdate, ← t.secondOfDay_eq,
    ← u.secondOfDay_eq, hhour, hminute, hsecond]

theorem day_instant_second (t : Instant) : t.second.instant.day = t.day := by
  simp only [day, Second.instant, second, microsPerSecond, microsPerDay]
  omega

theorem timeOfDay_instant_second (t : Instant) :
    t.second.instant.timeOfDay = t.timeOfDay / microsPerSecond * microsPerSecond := by
  have hmicros := t.day_mul_add_timeOfDay
  simp only [timeOfDay, day, Second.instant, second, microsPerSecond, microsPerDay] at *
  omega

theorem date_instant_second (t : Instant) : t.second.instant.date = t.date := by
  simp only [date, day_instant_second]

theorem hour_instant_second (t : Instant) : t.second.instant.hour = t.hour := by
  simp only [hour, timeOfDay_instant_second, microsPerSecond]
  omega

theorem minute_instant_second (t : Instant) : t.second.instant.minute = t.minute := by
  simp only [minute, timeOfDay_instant_second, microsPerSecond]
  omega

theorem secondOfMinute_instant_second (t : Instant) :
    t.second.instant.secondOfMinute = t.secondOfMinute := by
  simp only [secondOfMinute, timeOfDay_instant_second, microsPerSecond]
  omega

/-! ## Later and earlier instants -/

/-- A shifted instant, if the calendar has it. -/
theorem shift?_int_eq_some_iff {t u : Instant} {d : Int} :
    t.shift? d = some u ↔ (u.micros : Int) = t.micros + d := by
  have hu := u.micros_lt
  unfold shift? ofMicros?
  constructor
  · intro h
    split at h
    · rename_i hrange
      rw [← Option.some.inj h]
      exact Int.toNat_of_nonneg hrange.1
    · cases h
  · intro h
    rw [dif_pos (by omega)]
    refine congrArg some (Instant.ext ?_)
    show ((t.micros : Int) + d).toNat = u.micros
    omega

/-- An instant so many microseconds later. -/
theorem shift?_eq_some_iff {t u : Instant} {d : Nat} :
    t.shift? d = some u ↔ u.micros = t.micros + d := by
  rw [shift?_int_eq_some_iff]
  omega

/-- An instant so many microseconds earlier. -/
theorem shift?_neg_eq_some_iff {t u : Instant} {d : Nat} :
    t.shift? (-(d : Int)) = some u ↔ u.micros + d = t.micros := by
  rw [shift?_int_eq_some_iff]
  omega

theorem exists_shift?_neg {t : Instant} {d : Nat} (h : d ≤ t.micros) :
    ∃ u, t.shift? (-(d : Int)) = some u := by
  have ht := t.micros_lt
  have hu : t.micros - d + d = t.micros := Nat.sub_add_cancel h
  exact ⟨⟨t.micros - d, by omega⟩, shift?_neg_eq_some_iff.2 hu⟩

theorem shift?_isSome_of_le {s t : Instant} {d : Nat} (hle : s ≤ t)
    (h : (t.shift? d).isSome = true) : (s.shift? d).isSome = true := by
  obtain ⟨u, hu⟩ := Option.isSome_iff_exists.1 h
  have hmicros := shift?_eq_some_iff.1 hu
  have hlt := u.micros_lt
  have hle : s.micros ≤ t.micros := hle
  have hs : s.shift? d = some ⟨s.micros + d, by omega⟩ := shift?_eq_some_iff.2 rfl
  rw [hs]
  rfl

end Instant

theorem Stamp.utc_ofInstant (t : Instant) : (Stamp.ofInstant t).utc = .ok t := by
  have hlt := t.micros_lt
  have hmicros : (Stamp.ofInstant t).utcMicros = t.micros := Int.sub_zero _
  unfold Stamp.utc Instant.ofMicros?
  rw [hmicros, dif_pos (by omega)]
  rfl

end Recurrence
