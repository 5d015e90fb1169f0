import Recurrence.Proofs.Timestamp.Division
import Recurrence.Proofs.Timestamp.Iso

/-!
# Instants survive their texts

An instant is written in two ways, and both are read back.  The international text keeps it to the
microsecond (`Instant.ofIso_toZulu`), and the compact one keeps its second
(`Compact.read?_compactChars`).

A field of a compact text may be read off one digit as well as off two.  A text that is written has
fifteen characters, though, and none of them is a blank, so that every division of it is one into fields
in full width (`Compact.Divides.dateTime`).  As these widths leave no choice (`Compact.Documented.unique`),
the fields that were written are the only division there is (`Compact.divides_stampBody_iff`): whichever
reading the reader tried first, it could come to no other end.
-/

namespace Recurrence

open Text

namespace Compact

/-! ## The only division -/

/-- Two divisions of one text into fields in full width, with a time, are the same. -/
theorem Documented.unique {ws vs : List (List Char)} (hws : Documented ws) (hvs : Documented vs)
    (hlength : ws.length = 6 ∧ vs.length = 6) (h : ws.flatten = vs.flatten) : ws = vs := by
  match ws, vs, hws, hvs, hlength with
  | [y, mo, d, _, mi, sec], [y', mo', d', _, mi', sec'], hws, hvs, _ =>
    obtain ⟨⟨hy, hmo, hd⟩, ⟨_, rfl, hh⟩, hmi, hsec⟩ := hws
    obtain ⟨⟨hy', hmo', hd'⟩, ⟨_, rfl, hh'⟩, hmi', hsec'⟩ := hvs
    refine List.eq_iff_flatten_eq.2 ⟨h, ?_⟩
    simp only [List.map_cons, List.map_nil, List.length_cons, hy.1, hy'.1, hmo.1, hmo'.1, hd.1, hd'.1,
      hh.1, hh'.1, hmi.1, hmi'.1, hsec.1, hsec'.1]

theorem isDigits_padded (k n : Nat) : IsDigits k (padded k n) := by
  refine ⟨length_padded k n, fun c hc => ?_⟩
  exact isDigit_of_digitValue? (digitValue?_of_digit (digit_of_mem_padded hc))

/-- The fields of an instant as they are written. -/
def writtenFields (t : Instant) : List (List Char) :=
  [padded 4 t.date.year, padded 2 t.date.month, padded 2 t.date.day, 'T' :: padded 2 t.hour,
    padded 2 t.minute, padded 2 t.secondOfMinute]

theorem documented_writtenFields (t : Instant) : Documented (writtenFields t) :=
  ⟨⟨isDigits_padded _ _, isDigits_padded _ _, isDigits_padded _ _⟩,
    ⟨_, rfl, isDigits_padded _ _⟩, isDigits_padded _ _, isDigits_padded _ _⟩

theorem flatten_writtenFields (t : Instant) : (writtenFields t).flatten = stampBody t := by
  simp only [writtenFields, stampBody, List.flatten_cons, List.flatten_nil, List.cons_append]

/-- **A compact text can be divided among the fields in one way only.** -/
theorem divides_stampBody_iff {t : Instant} {ws : List (List Char)} :
    Divides dateTimeFields ws (stampBody t) ↔ ws = writtenFields t := by
  have hfull := (documented_writtenFields t).full
  rw [flatten_writtenFields] at hfull
  have written_of_divides : ∀ vs, Divides dateTimeFields vs (stampBody t) → vs = writtenFields t := by
    intro vs hvs
    have hlength : (stampBody t).length = 15 := by
      have := hvs.dateTime.1
      omega
    have hdocumented := hvs.dateTime.2.2 ⟨hlength, hfull.2⟩
    exact hdocumented.unique (documented_writtenFields t) ⟨hvs.1.length_eq.symm, rfl⟩
      (hvs.2.trans (flatten_writtenFields t).symm)
  constructor
  · exact written_of_divides ws
  · rintro rfl
    have hread : readDateTime? (stampBody t) = some t.second := by
      simp only [readDateTime?, head?_dateTimeReadings, secondOf?_fields]
    obtain ⟨vs, hvs, -⟩ := readDateTime?_eq_some_iff.1 hread
    exact written_of_divides vs hvs.1 ▸ hvs.1

end Compact

/-! ## Both texts -/

theorem Instant.instant_second (t : Instant) : t.second.instant = t.truncate := by
  apply Instant.ext
  have hmod : microsPerSecond * (t.micros / microsPerSecond) + t.micros % microsPerSecond = t.micros :=
    Nat.div_add_mod _ _
  show t.micros / microsPerSecond * microsPerSecond = t.micros - t.micros % microsPerSecond
  rw [Nat.mul_comm]
  omega

/-- **Instants survive their texts.**  What a clock shows is read back as its instant from the
international text, and as the second of it from the compact one; the latter can be divided among the
fields in no other way than it was written. -/
theorem Stamp.instant_survives {s : Stamp} {t : Instant} (h : s.utc = .ok t) :
    (s.utc.map Instant.toZulu).bind Instant.ofIso = .ok t ∧
      (s.utc.map Instant.toCompact).map Second.ofCompact? = .ok (some t.second) ∧
      t.second.instant = t.truncate ∧
      ∀ ws, Compact.Divides Compact.dateTimeFields ws (Compact.body t.toCompact.toList) ↔
        ws = Compact.writtenFields t := by
  have hchars : t.toCompact.toList = t.compactChars := String.toList_ofList
  have hread : Second.ofCompact? t.toCompact = some t.second := by
    rw [Second.ofCompact?, hchars, Compact.read?_compactChars]
  rw [hchars, Compact.body_compactChars]
  simp only [h, Except.map, Except.bind, t.ofIso_toZulu, hread, t.instant_second,
    Compact.divides_stampBody_iff, implies_true, and_self]

/-- A clock in Kathmandu, shortly after midnight on 1 March 2024. -/
def afterLeapDay : Stamp :=
  ⟨Instant.ofDay 738945 60000009 (by decide) (by decide), some ⟨20700000000, by decide, by decide⟩⟩

/-- It is still the leap day in universal time, and the microseconds need six digits. -/
theorem Stamp.instant_survives_leapDay :
    (afterLeapDay.utc.map Instant.toZulu).bind Instant.ofIso = afterLeapDay.utc ∧
      afterLeapDay.utc.map Instant.toZulu = .ok "2024-02-29T18:16:00.000009Z" ∧
      ∃ last : Second, (afterLeapDay.utc.map Instant.toCompact).map Second.ofCompact? =
        .ok (some last) ∧ last.instant.toCompact = "20240229T181600Z" := by
  have hutc : afterLeapDay.utc =
      .ok (Instant.ofDay 738944 65760000009 (by decide) (by decide)) := by
    decide +kernel
  obtain ⟨hiso, hcompact, -, -⟩ := Stamp.instant_survives hutc
  refine ⟨hiso.trans hutc.symm, ?_, _, hcompact, ?_⟩
  · rw [hutc]
    decide +kernel
  · decide +kernel

end Recurrence
