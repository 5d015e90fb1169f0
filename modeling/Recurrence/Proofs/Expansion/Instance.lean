import Mathlib.Data.List.Nodup
import Recurrence.Proofs.Expansion.Reanchor
import Recurrence.Proofs.Expansion.Series
import Recurrence.Proofs.Text.Boundary
import Recurrence.Proofs.Timestamp.IsoPrinter

/-!
# Names of instances

The name of an instance is that of its series, an underscore, and its start to the second.  Of the
fields of the start only the year has no fixed width, and it is the first one; so from the back of the
name every field can be read off, and what stands before the last underscore is the name of the series,
whatever that looks like (`Occurrence.instanceId_eq_iff`).

The starts of a series have their part of a second in common (`Series.microOfSecond_of_mem_shown`).  So
no two of them lie in the same second, and an expansion does not name two of its instances alike
(`Series.instanceId_identifies`).
-/

namespace Recurrence

open Text

/-! ## Stamps -/

namespace Occurrence

variable {t u : Instant} {o o' : Occurrence}

/-- The fields of a stamp behind its year. -/
def stampTail (t : Instant) : List Char :=
  padded 2 t.date.month ++ (padded 2 t.date.day ++
    'T' :: (padded 2 t.hour ++ (padded 2 t.minute ++ padded 2 t.secondOfMinute)))

theorem stampChars_eq (t : Instant) : stampChars t = decimal t.date.year ++ stampTail t := by
  simp only [stampChars, stampTail, List.append_assoc, List.cons_append]

theorem length_stampTail (t : Instant) : (stampTail t).length = 11 := by
  simp [stampTail]

theorem stampTail_inj (h : stampTail t = stampTail u) :
    (t.date.month = u.date.month ∧ t.date.day = u.date.day) ∧
      t.hour = u.hour ∧ t.minute = u.minute ∧ t.secondOfMinute = u.secondOfMinute := by
  have htday := Nat.le_trans t.date.day_le (daysInMonth_le _ _)
  have huday := Nat.le_trans u.date.day_le (daysInMonth_le _ _)
  have htmonth := t.date.month_le
  have humonth := u.date.month_le
  have hthour := t.hour_lt
  have huhour := u.hour_lt
  have htminute := t.minute_lt
  have huminute := u.minute_lt
  have htsecond := t.secondOfMinute_lt
  have husecond := u.secondOfMinute_lt
  obtain ⟨hmonth, h⟩ := padded_append_inj (by omega) (by omega) h
  obtain ⟨hday, h⟩ := padded_append_inj (by omega) (by omega) h
  obtain ⟨hhour, h⟩ := padded_append_inj (by omega) (by omega) (List.cons.inj h).2
  obtain ⟨hminute, h⟩ := padded_append_inj (by omega) (by omega) h
  exact ⟨⟨hmonth, hday⟩, hhour, hminute, padded_injective (by omega) (by omega) h⟩

/-- **A stamp gives the second that it names**, also where the year has less than four digits. -/
theorem second_eq_of_stampChars_eq (h : stampChars t = stampChars u) : t.second = u.second := by
  rw [stampChars_eq, stampChars_eq] at h
  obtain ⟨hyear, htail⟩ :=
    List.append_inj' h ((length_stampTail t).trans (length_stampTail u).symm)
  obtain ⟨⟨hmonth, hday⟩, hhour, hminute, hsecond⟩ := stampTail_inj htail
  have hdate := Date.eq_of_fields (decimal_injective hyear) hmonth hday
  exact Instant.second_eq_of_fields hdate hhour hminute hsecond

/-- The stamp shows nothing below the second. -/
theorem stampChars_instant_second (t : Instant) : stampChars t.second.instant = stampChars t := by
  simp only [stampChars, Instant.date_instant_second, Instant.hour_instant_second,
    Instant.minute_instant_second, Instant.secondOfMinute_instant_second]

/-! ## Names -/

theorem underscore_not_mem_stampChars (t : Instant) : '_' ∉ stampChars t := by
  intro hm
  have digit : ∀ {s : List Char}, (∀ c ∈ s, 48 ≤ c.toNat ∧ c.toNat ≤ 57) → '_' ∉ s :=
    fun h hs => absurd (h '_' hs) (by decide)
  simp only [stampChars_eq, stampTail, List.mem_append, List.mem_cons] at hm
  rcases hm with hm | hm | hm | hm | hm | hm | hm
  · exact digit (fun _ => digit_of_mem_decimal) hm
  · exact digit (fun _ => digit_of_mem_padded) hm
  · exact digit (fun _ => digit_of_mem_padded) hm
  · exact absurd hm (by decide)
  · exact digit (fun _ => digit_of_mem_padded) hm
  · exact digit (fun _ => digit_of_mem_padded) hm
  · exact digit (fun _ => digit_of_mem_padded) hm

theorem toList_instanceId (o : Occurrence) :
    o.instanceId.toList = o.seriesId.toList ++ '_' :: stampChars o.start := by
  simp [instanceId]

/-- **A name gives the series and the second of the start**, whatever the series is called. -/
theorem instanceId_eq_iff :
    o.instanceId = o'.instanceId ↔ o.seriesId = o'.seriesId ∧ o.start.second = o'.start.second := by
  rw [← String.toList_inj, toList_instanceId, toList_instanceId]
  constructor
  · intro h
    obtain ⟨hid, hstamp⟩ := append_cons_inj (underscore_not_mem_stampChars _)
      (underscore_not_mem_stampChars _) h
    exact ⟨String.toList_inj.1 hid, second_eq_of_stampChars_eq hstamp⟩
  · rintro ⟨hid, hsecond⟩
    rw [hid, ← stampChars_instant_second o.start, hsecond, stampChars_instant_second]

end Occurrence

/-! ## Expansions -/

namespace Series

variable {s s' : Series} {lower upper : Instant} {first last first' last' : Moment}
  {extra extra' : List Stamp} {cancelled : List Instant} {found found' : List Occurrence}
  {o o' : Occurrence} {t : Instant}

theorem shown_sorted (s : Series) (lower upper : Instant) (cancelled : List Instant) :
    (s.shown lower upper cancelled).Pairwise (· < ·) := by
  unfold shown
  split
  · exact List.Pairwise.nil
  · split
    · exact List.Pairwise.nil
    · rename_i r _
      split
      · exact List.Pairwise.nil
      · rename_i starts hstarts
        obtain ⟨-, -, rfl⟩ := Rule.starts_eq_ok_iff.1 hstarts
        exact ((r.allowed_sorted s.start).filter _).filter _

/-- The starts of a series keep its part of a second. -/
theorem microOfSecond_of_mem_shown (h : t ∈ s.shown lower upper cancelled) :
    t.microOfSecond = s.start.microOfSecond := by
  obtain ⟨r, -, hallowed⟩ := exists_rule_of_mem_shown h
  exact Rule.microOfSecond_of_mem_candidates (Rule.mem_candidates_of_mem_allowed hallowed)

/-- What an expansion finds are the instances at starts that are shown. -/
theorem exists_shown_of_expand (h : s.expand first last extra = .ok found) :
    ∃ lower upper cancelled, found =
      (s.shown lower upper cancelled).filterMap (Occurrence.ofStart? s) := by
  obtain ⟨lower, upper, -, -, hbetween⟩ := bounds_of_expand h
  cases hextra : instantsOf extra with
  | ok cancelled =>
    rw [expandBetween_eq_shown s lower upper hextra] at hbetween
    exact ⟨lower, upper, cancelled, (Except.ok.inj hbetween).symm⟩
  | error e =>
    -- The extra stamps are not looked at, so there is nothing to be found.
    have hnone : found = [] := by
      unfold expandBetween at hbetween
      split at hbetween
      · exact (Except.ok.inj hbetween).symm
      · split at hbetween
        · exact (Except.ok.inj hbetween).symm
        · rw [hextra] at hbetween
          cases hbetween
    have hempty : s.shown lower lower [] = [] := if_pos (Nat.le_refl lower.micros)
    exact ⟨lower, lower, [], by rw [hnone, hempty, List.filterMap_nil]⟩

theorem seriesId_of_mem_expand (h : s.expand first last extra = .ok found) (ho : o ∈ found) :
    o.seriesId = s.id := by
  obtain ⟨lower, upper, cancelled, rfl⟩ := exists_shown_of_expand h
  obtain ⟨t, -, ht⟩ := List.mem_filterMap.1 ho
  exact (Occurrence.ofStart?_eq_some_iff.1 ht).1

/-- **One series has no two instances in a second**, in whatever windows they are found. -/
theorem eq_of_second_eq (h : s.expand first last extra = .ok found)
    (h' : s.expand first' last' extra' = .ok found') (ho : o ∈ found) (ho' : o' ∈ found')
    (hsecond : o.start.second = o'.start.second) : o = o' := by
  obtain ⟨lower, upper, cancelled, rfl⟩ := exists_shown_of_expand h
  obtain ⟨lower', upper', cancelled', rfl⟩ := exists_shown_of_expand h'
  obtain ⟨t, ht, hto⟩ := List.mem_filterMap.1 ho
  obtain ⟨t', ht', hto'⟩ := List.mem_filterMap.1 ho'
  have hmicro : t.microOfSecond = t'.microOfSecond :=
    (microOfSecond_of_mem_shown ht).trans (microOfSecond_of_mem_shown ht').symm
  rw [(Occurrence.ofStart?_eq_some_iff.1 hto).2.1, (Occurrence.ofStart?_eq_some_iff.1 hto').2.1]
    at hsecond
  rw [Instant.eq_of_second_of_microOfSecond hsecond hmicro] at hto
  exact Option.some.inj (hto.symm.trans hto')

theorem nodup_of_expand (h : s.expand first last extra = .ok found) : found.Nodup := by
  obtain ⟨lower, upper, cancelled, rfl⟩ := exists_shown_of_expand h
  have hends : ∀ t ∈ s.shown lower upper cancelled, (t.shift? s.duration).isSome = true :=
    fun _ => ends_of_mem_shown
  apply List.Nodup.of_map Occurrence.start
  rw [map_start_filterMap hends]
  refine (s.shown_sorted lower upper cancelled).imp ?_
  rintro t _ hlt rfl
  exact Instant.lt_irrefl t hlt

/-- **The name of an instance identifies it.**  Two instances of any expansions of any two series have
the same name exactly if the series are called alike and the starts lie in the same second; if they are
instances of one series, they are then the same.  So an expansion gives each of its instances a name of
its own. -/
theorem instanceId_identifies (h : s.expand first last extra = .ok found)
    (h' : s'.expand first' last' extra' = .ok found') :
    (∀ o ∈ found, ∀ o' ∈ found', o.instanceId = o'.instanceId ↔
      s.id = s'.id ∧ o.start.second = o'.start.second) ∧
    (s = s' → ∀ o ∈ found, ∀ o' ∈ found', o.instanceId = o'.instanceId → o = o') ∧
      (found.map Occurrence.instanceId).Nodup := by
  refine ⟨fun o ho o' ho' => ?_, ?_, ?_⟩
  · rw [Occurrence.instanceId_eq_iff, seriesId_of_mem_expand h ho, seriesId_of_mem_expand h' ho']
  · rintro rfl o ho o' ho' hname
    exact eq_of_second_eq h h' ho ho' (Occurrence.instanceId_eq_iff.1 hname).2
  · refine List.Nodup.map_on (fun o ho o' ho' hname => ?_) (nodup_of_expand h)
    exact eq_of_second_eq h h ho ho' (Occurrence.instanceId_eq_iff.1 hname).2

/-- An hour of every day from 31 December of the year 999 on, at seven microseconds past noon. -/
def vigil : Series where
  id := "vigil"
  start := Instant.ofDay 364876 43200000007 (by decide) (by decide)
  finish := Instant.ofDay 364876 46800000007 (by decide) (by decide)
  rule := (⟨.daily, Positive.one, .never⟩ : Rule).encode
  exceptions := []

/-- The same hours in a series that is called like the first instance of the other one. -/
def vigilsEve : Series := { vigil with id := "vigil_9991231T120000" }

/-- 31 December 999, as a day. -/
def lastOfYear999 : Moment := .day (Date.ofDay 364876 (by decide))

/-- 1 January 1000, as a day. -/
def firstOfYear1000 : Moment := .day (Date.ofDay 364877 (by decide))

theorem exists_expand_vigil :
    ∃ found, vigil.expand lastOfYear999 firstOfYear1000 [] = .ok found ∧
      found.map Occurrence.instanceId = ["vigil_9991231T120000", "vigil_10000101T120000"] :=
  ⟨_, rfl, by decide +kernel⟩

theorem exists_expand_vigilsEve :
    ∃ found, vigilsEve.expand lastOfYear999 firstOfYear1000 [] = .ok found ∧
      found.map Occurrence.instanceId =
        ["vigil_9991231T120000_9991231T120000", "vigil_9991231T120000_10000101T120000"] :=
  ⟨_, rfl, by decide +kernel⟩

/-- Two series of different names, four instances in two seconds, and no name twice. -/
theorem instanceId_identifies_vigil :
    ∃ found found', vigil.expand lastOfYear999 firstOfYear1000 [] = .ok found ∧
      vigilsEve.expand lastOfYear999 firstOfYear1000 [] = .ok found' ∧
      found.map Occurrence.instanceId = ["vigil_9991231T120000", "vigil_10000101T120000"] ∧
      (∀ o ∈ found, ∀ o' ∈ found', o.instanceId ≠ o'.instanceId) ∧
      (found'.map Occurrence.instanceId).Nodup := by
  obtain ⟨found, hfound, hnames⟩ := exists_expand_vigil
  obtain ⟨found', hfound', -⟩ := exists_expand_vigilsEve
  obtain ⟨hiff, -, -⟩ := instanceId_identifies hfound hfound'
  obtain ⟨-, -, hnodup⟩ := instanceId_identifies hfound' hfound
  refine ⟨found, found', hfound, hfound', hnames, fun o ho o' ho' hname => ?_, hnodup⟩
  exact absurd ((hiff o ho o' ho').1 hname).1 (by decide)

end Series

end Recurrence
