import Recurrence.Proofs.Calendar.Date
import Recurrence.Proofs.Text.Boundary
import Recurrence.Rule.Preset
import Recurrence.Rule.Summary

/-!
# What a summary tells

A summary has three parts: how often, on which days, and up to where.  Each of them can be read off the
front of what is left, and what follows tells where it ends.  How often is a word or a numeral and a word
(`Frequency.every_append_inj`); the days are names and ordinals, none of which begins with another one
(`Pattern.phrase_append_inj`); and of the ending the count is a numeral and the date three words
(`Ending.sameDay_of_phrase_eq`).

So two rules have the same summary exactly if they tell the same (`Rule.render_eq_iff`).  What a summary
leaves out is whether the days were named or are those of the anchor, and the time of day at which a rule
ends.
-/

namespace Recurrence

open Text

/-! ## Words that no other word begins with -/

theorem Weekday.prefixFree_name : PrefixFree fun w : Weekday => w.name.toList := by
  intro v w h
  cases v <;> cases w <;> first | rfl | exact absurd h (by decide)

theorem prefixFree_monthName : PrefixFree fun m : Month => (monthName m.1).toList := by
  have hnames : ∀ m < 13, ∀ n < 13, 1 ≤ m → 1 ≤ n →
      (monthName m).toList <+: (monthName n).toList → m = n := by
    decide +kernel
  intro m n h
  have hm := m.2
  have hn := n.2
  exact Subtype.ext (hnames m.1 (by omega) n.1 (by omega) hm.1 hn.1 h)

namespace Frequency

theorem prefixFree_unit : PrefixFree fun f : Frequency => f.unit.toList := by
  intro f g h
  cases f <;> cases g <;> first | rfl | exact absurd h (by decide)

theorem prefixFree_units : PrefixFree fun f : Frequency => f.units.toList := by
  intro f g h
  cases f <;> cases g <;> first | rfl | exact absurd h (by decide)

end Frequency

/-- The word for a day of the month, and for the last of the equal weekdays as the day 0. -/
def placeWord (n : Fin 32) : List Char :=
  if n = 0 then "last".toList else (ordinal (n.1 : Nat)).toList

theorem prefixFree_placeWord : PrefixFree placeWord := by
  intro m n
  revert m n
  decide +kernel

namespace Position

def place : Position → Fin 32
  | first => 1
  | second => 2
  | third => 3
  | fourth => 4
  | last => 0

theorem place_injective {p q : Position} (h : p.place = q.place) : p = q := by
  cases p <;> cases q <;> first | rfl | exact absurd h (by decide)

theorem toList_text (p : Position) : p.text.toList = placeWord p.place := by
  cases p <;> rfl

end Position

/-! ## How often -/

theorem endsNumeral_unit (f : Frequency) (x : List Char) : EndsNumeral (f.unit.toList ++ x) := by
  cases f <;> exact endsNumeral_cons rfl _

/-- The front of a summary. -/
def Frequency.every (f : Frequency) (interval : Positive) : List Char :=
  "every ".toList ++
    if interval.1 = 1 then f.unit.toList else decimal interval.1 ++ ' ' :: f.units.toList

/-- **The front of a summary tells how often**, whatever follows it. -/
theorem Frequency.every_append_inj {f g : Frequency} {i j : Positive} {x y : List Char}
    (h : f.every i ++ x = g.every j ++ y) : (f = g ∧ i = j) ∧ x = y := by
  unfold every at h
  rw [List.append_assoc, List.append_assoc] at h
  replace h := List.append_cancel_left h
  by_cases hi : i.1 = 1
  · by_cases hj : j.1 = 1
    · rw [if_pos hi, if_pos hj] at h
      obtain ⟨hunit, hrest⟩ := prefixFree_unit.append_inj h
      exact ⟨⟨hunit, Subtype.ext (hi.trans hj.symm)⟩, hrest⟩
    · rw [if_pos hi, if_neg hj, List.append_assoc] at h
      exact absurd (h ▸ endsNumeral_unit f x) (not_endsNumeral_decimal _ _)
  · by_cases hj : j.1 = 1
    · rw [if_neg hi, if_pos hj, List.append_assoc] at h
      exact absurd (h ▸ endsNumeral_unit g y) (not_endsNumeral_decimal _ _)
    · rw [if_neg hi, if_neg hj, List.append_assoc, List.append_assoc] at h
      obtain ⟨hcount, h⟩ := decimal_append_inj (endsNumeral_cons rfl _) (endsNumeral_cons rfl _) h
      obtain ⟨hunits, hrest⟩ := prefixFree_units.append_inj (List.cons.inj h).2
      exact ⟨⟨hunits, Subtype.ext hcount⟩, hrest⟩

/-! ## Up to where -/

namespace Ending

/-- Both endings are the same, or they end with the same day. -/
def SameDay (e e' : Ending) : Prop :=
  e = e' ∨ ∃ s s', e = .on s ∧ e' = .on s' ∧ s.instant.date = s'.instant.date

/-- The summary of a date. -/
def dateWords (d : Date) : List Char :=
  (monthName d.month).toList ++ ' ' :: (decimal d.day ++ ',' :: ' ' :: decimal d.year)

theorem dateWords_injective {d e : Date} (h : dateWords d = dateWords e) : d = e := by
  obtain ⟨hmonth, h⟩ := prefixFree_monthName.append_inj (a := d.monthNumber) (b := e.monthNumber) h
  obtain ⟨hday, h⟩ := decimal_append_inj (endsNumeral_cons rfl _) (endsNumeral_cons rfl _)
    (List.cons.inj h).2
  have hyear := decimal_injective (List.cons.inj (List.cons.inj h).2).2
  exact Date.eq_of_fields hyear (congrArg Subtype.val hmonth) hday

theorem toList_phrase_after (n : Positive) :
    (Ending.after n).phrase.toList =
      ',' :: ' ' :: (decimal n.1 ++ (if n.1 = 1 then " time" else " times").toList) := by
  simp only [phrase, numeral, String.toList_append, String.toList_ofList, List.append_assoc]
  rfl

theorem toList_phrase_on (s : Second) :
    (Ending.on s).phrase.toList = " until ".toList ++ dateWords s.instant.date := by
  simp only [phrase, numeral, dateWords, String.toList_append, String.toList_ofList, List.append_assoc]
  rfl

theorem head?_phrase (e : Ending) :
    e.phrase.toList.head? =
      match e with
      | never => none
      | after _ => some ','
      | on _ => some ' ' := by
  cases e with
  | never => rfl
  | after n =>
    rw [toList_phrase_after]
    rfl
  | on s =>
    rw [toList_phrase_on]
    rfl

/-- **The end of a summary tells up to where**, but not the time of day. -/
theorem phrase_eq_iff {e e' : Ending} : e.phrase = e'.phrase ↔ e.SameDay e' := by
  rw [← String.toList_inj]
  constructor
  · intro h
    have hhead := congrArg List.head? h
    rw [head?_phrase, head?_phrase] at hhead
    cases e with
    | never =>
      cases e' with
      | never => exact .inl rfl
      | after _ | on _ => exact absurd hhead nofun
    | after n =>
      cases e' with
      | after n' =>
        rw [toList_phrase_after, toList_phrase_after] at h
        have hn := decimal_append_inj (by split <;> exact endsNumeral_cons rfl _)
          (by split <;> exact endsNumeral_cons rfl _) (List.cons.inj (List.cons.inj h).2).2
        exact .inl (congrArg after (Subtype.ext hn.1))
      | never | on _ => exact absurd hhead (by simp)
    | on s =>
      cases e' with
      | on s' =>
        rw [toList_phrase_on, toList_phrase_on] at h
        exact .inr ⟨s, s', rfl, rfl, dateWords_injective (List.append_cancel_left h)⟩
      | never | after _ => exact absurd hhead (by simp)
  · rintro (rfl | ⟨s, s', rfl, rfl, hdate⟩)
    · rfl
    · rw [toList_phrase_on, toList_phrase_on, hdate]

theorem endsNumeral_phrase (e : Ending) : EndsNumeral e.phrase.toList := by
  intro c hc
  rw [head?_phrase] at hc
  cases e with
  | never => exact absurd hc nofun
  | after _ | on _ =>
    obtain rfl := Option.some.inj hc
    rfl

end Ending

/-! ## On which days -/

/-- A text that does not go on with a weekday. -/
def EndsNames (s : List Char) : Prop :=
  ∀ (w : Weekday) (x : List Char),
    s ≠ ' ' :: (w.name.toList ++ x) ∧ s ≠ ',' :: ' ' :: (w.name.toList ++ x)

theorem endsNumeral_name (w : Weekday) (x : List Char) : EndsNumeral (w.name.toList ++ x) := by
  cases w <;> exact endsNumeral_cons rfl _

theorem endsNames_phrase (e : Ending) : EndsNames e.phrase.toList := by
  intro w x
  cases e with
  | never => exact ⟨nofun, nofun⟩
  | after n =>
    rw [Ending.toList_phrase_after]
    refine ⟨nofun, fun h => ?_⟩
    have hcount := (List.cons.inj (List.cons.inj h).2).2
    exact not_endsNumeral_decimal n.1 _ (hcount ▸ endsNumeral_name w x)
  | on s =>
    rw [Ending.toList_phrase_on]
    refine ⟨fun h => ?_, nofun⟩
    have hword := (List.cons.inj h).2
    cases w <;> exact absurd (List.cons.inj hword).1 (by decide)

/-- The names of the weekdays after the first. -/
def moreNames (l : List Weekday) : List Char := l.flatMap fun w => ',' :: ' ' :: w.name.toList

theorem toList_names (w : Weekday) (l : List Weekday) :
    (String.intercalate ", " ((w :: l).map Weekday.name)).toList = w.name.toList ++ moreNames l := by
  rw [String.toList_intercalate, List.map_map]
  induction l generalizing w with
  | nil =>
    rw [List.map_cons, List.map_nil, List.intercalate_singleton, moreNames, List.flatMap_nil,
      List.append_nil]
    rfl
  | cons v l ih =>
    rw [List.map_cons, List.map_cons, List.intercalate_cons_cons, ← List.map_cons, ih, moreNames,
      moreNames, List.flatMap_cons, List.append_assoc]
    rfl

theorem moreNames_append_inj {l m : List Weekday} {x y : List Char} (hx : EndsNames x)
    (hy : EndsNames y) (h : moreNames l ++ x = moreNames m ++ y) : l = m ∧ x = y := by
  induction l generalizing m with
  | nil =>
    cases m with
    | nil => exact ⟨rfl, h⟩
    | cons w m =>
      simp only [moreNames, List.flatMap_nil, List.flatMap_cons, List.nil_append, List.cons_append,
        List.append_assoc] at h
      exact absurd h (hx w _).2
  | cons v l ih =>
    cases m with
    | nil =>
      simp only [moreNames, List.flatMap_nil, List.flatMap_cons, List.nil_append, List.cons_append,
        List.append_assoc] at h
      exact absurd h.symm (hy v _).2
    | cons w m =>
      simp only [moreNames, List.flatMap_cons, List.cons_append, List.append_assoc] at h
      obtain ⟨rfl, hrest⟩ := Weekday.prefixFree_name.append_inj (List.cons.inj (List.cons.inj h).2).2
      obtain ⟨rfl, hxy⟩ := ih hrest
      exact ⟨rfl, hxy⟩

theorem names_append_inj {l m : List Weekday} {x y : List Char} (hl : l ≠ []) (hm : m ≠ [])
    (hx : EndsNames x) (hy : EndsNames y)
    (h : (String.intercalate ", " (l.map Weekday.name)).toList ++ x =
      (String.intercalate ", " (m.map Weekday.name)).toList ++ y) : l = m ∧ x = y := by
  obtain ⟨v, l, rfl⟩ := List.exists_cons_of_ne_nil hl
  obtain ⟨w, m, rfl⟩ := List.exists_cons_of_ne_nil hm
  rw [toList_names, toList_names, List.append_assoc, List.append_assoc] at h
  obtain ⟨rfl, hmore⟩ := Weekday.prefixFree_name.append_inj h
  obtain ⟨rfl, hrest⟩ := moreNames_append_inj hx hy hmore
  exact ⟨rfl, hrest⟩

theorem DaySet.eq_of_days {s s' : DaySet} (h : s.days = s'.days) : s = s' := by
  cases s
  cases s'
  simpa using h

namespace MonthlyMode

/-- The summary of a monthly choice of days. -/
def words : MonthlyMode → List Char
  | day d => placeWord ⟨d.1, Nat.lt_succ_of_le d.2.2⟩
  | nth p w => placeWord p.place ++ ' ' :: w.name.toList

theorem words_append_inj {m n : MonthlyMode} {x y : List Char} (hx : EndsNames x) (hy : EndsNames y)
    (h : m.words ++ x = n.words ++ y) : m = n ∧ x = y := by
  cases m with
  | day d =>
    cases n with
    | day e =>
      obtain ⟨hday, hrest⟩ := prefixFree_placeWord.append_inj h
      exact ⟨congrArg day (Subtype.ext (congrArg Fin.val hday)), hrest⟩
    | nth q w =>
      simp only [words, List.append_assoc, List.cons_append] at h
      exact absurd (prefixFree_placeWord.append_inj h).2 (hx w y).1
  | nth p v =>
    cases n with
    | day e =>
      simp only [words, List.append_assoc, List.cons_append] at h
      exact absurd (prefixFree_placeWord.append_inj h).2.symm (hy v x).1
    | nth q w =>
      simp only [words, List.append_assoc, List.cons_append] at h
      obtain ⟨hplace, hname⟩ := prefixFree_placeWord.append_inj h
      obtain ⟨rfl, hrest⟩ := Weekday.prefixFree_name.append_inj (List.cons.inj hname).2
      obtain rfl := Position.place_injective hplace
      exact ⟨rfl, hrest⟩

end MonthlyMode

namespace YearlyMode

/-- The summary of a yearly choice of days. -/
def words : YearlyMode → List Char
  | date m d => (monthName m.1).toList ++ ' ' :: decimal d.1
  | nth p w m => "the ".toList ++
      (placeWord p.place ++ ' ' :: (w.name.toList ++ (" of ".toList ++ (monthName m.1).toList)))

theorem ne_the_monthName (m : Month) (x y : List Char) :
    (monthName m.1).toList ++ x ≠ "the ".toList ++ y := by
  have hnames : ∀ m < 13, 1 ≤ m → ¬(monthName m).toList <+: "the ".toList ∧
      ¬"the ".toList <+: (monthName m).toList := by
    decide +kernel
  intro h
  obtain ⟨hpos, hle⟩ := m.2
  obtain ⟨hname, hthe⟩ := hnames m.1 (by omega) hpos
  have hprefix : (monthName m.1).toList <+: "the ".toList ++ y := h ▸ List.prefix_append _ x
  exact (List.prefix_or_prefix_of_prefix hprefix (List.prefix_append _ y)).elim hname hthe

theorem words_append_inj {m n : YearlyMode} {x y : List Char} (hx : EndsNumeral x) (hy : EndsNumeral y)
    (h : m.words ++ x = n.words ++ y) : m = n ∧ x = y := by
  cases m with
  | date m d =>
    cases n with
    | date n e =>
      simp only [words, List.append_assoc, List.cons_append] at h
      obtain ⟨rfl, hnumeral⟩ := prefixFree_monthName.append_inj h
      obtain ⟨hday, hrest⟩ := decimal_append_inj hx hy (List.cons.inj hnumeral).2
      exact ⟨congrArg (date m) (Subtype.ext hday), hrest⟩
    | nth q w n =>
      simp only [words, List.append_assoc] at h
      exact absurd h (ne_the_monthName m _ _)
  | nth p v m =>
    cases n with
    | date n e =>
      simp only [words, List.append_assoc] at h
      exact absurd h.symm (ne_the_monthName n _ _)
    | nth q w n =>
      simp only [words, List.append_assoc, List.cons_append] at h
      obtain ⟨hplace, hname⟩ := prefixFree_placeWord.append_inj (List.append_cancel_left h)
      obtain ⟨rfl, hmonth⟩ := Weekday.prefixFree_name.append_inj (List.cons.inj hname).2
      obtain ⟨rfl, hrest⟩ := prefixFree_monthName.append_inj (List.append_cancel_left hmonth)
      obtain rfl := Position.place_injective hplace
      exact ⟨rfl, hrest⟩

end YearlyMode

namespace Pattern

/-- The days that the pattern chooses, or those of the anchor where it names none. -/
def modeOr (anchor : Instant) (p : Pattern) : Option Mode :=
  p.mode.or (ofAnchor p.frequency anchor).mode

/-- The pattern with the days of the anchor written out where it names none. -/
def filled (anchor : Instant) : Pattern → Pattern
  | daily => daily
  | weekly days => weekly (some (days.getD (DaySet.singleton anchor.weekday)))
  | monthly mode => monthly (some (mode.getD (.day anchor.date.monthDay)))
  | yearly mode => yearly (some (mode.getD (.date anchor.date.monthNumber anchor.date.monthDay)))

variable (anchor : Instant) (p q : Pattern)

theorem frequency_filled : (p.filled anchor).frequency = p.frequency := by
  cases p <;> rfl

theorem mode_filled : (p.filled anchor).mode = p.modeOr anchor := by
  rcases p with _ | (_ | _) | (_ | (_ | _)) | (_ | (_ | _)) <;> rfl

theorem phrase_filled : (p.filled anchor).phrase anchor = p.phrase anchor := by
  rcases p with _ | (_ | _) | (_ | (_ | _)) | (_ | (_ | _)) <;> rfl

theorem filled_eq_iff : p.filled anchor = q.filled anchor ↔
    p.frequency = q.frequency ∧ p.modeOr anchor = q.modeOr anchor := by
  constructor
  · intro h
    rw [← frequency_filled anchor p, ← mode_filled, h, frequency_filled, mode_filled]
    exact ⟨rfl, rfl⟩
  · rintro ⟨hfrequency, hmode⟩
    have hp := ofMode?_frequency_mode (p.filled anchor)
    rw [frequency_filled, mode_filled, hfrequency, hmode, ← frequency_filled anchor q,
      ← mode_filled, ofMode?_frequency_mode] at hp
    exact (Option.some.inj hp).symm

theorem toList_phrase_weekly (s : DaySet) :
    ((weekly (some s)).phrase anchor).toList =
      " on ".toList ++ (String.intercalate ", " (s.days.map Weekday.name)).toList :=
  String.toList_append

theorem toList_phrase_monthly (mode : MonthlyMode) :
    ((monthly (some mode)).phrase anchor).toList = " on the ".toList ++ mode.words := by
  cases mode with
  | day d =>
    have hday : (⟨d.1, Nat.lt_succ_of_le d.2.2⟩ : Fin 32) ≠ 0 := Fin.ne_of_val_ne (Nat.ne_of_gt d.2.1)
    rw [phrase, String.toList_append, MonthlyMode.words, placeWord, if_neg hday]
  | nth p w =>
    rw [phrase, MonthlyMode.words, ← p.toList_text]
    simp only [String.toList_append, List.append_assoc]
    rfl

theorem toList_phrase_yearly (mode : YearlyMode) :
    ((yearly (some mode)).phrase anchor).toList = " on ".toList ++ mode.words := by
  cases mode with
  | date m d =>
    rw [phrase, YearlyMode.words]
    simp only [String.toList_append, List.append_assoc, numeral, String.toList_ofList]
    rfl
  | nth p w m =>
    rw [phrase, YearlyMode.words, ← p.toList_text]
    simp only [String.toList_append, List.append_assoc]
    rfl

variable {anchor p q} {x y : List Char}

/-- **The middle of a summary tells on which days**, for patterns that are equally often. -/
theorem phrase_append_inj (hx : EndsNames x ∧ EndsNumeral x) (hy : EndsNames y ∧ EndsNumeral y)
    (hfrequency : p.frequency = q.frequency)
    (h : (p.phrase anchor).toList ++ x = (q.phrase anchor).toList ++ y) :
    p.filled anchor = q.filled anchor ∧ x = y := by
  rw [← phrase_filled anchor p, ← phrase_filled anchor q] at h
  cases p with
  | daily =>
    cases q with
    | daily => exact ⟨rfl, h⟩
    | weekly _ | monthly _ | yearly _ => exact absurd hfrequency nofun
  | weekly days =>
    cases q with
    | weekly days' =>
      rw [filled, filled, toList_phrase_weekly, toList_phrase_weekly, List.append_assoc,
        List.append_assoc] at h
      obtain ⟨hdays, hrest⟩ := names_append_inj (DaySet.nonempty _) (DaySet.nonempty _) hx.1 hy.1
        (List.append_cancel_left h)
      exact ⟨congrArg (weekly ∘ some) (DaySet.eq_of_days hdays), hrest⟩
    | daily | monthly _ | yearly _ => exact absurd hfrequency nofun
  | monthly mode =>
    cases q with
    | monthly mode' =>
      rw [filled, filled, toList_phrase_monthly, toList_phrase_monthly, List.append_assoc,
        List.append_assoc] at h
      obtain ⟨hmode, hrest⟩ := MonthlyMode.words_append_inj hx.1 hy.1 (List.append_cancel_left h)
      exact ⟨congrArg (monthly ∘ some) hmode, hrest⟩
    | daily | weekly _ | yearly _ => exact absurd hfrequency nofun
  | yearly mode =>
    cases q with
    | yearly mode' =>
      rw [filled, filled, toList_phrase_yearly, toList_phrase_yearly, List.append_assoc,
        List.append_assoc] at h
      obtain ⟨hmode, hrest⟩ := YearlyMode.words_append_inj hx.2 hy.2 (List.append_cancel_left h)
      exact ⟨congrArg (yearly ∘ some) hmode, hrest⟩
    | daily | weekly _ | monthly _ => exact absurd hfrequency nofun

end Pattern

/-! ## Summaries -/

namespace Rule

variable {r s : Rule} {anchor : Instant}

theorem toList_render (r : Rule) (anchor : Instant) :
    (r.render anchor).toList = r.pattern.frequency.every r.interval ++
      ((r.pattern.phrase anchor).toList ++ r.ending.phrase.toList) := by
  unfold render Frequency.every
  split
  · simp only [String.toList_append, List.append_assoc]
  · simp only [String.toList_append, numeral, String.toList_ofList, List.append_assoc]
    rfl

/-- **Two rules have the same summary exactly if they repeat equally often, on the same days, and up to
the same day or count**, where days that a rule leaves open are those of the anchor. -/
theorem render_eq_iff : r.render anchor = s.render anchor ↔
    r.pattern.frequency = s.pattern.frequency ∧ r.interval = s.interval ∧
      r.pattern.modeOr anchor = s.pattern.modeOr anchor ∧ r.ending.SameDay s.ending := by
  have hends (e : Ending) : EndsNames e.phrase.toList ∧ EndsNumeral e.phrase.toList :=
    ⟨endsNames_phrase e, e.endsNumeral_phrase⟩
  constructor
  · intro h
    rw [← String.toList_inj, toList_render, toList_render] at h
    obtain ⟨⟨hfrequency, hinterval⟩, hrest⟩ := Frequency.every_append_inj h
    obtain ⟨hfilled, hending⟩ := Pattern.phrase_append_inj (hends _) (hends _) hfrequency hrest
    obtain ⟨-, hmode⟩ := (Pattern.filled_eq_iff anchor _ _).1 hfilled
    exact ⟨hfrequency, hinterval, hmode, Ending.phrase_eq_iff.1 (String.toList_inj.1 hending)⟩
  · rintro ⟨hfrequency, hinterval, hmode, hending⟩
    have hfilled := (Pattern.filled_eq_iff anchor _ _).2 ⟨hfrequency, hmode⟩
    have hphrase : r.pattern.phrase anchor = s.pattern.phrase anchor := by
      rw [← Pattern.phrase_filled anchor r.pattern, hfilled, Pattern.phrase_filled]
    rw [← String.toList_inj, toList_render, toList_render, hfrequency, hinterval, hphrase,
      Ending.phrase_eq_iff.2 hending]

end Rule

end Recurrence
