import Recurrence.Form.Rule
import Recurrence.Proofs.Calendar.Instant
import Recurrence.Proofs.Rule.Strict

/-!
# What tolerant reading gives

A text has no rule exactly if none of its tokens gives a value to the frequency, or the last one that
does gives it an unknown one.  Every other text has a rule, however faulty its other tokens are
(`Rule.unreadable_iff`).

The parts of that rule are what the tokens say: a number counts if it lies between the bounds of its
key, a weekday if it is one, a last second if it can be read.  `TokenList.form` writes these parts down
as a form, in which the numbers are still bare.  The check of forms has bounds of its own and looks
whether the mode fits the frequency; it finds nothing wrong with such a form, and the rule that it gives
is the one that was read (`TokenList.ofForm_form`).
-/

namespace Recurrence

open Text

theorem Frequency.ofName?_eq_some_iff {s : String} {f : Frequency} :
    ofName? s = some f ↔ f.name = s := by
  constructor
  · intro h
    have hfind : all.find? (·.name == s) = some f := h
    have hname := List.find?_some hfind
    exact eq_of_beq hname
  · rintro rfl
    exact ofName?_name f

namespace Position

/-- Whether a number is that of a position. -/
def isNumber (i : Int) : Bool := (ofNumber? i).isSome

theorem eq_number_of_ofNumber? {i : Int} {p : Position} (h : ofNumber? i = some p) :
    i = p.number := by
  grind [ofNumber?, number]

theorem filter_isNumber_cases (x : Option Int) :
    (x.filter isNumber = none ∧ x.bind ofNumber? = none) ∨
      ∃ i p, x.filter isNumber = some i ∧ x.bind ofNumber? = some p ∧ ofNumber? i = some p := by
  cases x with
  | none => exact .inl ⟨rfl, rfl⟩
  | some i =>
    cases hp : ofNumber? i with
    | none => exact .inl ⟨by simp [isNumber, hp], hp⟩
    | some p => exact .inr ⟨i, p, by simp [isNumber, hp], hp, hp⟩

end Position

theorem DaySet.ofList?_eq_none_iff {l : List Weekday} : ofList? l = none ↔ l = [] := by
  rw [ofList?]
  split
  · rename_i hnone
    rw [List.filter_eq_nil_iff] at hnone
    refine iff_of_true rfl (List.eq_nil_iff_forall_not_mem.2 fun w hw => ?_)
    exact hnone w w.mem_all (List.contains_iff_mem.2 hw)
  · rename_i hsome
    refine iff_of_false (Option.some_ne_none _) ?_
    rintro rfl
    exact hsome rfl

/-- A form that carries its kind. -/
def kindForm (kind : String) (fields : List (String × Value)) : Value :=
  Json.object (("kind", .text kind) :: fields)

namespace Reading

variable {α β : Type}

@[simp] theorem value_andThen (x : Reading α) (f : α → Reading β) :
    (x.andThen f).value = (f x.value).value := rfl

@[simp] theorem value_map (f : α → β) (x : Reading α) : (x.map f).value = f x.value := rfl

end Reading

namespace TokenList

variable {l : TokenList} {k : Key} {f : Frequency} {least most : Option Int} {i : Int}

/-! ## The frequency -/

/-- The value in the last of the tokens of a key that have one. -/
def LastValue (l : TokenList) (k : Key) (raw : List Char) : Prop :=
  ∃ before t after, l.tokens = before ++ t :: after ∧ t.name = k.chars ∧ t.value = some raw ∧
    ∀ u ∈ after, u.name = k.chars → u.value = none

theorem get?_eq_some_iff_lastValue {v : List Char} :
    l.get? k = some v ↔ ∃ raw, l.LastValue k raw ∧ strip raw = v := by
  rw [get?_eq_some_iff]
  constructor
  · rintro ⟨t, raw, ⟨hname, hraw, hv⟩, before, after, htokens, hafter⟩
    exact ⟨raw, ⟨before, t, after, htokens, hname, hraw, hafter⟩, hv⟩
  · rintro ⟨raw, ⟨before, t, after, htokens, hname, hraw, hafter⟩, hv⟩
    exact ⟨t, raw, ⟨hname, hraw, hv⟩, before, after, htokens, hafter⟩

theorem get?_eq_none_iff : l.get? k = none ↔ ∀ t ∈ l.tokens, t.name = k.chars → t.value = none := by
  rw [get?, value?, List.findSome?_eq_none_iff]
  simp only [List.mem_reverse, ite_eq_right_iff, Option.map_eq_none_iff]

theorem frequency?_eq_some_iff :
    l.frequency? = some f ↔ ∃ raw, l.LastValue .freq raw ∧ upper (strip raw) = f.name.toList := by
  have hname (v : List Char) :
      Frequency.ofName? (String.ofList (upper v)) = some f ↔ upper v = f.name.toList := by
    rw [Frequency.ofName?_eq_some_iff, ← String.toList_inj, String.toList_ofList, eq_comm]
  rw [frequency?, Option.bind_eq_some_iff]
  simp only [hname, get?_eq_some_iff_lastValue]
  constructor
  · rintro ⟨v, ⟨raw, hraw, rfl⟩, hv⟩
    exact ⟨raw, hraw, hv⟩
  · rintro ⟨raw, hraw, hv⟩
    exact ⟨strip raw, ⟨raw, hraw, rfl⟩, hv⟩

theorem frequency?_eq_none_iff :
    l.frequency? = none ↔ (∀ t ∈ l.tokens, t.name = Key.freq.chars → t.value = none) ∨
      ∃ raw, l.LastValue .freq raw ∧ ∀ f : Frequency, upper (strip raw) ≠ f.name.toList := by
  rw [← get?_eq_none_iff, Option.eq_none_iff_forall_ne_some]
  constructor
  · intro hnone
    cases hv : l.get? .freq with
    | none => exact .inl rfl
    | some v =>
      obtain ⟨raw, hraw, rfl⟩ := get?_eq_some_iff_lastValue.1 hv
      exact .inr ⟨raw, hraw, fun f hf => hnone f (frequency?_eq_some_iff.2 ⟨raw, hraw, hf⟩)⟩
  · intro hnone f hf
    obtain ⟨raw, hraw, hname⟩ := frequency?_eq_some_iff.1 hf
    have hv : l.get? .freq = some (strip raw) := get?_eq_some_iff_lastValue.2 ⟨raw, hraw, rfl⟩
    rcases hnone with hnone | ⟨raw', hraw', hnone⟩
    · exact absurd (hnone.symm.trans hv) nofun
    · have hv' : l.get? .freq = some (strip raw') := get?_eq_some_iff_lastValue.2 ⟨raw', hraw', rfl⟩
      rw [Option.some.inj (hv.symm.trans hv')] at hname
      exact hnone f hname

/-! ## The parts of a rule as they are read -/

/-- The number of a key, if its value is a number between the bounds. -/
def number? (l : TokenList) (k : Key) (least most : Option Int) : Option Int :=
  ((l.get? k).bind readInt?).filter (between least most)

/-- The weekdays among the items of the list of weekdays. -/
def dayItems (l : TokenList) : List DayItem :=
  ((l.get? .byDay).map fun v => (splitOn ',' v).filterMap dayItem?).getD []

/-- The number of a position: the one of its own key, or else the one in front of a weekday. -/
def positionNumber? (l : TokenList) (d : DayItem) : Option Int :=
  ((l.number? .bySetPos none none).filter Position.isNumber).or (d.ordinal.filter Position.isNumber)

/-- The fields of a weekday with its position, which is the first weekday of all. -/
def nthFields? (l : TokenList) : Option (List (String × Value)) :=
  l.dayItems.head?.bind fun d => (l.positionNumber? d).map fun i =>
    [("position", .int i), ("weekday", .int d.weekday.index)]

/-- The days that the tokens choose, as a form. -/
def modeForm (l : TokenList) : Frequency → Value
  | .daily => .null
  | .weekly =>
    if l.dayItems = [] then .null
    else kindForm "weekly_days" [("days", .set (l.dayItems.map fun d => .int d.weekday.index))]
  | .monthly =>
    match l.number? .byMonthDay (some 1) (some 31) with
    | some d => kindForm "monthly_day" [("day", .int d)]
    | none => (l.nthFields?.map (kindForm "monthly_nth_weekday")).getD .null
  | .yearly =>
    match l.number? .byMonth (some 1) (some 12) with
    | none => .null
    | some m =>
      match l.number? .byMonthDay (some 1) (some 31) with
      | some d => kindForm "yearly_date" [("month", .int m), ("day", .int d)]
      | none =>
        (l.nthFields?.map fun fields =>
          kindForm "yearly_nth_weekday" (fields ++ [("month", .int m)])).getD .null

/-- When the tokens say that the repetition stops, as a form. -/
def endingForm (l : TokenList) : Value :=
  match l.number? .count (some 1) none, (l.get? .untilTime).bind Compact.read? with
  | some n, _ => kindForm "after" [("count", .int n)]
  | none, some t => kindForm "on" [("until", .moment (.stamp (Stamp.ofInstant t.instant)))]
  | none, none => kindForm "never" []

/-- What the tokens say at a frequency, as a form of a rule. -/
def form (l : TokenList) (f : Frequency) : Value :=
  Json.object [("frequency", .text f.name),
    ("interval", .int ((l.number? .interval (some 1) none).getD 1)), ("mode", l.modeForm f),
    ("end", l.endingForm)]

/-! ## Numbers -/

theorem value_readNumber (l : TokenList) (k : Key) (least most : Option Int) :
    (l.readNumber k least most).value = l.number? k least most := by
  cases hv : l.get? k with
  | none =>
    rw [readNumber_none hv, number?, hv]
    rfl
  | some v =>
    cases hi : readInt? v with
    | none => simp [readNumber, number?, hv, hi, Reading.complain]
    | some i =>
      cases hbetween : between least most i with
      | true =>
        rw [readNumber_between hv hi hbetween, number?, hv, Option.bind_some, hi,
          Option.filter_some_pos hbetween]
        rfl
      | false =>
        have hfaulty : (readInt? v).any (between least most) = false := by rw [hi]; exact hbetween
        obtain ⟨c, -, hread⟩ := readNumber_faulty hv hfaulty
        rw [hread, number?, hv, Option.bind_some, hi, Option.filter_some_neg (by simp [hbetween])]
        rfl

end TokenList

/-! ## The check of forms -/

theorem Json.field?_object (name key : String) (v : Value) (fields : List (String × Value)) :
    (object ((name, v) :: fields)).field? key =
      if name = key then some v else (object fields).field? key := by
  simp only [object, Value.field?, List.map_cons, List.find?_cons]
  by_cases h : name = key
  · simp [h]
  · have hne : (name == key) = false := beq_eq_false_iff_ne.2 h
    simp only [hne, if_neg h]

namespace RuleForm

open TokenList (between)

variable {i : Int} {kind : String} {fields : List (String × Value)}

theorem between_int {lo : Int} {hi : Option Int} (h : between (some lo) hi i = true) :
    Field.between lo hi (.int i) = .ok i := by
  rw [between, Bool.not_eq_true', Bool.or_eq_false_iff, Option.any_some] at h
  obtain ⟨hlo, hhi⟩ := h
  simp only [Field.between, Field.int, if_neg (of_decide_eq_false hlo)]
  rw [if_neg]
  simpa using hhi

/-! Of a number between the bounds of the reader, the reader and the check make the same part. -/

theorem positive_int (i : Int) (h : between (some 1) none i = true) :
    ∃ n, TokenList.positive? i = some n ∧ positive (.int i) = .ok n := by
  have hi : 1 ≤ i := by simpa [TokenList.between_none] using h
  have hpos : 0 < i.toNat := by omega
  refine ⟨⟨i.toNat, hpos⟩, dif_pos hpos, ?_⟩
  simp only [positive, between_int h, dif_pos hpos]

theorem upTo_int (most : Nat) (i : Int) (h : between (some 1) (some most) i = true) :
    ∃ n, TokenList.upTo? most i = some n ∧ upTo most (.int i) = .ok n := by
  have hi : 1 ≤ i ∧ i ≤ most := by simpa [TokenList.between_some] using h
  have hbounds : 1 ≤ i.toNat ∧ i.toNat ≤ most := by omega
  refine ⟨⟨i.toNat, hbounds⟩, dif_pos hbounds, ?_⟩
  simp only [upTo, between_int h, dif_pos hbounds]

theorem position_int {p : Position} (h : Position.ofNumber? i = some p) :
    position (.int i) = .ok p := by
  rw [Position.eq_number_of_ofNumber? h]
  cases p <;> rfl

theorem weekday_index (w : Weekday) : weekday (.int w.index) = .ok w := by
  cases w <;> rfl

theorem all_weekday_index (n : Nat) (ws : List Weekday) :
    Check.all weekday n (ws.map fun w => .int w.index) = .ok ws := by
  induction ws generalizing n with
  | nil => rfl
  | cons w ws ih =>
    rw [List.map_cons, Check.all, weekday_index, ih]
    rfl

theorem days_index {ws : List Weekday} {s : DaySet} (h : DaySet.ofList? ws = some s) :
    days (.set (ws.map fun w => .int w.index)) = .ok s := by
  simp only [days, daySet, all_weekday_index, h]

theorem checkInstant_ofInstant (t : Instant) :
    FormTime.checkInstant (.moment (.stamp (Stamp.ofInstant t))) = .ok t := by
  unfold FormTime.checkInstant
  simp only [FormTime.check, Stamp.utc_ofInstant]

theorem lastSecond_instant (t : Second) :
    lastSecond (.moment (.stamp (Stamp.ofInstant t.instant))) = .ok t := by
  have hstamp (s : Stamp) : lastSecond (.moment (.stamp s)) =
      (FormTime.checkInstant (.moment (.stamp s))).map Instant.second := rfl
  rw [hstamp, checkInstant_ofInstant]
  exact congrArg Except.ok t.second_instant

theorem tagged_kindForm {α : Type} {ofKind? : Value → String → Option (Check α)} {a : α}
    (h : ofKind? (kindForm kind fields) kind = some (.ok a)) :
    tagged ofKind? (kindForm kind fields) = .ok a := by
  have hkind : (kindForm kind fields).field? "kind" = some (.text kind) := by
    rw [kindForm, Json.field?_object, if_pos rfl]
  have hmap : kindForm kind fields =
      .map ((.text "kind", .text kind) :: fields.map fun f => (.text f.1, f.2)) := rfl
  rw [hmap] at h hkind ⊢
  simp only [tagged, hkind, h]
  rfl

theorem mode_kindForm {m : Mode}
    (h : modeOfKind? (kindForm kind fields) kind = some (.ok m)) :
    mode (kindForm kind fields) = .ok (some m) := by
  have hmode : mode (kindForm kind fields) =
      (tagged modeOfKind? (kindForm kind fields)).map some := rfl
  rw [hmode, tagged_kindForm h]
  rfl

theorem ofForm_object {parts : Fields} (h : RuleForm.fields (Json.object fields) = .ok parts) :
    Rule.ofForm (Json.object fields) = assemble parts := by
  rw [Json.object] at h ⊢
  simp only [Rule.ofForm, h]

/-! Each kind of mode is checked field by field. -/

variable {v v' v'' : Value}

theorem mode_weeklyDays {s : DaySet} (h : days v = .ok s) :
    mode (kindForm "weekly_days" [("days", v)]) = .ok (some (.weeklyDays s)) := by
  apply mode_kindForm
  simp [modeOfKind?, Field.required, kindForm, Json.field?_object, h, Check.at, Except.map]

theorem mode_monthlyDay {d : MonthDay} (h : monthDay v = .ok d) :
    mode (kindForm "monthly_day" [("day", v)]) = .ok (some (.monthlyDay d)) := by
  apply mode_kindForm
  simp [modeOfKind?, Field.required, kindForm, Json.field?_object, h, Check.at, Except.map]

theorem mode_monthlyNth {p : Position} {w : Weekday} (hp : position v = .ok p)
    (hw : weekday v' = .ok w) :
    mode (kindForm "monthly_nth_weekday" [("position", v), ("weekday", v')]) =
      .ok (some (.monthlyNth p w)) := by
  apply mode_kindForm
  simp [modeOfKind?, Field.required, kindForm, Json.field?_object, hp, hw, Check.at, Check.map₂]

theorem mode_yearlyDate {m : Month} {d : MonthDay} (hm : month v = .ok m) (hd : monthDay v' = .ok d) :
    mode (kindForm "yearly_date" [("month", v), ("day", v')]) = .ok (some (.yearlyDate m d)) := by
  apply mode_kindForm
  simp [modeOfKind?, Field.required, kindForm, Json.field?_object, hm, hd, Check.at, Check.map₂]

theorem mode_yearlyNth {p : Position} {w : Weekday} {m : Month} (hp : position v = .ok p)
    (hw : weekday v' = .ok w) (hm : month v'' = .ok m) :
    mode (kindForm "yearly_nth_weekday" [("position", v), ("weekday", v'), ("month", v'')]) =
      .ok (some (.yearlyNth p w m)) := by
  apply mode_kindForm
  simp [modeOfKind?, Field.required, kindForm, Json.field?_object, hp, hw, hm, Check.at, Check.map₂,
    Check.and]

/-! So is each kind of ending. -/

theorem ending_never : tagged endingOfKind? (kindForm "never" []) = .ok .never :=
  tagged_kindForm rfl

theorem ending_after {n : Positive} (h : positive v = .ok n) :
    tagged endingOfKind? (kindForm "after" [("count", v)]) = .ok (.after n) := by
  apply tagged_kindForm
  simp [endingOfKind?, Field.required, kindForm, Json.field?_object, h, Check.at, Except.map]

theorem ending_on {t : Second} (h : lastSecond v = .ok t) :
    tagged endingOfKind? (kindForm "on" [("until", v)]) = .ok (.on t) := by
  apply tagged_kindForm
  simp [endingOfKind?, Field.required, kindForm, Json.field?_object, h, Check.at, Except.map]

end RuleForm

namespace TokenList

variable {l : TokenList} {i : Int}

/-! ## The parts that are read -/

/-- Either no number counts and there is no such part, or the check makes the part that was read of the
number that counts. -/
theorem number?_cases {α : Type} {k : Key} {least most : Option Int} {make : Int → Option α}
    {check : Value → Check α}
    (h : ∀ i, between least most i = true → ∃ a, make i = some a ∧ check (.int i) = .ok a) :
    (l.number? k least most = none ∧ (l.readNumber k least most).value.bind make = none) ∨
      ∃ i a, l.number? k least most = some i ∧
        (l.readNumber k least most).value.bind make = some a ∧ check (.int i) = .ok a := by
  rw [value_readNumber]
  cases hn : l.number? k least most with
  | none => exact .inl ⟨rfl, rfl⟩
  | some i =>
    have hbetween : between least most i = true := (Option.filter_eq_some_iff.1 hn).2
    obtain ⟨a, hmake, hcheck⟩ := h i hbetween
    exact .inr ⟨i, a, rfl, hmake, hcheck⟩

theorem monthDay_cases (l : TokenList) :
    (l.number? .byMonthDay (some 1) (some 31) = none ∧ l.readMonthDay.value = none) ∨
      ∃ i d, l.number? .byMonthDay (some 1) (some 31) = some i ∧ l.readMonthDay.value = some d ∧
        RuleForm.monthDay (.int i) = .ok d :=
  number?_cases (RuleForm.upTo_int 31)

theorem month_cases (l : TokenList) :
    (l.number? .byMonth (some 1) (some 12) = none ∧ l.readMonth.value = none) ∨
      ∃ i m, l.number? .byMonth (some 1) (some 12) = some i ∧ l.readMonth.value = some m ∧
        RuleForm.month (.int i) = .ok m :=
  number?_cases (RuleForm.upTo_int 12)

theorem positive_cases (l : TokenList) (k : Key) :
    (l.number? k (some 1) none = none ∧ (l.readPositive k).value = none) ∨
      ∃ i n, l.number? k (some 1) none = some i ∧ (l.readPositive k).value = some n ∧
        RuleForm.positive (.int i) = .ok n :=
  number?_cases RuleForm.positive_int

theorem value_readPosition (l : TokenList) :
    l.readPosition.value = (l.number? .bySetPos none none).bind Position.ofNumber? := by
  rw [readPosition, Reading.value_andThen, value_readNumber]
  cases l.number? .bySetPos none none with
  | none => rfl
  | some i =>
    rw [Option.bind_some]
    cases hp : Position.ofNumber? i with
    | none => simp only [hp]; rfl
    | some p => simp only [hp]; rfl

theorem value_readDays (l : TokenList) : l.readDays.value = l.dayItems := by
  cases hv : l.get? .byDay with
  | none => simp [readDays, dayItems, hv, Reading.pure]
  | some v =>
    cases v with
    | nil =>
      have hempty : dayItem? [] = none := by decide
      simp [readDays, dayItems, hv, splitOn, hempty, Reading.pure]
    | cons c v =>
      rw [readDays_cons hv, value_readItems, dayItems, hv]
      rfl

/-- Either no position counts and there is no weekday with one, or the check finds the position that was
read. -/
theorem nthFields?_cases (l : TokenList) :
    (l.nthFields? = none ∧ l.readNth.value = none) ∨
      ∃ i p w, l.nthFields? = some [("position", .int i), ("weekday", .int w.index)] ∧
        l.readNth.value = some (p, w) ∧ RuleForm.position (.int i) = .ok p := by
  rw [nthFields?, readNth, Reading.value_andThen, value_readDays]
  cases l.dayItems with
  | nil => exact .inl ⟨rfl, rfl⟩
  | cons d days =>
    simp only [List.head?_cons, Option.bind_some, Reading.value_map, value_readPosition]
    rw [positionNumber?]
    rcases Position.filter_isNumber_cases (l.number? .bySetPos none none) with
      ⟨hown, hread⟩ | ⟨i, p, hown, hread, hp⟩
    · rw [hown, hread, Option.none_or]
      rcases Position.filter_isNumber_cases d.ordinal with
        ⟨hfront, hread⟩ | ⟨i, p, hfront, hread, hp⟩
      · rw [hfront, hread]
        exact .inl ⟨rfl, rfl⟩
      · rw [hfront, hread]
        exact .inr ⟨i, p, d.weekday, rfl, rfl, RuleForm.position_int hp⟩
    · rw [hown, hread, Option.some_or]
      exact .inr ⟨i, p, d.weekday, rfl, rfl, RuleForm.position_int hp⟩

/-! ## The form of what is read -/

/-- The check finds the mode that was read. -/
theorem mode_modeForm (l : TokenList) (f : Frequency) :
    RuleForm.mode (l.modeForm f) = .ok (l.readPattern f).value.mode := by
  cases f with
  | daily => rfl
  | weekly =>
    rw [modeForm, readPattern, Reading.value_map, value_readDays]
    by_cases hdays : l.dayItems = []
    · rw [if_pos hdays, hdays]
      rfl
    · rw [if_neg hdays]
      cases hset : DaySet.ofList? (l.dayItems.map (·.weekday)) with
      | none => exact absurd (List.map_eq_nil_iff.1 (DaySet.ofList?_eq_none_iff.1 hset)) hdays
      | some s =>
        have hcheck := RuleForm.days_index hset
        rw [List.map_map] at hcheck
        exact RuleForm.mode_weeklyDays hcheck
  | monthly =>
    rw [modeForm, readPattern, Reading.value_andThen]
    rcases monthDay_cases l with ⟨hn, hread⟩ | ⟨i, d, hn, hread, hd⟩
    · rw [hn, hread]
      rcases nthFields?_cases l with ⟨hfields, hread⟩ | ⟨i, p, w, hfields, hread, hp⟩
      · simp only [hfields, Reading.value_map, hread]
        rfl
      · simp only [hfields, Reading.value_map, hread]
        exact RuleForm.mode_monthlyNth hp (RuleForm.weekday_index w)
    · rw [hn, hread]
      exact RuleForm.mode_monthlyDay hd
  | yearly =>
    rw [modeForm, readPattern, Reading.value_andThen]
    rcases month_cases l with ⟨hn, hread⟩ | ⟨i, m, hn, hread, hm⟩
    · rw [hn, hread]
      rfl
    · rw [hn, hread]
      simp only [Reading.value_andThen]
      rcases monthDay_cases l with ⟨hn, hread⟩ | ⟨j, d, hn, hread, hd⟩
      · rw [hn, hread]
        rcases nthFields?_cases l with ⟨hfields, hread⟩ | ⟨j, p, w, hfields, hread, hp⟩
        · simp only [hfields, Reading.value_map, hread]
          rfl
        · simp only [hfields, Reading.value_map, hread]
          exact RuleForm.mode_yearlyNth hp (RuleForm.weekday_index w) hm
      · rw [hn, hread]
        exact RuleForm.mode_yearlyDate hm hd

/-- The check finds the ending that was read. -/
theorem ending_endingForm (l : TokenList) :
    RuleForm.tagged RuleForm.endingOfKind? l.endingForm = .ok l.readEnding.value := by
  rw [endingForm, readEnding, Reading.value_andThen]
  rcases positive_cases l .count with ⟨hn, hread⟩ | ⟨i, n, hn, hread, hcheck⟩
  · rw [hn, hread]
    cases hv : l.get? .untilTime with
    | none => exact RuleForm.ending_never
    | some v =>
      cases v with
      | nil =>
        have hnone : Compact.read? [] = none := by decide
        simp only [Option.bind_some, hnone]
        exact RuleForm.ending_never
      | cons c v =>
        rw [Option.bind_some]
        cases ht : Compact.read? (c :: v) with
        | none =>
          simp only [ht]
          exact RuleForm.ending_never
        | some t =>
          simp only [ht]
          exact RuleForm.ending_on (RuleForm.lastSecond_instant t)
  · rw [hn, hread]
    exact RuleForm.ending_after hcheck

theorem interval_form (l : TokenList) :
    RuleForm.positive (.int ((l.number? .interval (some 1) none).getD 1)) =
      .ok ((l.readPositive .interval).value.getD Positive.one) := by
  rcases positive_cases l .interval with ⟨hn, hread⟩ | ⟨i, n, hn, hread, hcheck⟩
  · rw [hn, hread]
    rfl
  · rw [hn, hread]
    exact hcheck

theorem frequency_readPattern (l : TokenList) (f : Frequency) :
    (l.readPattern f).value.frequency = f := by
  cases f with
  | daily => rfl
  | weekly => rfl
  | monthly =>
    rw [readPattern, Reading.value_andThen]
    cases l.readMonthDay.value with
    | none => rfl
    | some d => rfl
  | yearly =>
    rw [readPattern, Reading.value_andThen]
    cases l.readMonth.value with
    | none => rfl
    | some m =>
      simp only [Reading.value_andThen]
      cases l.readMonthDay.value with
      | none => rfl
      | some d => rfl

/-- **The check passes what is read.**  The parts that the tokens give at a frequency lie in the bounds of
the check and fit each other, and they make up the rule that is read. -/
theorem ofForm_form (l : TokenList) (f : Frequency) :
    Rule.ofForm (l.form f) = .ok (l.readRule f).value := by
  have hfields : RuleForm.fields (l.form f) =
      .ok ⟨f, (l.readPositive .interval).value.getD Positive.one, (l.readPattern f).value.mode,
        l.readEnding.value⟩ := by
    simp [RuleForm.fields, form, Field.required, Field.optional, Json.field?_object,
      RuleForm.frequency, interval_form, mode_modeForm, ending_endingForm, Check.at, Check.map₂,
      Check.and]
  have hpattern : Pattern.ofMode? f (l.readPattern f).value.mode = some (l.readPattern f).value :=
    Pattern.ofMode?_eq_some_iff.2 ⟨frequency_readPattern l f, rfl⟩
  refine (RuleForm.ofForm_object hfields).trans ?_
  simp only [RuleForm.assemble, hpattern]
  rfl

end TokenList

namespace Rule

theorem decode?_eq (s : String) : decode? s =
    (TokenList.ofText s.toList).frequency?.map fun f =>
      ((TokenList.ofText s.toList).readRule f).value := by
  cases hf : (TokenList.ofText s.toList).frequency? with
  | some f =>
    rw [decode?, read_of_frequency?_eq_some hf]
    rfl
  | none =>
    rw [TokenList.frequency?] at hf
    rw [decode?, read]
    cases hraw : (TokenList.ofText s.toList).get? .freq with
    | none => rfl
    | some raw =>
      cases raw with
      | nil => rfl
      | cons c raw =>
        rw [hraw, Option.bind_some] at hf
        simp only [hf]
        rfl

/-- **What tolerant reading gives.**  A text has no rule exactly if no token gives the frequency a value,
or the last value that one gives is none of the four names.  With one of them as the last value it has a
rule of that frequency, whatever the other tokens are: the one that the check of forms makes of what they
say, in which interval and count are at least one. -/
theorem unreadable_iff (s : String) :
    (decode? s = none ↔
      (∀ t ∈ (TokenList.ofText s.toList).tokens, t.name = Key.freq.chars → t.value = none) ∨
        ∃ raw, (TokenList.ofText s.toList).LastValue .freq raw ∧
          ∀ f : Frequency, upper (strip raw) ≠ f.name.toList) ∧
      ∀ (f : Frequency) (raw : List Char), (TokenList.ofText s.toList).LastValue .freq raw →
        upper (strip raw) = f.name.toList →
          ∃ r, decode? s = some r ∧ Rule.ofForm ((TokenList.ofText s.toList).form f) = .ok r ∧
            r.pattern.frequency = f ∧ 1 ≤ r.interval.1 ∧ ∀ n, r.ending = .after n → 1 ≤ n.1 := by
  rw [decode?_eq, Option.map_eq_none_iff, TokenList.frequency?_eq_none_iff]
  refine ⟨Iff.rfl, fun f raw hraw hname => ?_⟩
  have hf := TokenList.frequency?_eq_some_iff.2 ⟨raw, hraw, hname⟩
  rw [hf, Option.map_some]
  refine ⟨_, rfl, TokenList.ofForm_form _ f, TokenList.frequency_readPattern _ f, ?_, ?_⟩
  · exact ((TokenList.ofText s.toList).readRule f).value.interval.2
  · exact fun n _ => n.2

/-- A text in which nothing but the frequency, in its last token, and two of the weekdays is of use. -/
def battered : String :=
  "freq=hourly;INTERVAL=0;BYDAY=xx, mo,2SU;COUNT=-3;UNTIL=never;;FREQ;BYSETPOS=9; Freq = weekly ;COUNT"

theorem unreadable_iff_battered :
    (TokenList.ofText battered.toList).LastValue .freq " weekly ".toList ∧
      ∃ r, decode? battered = some r ∧
        Rule.ofForm ((TokenList.ofText battered.toList).form .weekly) = .ok r ∧
        r = ⟨.weekly (some ⟨[.sunday, .monday], by decide, by decide⟩), Positive.one, .never⟩ := by
  have hlast : (TokenList.ofText battered.toList).LastValue .freq " weekly ".toList := by
    refine ⟨(TokenList.ofText battered.toList).tokens.take 7, ⟨" Freq ".toList, some " weekly ".toList⟩,
      [⟨"COUNT".toList, none⟩], ?_⟩
    decide +kernel
  obtain ⟨r, hr, hform, -⟩ := (unreadable_iff battered).2 .weekly _ hlast (by decide +kernel)
  refine ⟨hlast, r, hr, hform, ?_⟩
  have hread : decode? battered =
      some ⟨.weekly (some ⟨[.sunday, .monday], by decide, by decide⟩), Positive.one, .never⟩ := by
    decide +kernel
  exact Option.some.inj (hr.symm.trans hread)

end Rule

end Recurrence
