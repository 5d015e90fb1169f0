import Recurrence.Proofs.Rule.RoundTrip

/-!
# What strict reading refuses

The strict reader refuses a text without a known frequency, and a text in which it comes upon a faulty
value (`Rule.parse_fails_iff`).  It does not come upon every value: of the tokens with one key only the
last one with a value counts, an empty list of weekdays and an empty last second are passed over, and
which keys are asked for depends on the frequency and on what was found before (`TokenList.readKeys`).
So there are texts with a faulty token that are read (`Rule.strayMonthDay_passes`).

The proof goes along the reader: each part of it complains of those of its keys whose values are faulty,
and of no other keys (`Reading.Reports`).
-/

namespace Recurrence

open Text

/-- The key that a complaint is about. -/
def Complaint.key : Complaint → Key
  | malformed key _ | outOfRange key _ => key
  | unsupportedPosition _ => .bySetPos
  | unknownWeekday _ => .byDay
  | malformedUntil _ => .untilTime

namespace Key

/-- Whether a value is well formed for a key and in its range. -/
def accepts : Key → List Char → Bool
  | freq, v => (Frequency.ofName? (String.ofList (upper v))).isSome
  | interval, v | count, v => (readInt? v).any fun i => decide (1 ≤ i)
  | byMonthDay, v => (readInt? v).any fun i => decide (1 ≤ i ∧ i ≤ 31)
  | byMonth, v => (readInt? v).any fun i => decide (1 ≤ i ∧ i ≤ 12)
  | bySetPos, v => (readInt? v).any fun i => (Position.ofNumber? i).isSome
  | byDay, v => (splitOn ',' v).all fun item => (TokenList.dayItem? item).isSome
  | untilTime, v => (Compact.read? v).isSome

/-- Whether a value stands for none. -/
def skips : Key → List Char → Bool
  | byDay, v | untilTime, v => v.isEmpty
  | _, _ => false

end Key

/-- A token with a value that its key does not accept. -/
def Token.Faulty (t : Token) (k : Key) : Prop :=
  t.name = k.chars ∧ ∃ v, t.value = some v ∧ k.accepts (strip v) = false

namespace TokenList

/-! ## The keys that are asked for -/

def frequency? (l : TokenList) : Option Frequency :=
  (l.get? .freq).bind fun v => Frequency.ofName? (String.ofList (upper v))

/-- Whether a key has a value that it accepts. -/
def gives (l : TokenList) (k : Key) : Bool := (l.get? k).any k.accepts

/-- Whether a key has a value that is neither accepted nor passed over. -/
def refuses (l : TokenList) (k : Key) : Bool := (l.get? k).any fun v => !(k.accepts v || k.skips v)

/-- Whether an item of the list of weekdays is a weekday. -/
def namesWeekday (l : TokenList) : Bool :=
  (l.get? .byDay).any fun v => (splitOn ',' v).any fun item => (dayItem? item).isSome

/-- The keys of a weekday with its position, which is asked for behind a weekday only. -/
def nthKeys (l : TokenList) : List Key := .byDay :: if l.namesWeekday then [.bySetPos] else []

/-- The keys of the day in a month: a number goes before a weekday. -/
def dayKeys (l : TokenList) : List Key :=
  .byMonthDay :: if l.gives .byMonthDay then [] else l.nthKeys

def modeKeys (l : TokenList) : Frequency → List Key
  | .daily => []
  | .weekly => [.byDay]
  | .monthly => l.dayKeys
  | .yearly => .byMonth :: if l.gives .byMonth then l.dayKeys else []

/-- The keys of the ending: a count goes before a last second. -/
def endingKeys (l : TokenList) : List Key :=
  .count :: if l.gives .count then [] else [.untilTime]

/-- The keys that are asked for at a frequency, in their order. -/
def readKeys (l : TokenList) (f : Frequency) : List Key :=
  .interval :: (l.modeKeys f ++ l.endingKeys)

/-- A token whose value counts for a key: it is not passed over, and behind it no token with the key has
a value. -/
def Heeds (l : TokenList) (k : Key) (t : Token) : Prop :=
  (∀ v ∈ t.value, k.skips (strip v) = false) ∧
    ∃ before after, l.tokens = before ++ t :: after ∧ ∀ u ∈ after, u.name = k.chars → u.value = none

end TokenList

/-! ## Readings and the keys they complain of -/

namespace Reading

variable {α β : Type} {l : TokenList} {ks ks' : List Key} {x : Reading α}

/-- What was read with the keys complains of those that have a faulty value, and of no others. -/
def Reports (x : Reading α) (l : TokenList) (ks : List Key) : Prop :=
  ∀ k, (∃ c ∈ x.complaints, c.key = k) ↔ k ∈ ks ∧ l.refuses k = true

theorem reports_pure (a : α) : (pure a).Reports l [] := by
  intro k
  simp [pure]

theorem Reports.map (h : x.Reports l ks) (f : α → β) : (x.map f).Reports l ks := h

theorem Reports.andThen {f : α → Reading β} (h : x.Reports l ks)
    (hf : (f x.value).Reports l ks') : (x.andThen f).Reports l (ks ++ ks') := by
  intro k
  have hcomplaints : (∃ c ∈ (x.andThen f).complaints, c.key = k) ↔
      (∃ c ∈ x.complaints, c.key = k) ∨ ∃ c ∈ (f x.value).complaints, c.key = k := by
    simp only [Reading.andThen, List.mem_append, or_and_right, exists_or]
  rw [hcomplaints, h k, hf k, List.mem_append, or_and_right]

/-- What was read with one key reports it if all complaints are about it, and there are some exactly if
its value is faulty. -/
theorem reports_singleton {k : Key} (hkey : ∀ c ∈ x.complaints, c.key = k)
    (h : x.complaints = [] ↔ l.refuses k = false) : x.Reports l [k] := by
  intro k'
  rw [List.mem_singleton]
  constructor
  · rintro ⟨c, hc, rfl⟩
    have hk := hkey c hc
    refine ⟨hk, ?_⟩
    rw [hk, ← Bool.not_eq_false, ← h]
    exact List.ne_nil_of_mem hc
  · rintro ⟨rfl, hrefuses⟩
    have hne : x.complaints ≠ [] := by
      rw [Ne, h, hrefuses]
      decide
    obtain ⟨c, hc⟩ := List.exists_mem_of_ne_nil _ hne
    exact ⟨c, hc, hkey c hc⟩

theorem reports_pure_of_not_refuses {k : Key} (a : α) (h : l.refuses k = false) :
    (pure a).Reports l [k] :=
  reports_singleton (fun _ hc => absurd hc List.not_mem_nil) ⟨fun _ => h, fun _ => rfl⟩

theorem reports_complain {c : Complaint} (a : α) (h : l.refuses c.key = true) :
    (complain a c).Reports l [c.key] := by
  refine reports_singleton (fun c' hc => ?_) ⟨fun hnil => absurd hnil nofun, fun hfine => ?_⟩
  · rw [List.mem_singleton.1 hc]
  · rw [h] at hfine
    exact absurd hfine nofun

end Reading

namespace TokenList

variable {l : TokenList} {k : Key} {v : List Char} {least most : Option Int}

theorem refuses_eq_false_of_none (h : l.get? k = none) : l.refuses k = false := by
  rw [refuses, h]
  rfl

theorem refuses_of_some (h : l.get? k = some v) : l.refuses k = !(k.accepts v || k.skips v) := by
  rw [refuses, h]
  rfl

theorem gives_eq_false_of_none (h : l.get? k = none) : l.gives k = false := by
  rw [gives, h]
  rfl

theorem gives_of_some (h : l.get? k = some v) : l.gives k = k.accepts v := by
  rw [gives, h]
  rfl

/-! ## Numbers -/

/-- Whether a number lies between bounds. -/
def between (least most : Option Int) (i : Int) : Bool :=
  !((least.any fun lo => decide (i < lo)) || (most.any fun hi => decide (hi < i)))

/-- A key whose values are the numbers between bounds. -/
def Numeric (k : Key) (least most : Option Int) : Prop :=
  ∀ v, k.accepts v = (readInt? v).any (between least most) ∧ k.skips v = false

theorem readNumber_between {i : Int} (h : l.get? k = some v) (hi : readInt? v = some i)
    (hbetween : between least most i = true) : l.readNumber k least most = .pure (some i) := by
  rw [between, Bool.not_eq_true'] at hbetween
  simp only [readNumber, h, hi, hbetween, Bool.false_eq_true, if_false]

theorem readNumber_faulty (h : l.get? k = some v)
    (hv : (readInt? v).any (between least most) = false) :
    ∃ c : Complaint, c.key = k ∧ l.readNumber k least most = .complain none c := by
  cases hi : readInt? v with
  | none =>
    refine ⟨.malformed k v, rfl, ?_⟩
    simp only [readNumber, h, hi]
  | some i =>
    rw [hi, Option.any_some, between, Bool.not_eq_false'] at hv
    refine ⟨.outOfRange k i, rfl, ?_⟩
    simp only [readNumber, h, hi, hv, if_true]

/-- **A number is read, or absent, or complained of.** -/
theorem readNumber_of_numeric (hk : Numeric k least most) :
    (l.readNumber k least most).Reports l [k] ∧
      ((∃ i, between least most i = true ∧ (l.readNumber k least most).value = some i ∧
          l.gives k = true) ∨
        ((l.readNumber k least most).value = none ∧ l.gives k = false)) := by
  cases hv : l.get? k with
  | none =>
    rw [readNumber_none hv]
    exact ⟨Reading.reports_pure_of_not_refuses _ (refuses_eq_false_of_none hv),
      .inr ⟨rfl, gives_eq_false_of_none hv⟩⟩
  | some v =>
    obtain ⟨haccepts, hskips⟩ := hk v
    have hrefuses : l.refuses k = !(readInt? v).any (between least most) := by
      rw [refuses_of_some hv, haccepts, hskips, Bool.or_false]
    have hgives : l.gives k = (readInt? v).any (between least most) := by
      rw [gives_of_some hv, haccepts]
    cases hbetween : (readInt? v).any (between least most) with
    | false =>
      rw [hbetween] at hrefuses hgives
      obtain ⟨c, rfl, hread⟩ := readNumber_faulty hv hbetween
      rw [hread]
      exact ⟨Reading.reports_complain _ hrefuses, .inr ⟨rfl, hgives⟩⟩
    | true =>
      obtain ⟨i, hi, hin⟩ := (Option.any_eq_true _ _).1 hbetween
      rw [hbetween] at hrefuses hgives
      rw [readNumber_between hv hi hin]
      exact ⟨Reading.reports_pure_of_not_refuses _ hrefuses, .inl ⟨i, hin, rfl, hgives⟩⟩

/-- A part of a rule that is made of a number is read exactly if its key has a value that it accepts. -/
theorem isSome_bind_of_numeric {α : Type} (hk : Numeric k least most) {f : Int → Option α}
    (hf : ∀ i, between least most i = true → (f i).isSome = true) :
    ((l.readNumber k least most).value.bind f).isSome = l.gives k := by
  obtain ⟨-, ⟨i, hin, hvalue, hgives⟩ | ⟨hvalue, hgives⟩⟩ := readNumber_of_numeric (l := l) hk
  · rw [hvalue, hgives]
    exact hf i hin
  · rw [hvalue, hgives]
    rfl

theorem between_none (lo : Int) : between (some lo) none = fun i => decide (lo ≤ i) := by
  funext i
  rw [Bool.eq_iff_iff]
  simp [between]

theorem between_some (lo hi : Int) :
    between (some lo) (some hi) = fun i => decide (lo ≤ i ∧ i ≤ hi) := by
  funext i
  rw [Bool.eq_iff_iff]
  simp [between]

theorem numeric_positive (hk : k = .interval ∨ k = .count) : Numeric k (some 1) none := by
  intro v
  rcases hk with rfl | rfl
  · exact ⟨congrArg (readInt? v).any (between_none 1).symm, rfl⟩
  · exact ⟨congrArg (readInt? v).any (between_none 1).symm, rfl⟩

theorem numeric_between {least most : Int} (hskips : ∀ v, k.skips v = false)
    (haccepts : ∀ v, k.accepts v = (readInt? v).any fun i => decide (least ≤ i ∧ i ≤ most)) :
    Numeric k (some least) (some most) := by
  intro v
  rw [between_some]
  exact ⟨haccepts v, hskips v⟩

theorem numeric_monthDay : Numeric .byMonthDay (some 1) (some 31) :=
  numeric_between (fun _ => rfl) fun _ => rfl

theorem numeric_month : Numeric .byMonth (some 1) (some 12) :=
  numeric_between (fun _ => rfl) fun _ => rfl

theorem reports_readPositive (hk : k = .interval ∨ k = .count) :
    (l.readPositive k).Reports l [k] :=
  (readNumber_of_numeric (numeric_positive hk)).1.map _

theorem reports_readMonthDay (l : TokenList) : l.readMonthDay.Reports l [.byMonthDay] :=
  (readNumber_of_numeric numeric_monthDay).1.map _

theorem reports_readMonth (l : TokenList) : l.readMonth.Reports l [.byMonth] :=
  (readNumber_of_numeric numeric_month).1.map _

theorem isSome_readPositive (hk : k = .interval ∨ k = .count) :
    (l.readPositive k).value.isSome = l.gives k := by
  refine isSome_bind_of_numeric (numeric_positive hk) fun i hi => ?_
  rw [between_none, decide_eq_true_iff] at hi
  have hpos : 0 < i.toNat := by omega
  rw [positive?, dif_pos hpos]
  rfl

theorem isSome_readUpTo {most : Nat} (hk : Numeric k (some 1) (some most)) :
    (l.readUpTo k most).value.isSome = l.gives k := by
  refine isSome_bind_of_numeric hk fun i hi => ?_
  rw [between_some, decide_eq_true_iff] at hi
  have hbounds : 1 ≤ i.toNat ∧ i.toNat ≤ most := by omega
  rw [upTo?, dif_pos hbounds]
  rfl

theorem isSome_readMonthDay (l : TokenList) : l.readMonthDay.value.isSome = l.gives .byMonthDay :=
  isSome_readUpTo numeric_monthDay

theorem isSome_readMonth (l : TokenList) : l.readMonth.value.isSome = l.gives .byMonth :=
  isSome_readUpTo numeric_month

/-- The number of a position has no bounds, and is looked up among the positions. -/
theorem reports_readPosition (l : TokenList) : l.readPosition.Reports l [.bySetPos] := by
  unfold readPosition
  cases hv : l.get? .bySetPos with
  | none =>
    rw [readNumber_none hv, Reading.pure_andThen]
    exact Reading.reports_pure_of_not_refuses _ (refuses_eq_false_of_none hv)
  | some v =>
    have hrefuses := refuses_of_some hv
    rw [show Key.bySetPos.skips v = false from rfl, Bool.or_false] at hrefuses
    cases hi : readInt? v with
    | none =>
      have hfaulty : (readInt? v).any (between none none) = false := by rw [hi]; rfl
      have haccepts : Key.bySetPos.accepts v = false := by rw [Key.accepts, hi]; rfl
      obtain ⟨c, hc, hread⟩ := readNumber_faulty hv hfaulty
      rw [haccepts, ← hc] at hrefuses
      rw [hread, ← hc]
      exact Reading.reports_complain none hrefuses
    | some i =>
      have haccepts : Key.bySetPos.accepts v = (Position.ofNumber? i).isSome := by
        rw [Key.accepts, hi, Option.any_some]
      rw [readNumber_between hv hi rfl, Reading.pure_andThen]
      rw [haccepts] at hrefuses
      cases hp : Position.ofNumber? i with
      | none =>
        rw [hp] at hrefuses
        simp only [hp]
        exact Reading.reports_complain (c := .unsupportedPosition i) none hrefuses
      | some p =>
        rw [hp] at hrefuses
        simp only [hp]
        exact Reading.reports_pure_of_not_refuses _ hrefuses

/-! ## Weekdays -/

theorem value_readItems (items : List (List Char)) :
    (readItems items).value = items.filterMap dayItem? := by
  induction items with
  | nil => rfl
  | cons item items ih =>
    cases hd : dayItem? item with
    | none => rw [readItems, hd, List.filterMap_cons_none hd, ← ih]
    | some d => rw [readItems, hd, List.filterMap_cons_some hd, ← ih]; rfl

theorem complaints_readItems (items : List (List Char)) :
    (readItems items).complaints =
      (items.filter fun item => (dayItem? item).isNone).map .unknownWeekday := by
  induction items with
  | nil => rfl
  | cons item items ih =>
    cases hd : dayItem? item with
    | none =>
      simp only [readItems, hd, ih, List.filter_cons, Option.isNone_none, if_true, List.map_cons]
    | some d =>
      simp only [readItems, hd, List.filter_cons, Option.isNone_some, Bool.false_eq_true, if_false,
        ← ih]
      rfl

theorem readDays_cons {c : Char} (h : l.get? .byDay = some (c :: v)) :
    l.readDays = readItems (splitOn ',' (c :: v)) := by
  rw [readDays, h]

theorem reports_readDays (l : TokenList) : l.readDays.Reports l [.byDay] := by
  cases hv : l.get? .byDay with
  | none =>
    rw [readDays, hv]
    exact Reading.reports_pure_of_not_refuses _ (refuses_eq_false_of_none hv)
  | some v =>
    have hrefuses := refuses_of_some hv
    cases v with
    | nil =>
      rw [readDays, hv]
      exact Reading.reports_pure_of_not_refuses _ (hrefuses.trans (by decide))
    | cons c v =>
      rw [readDays_cons hv]
      apply Reading.reports_singleton
      · intro c' hc'
        rw [complaints_readItems] at hc'
        obtain ⟨item, -, rfl⟩ := List.mem_map.1 hc'
        rfl
      · rw [complaints_readItems, hrefuses, List.map_eq_nil_iff, List.filter_eq_nil_iff]
        simp [Key.accepts, Key.skips, Option.isSome_iff_ne_none]

theorem value_readDays_eq_nil_iff (l : TokenList) :
    l.readDays.value = [] ↔ l.namesWeekday = false := by
  cases hv : l.get? .byDay with
  | none => simp [readDays, namesWeekday, hv, Reading.pure]
  | some v =>
    cases v with
    | nil =>
      have hnone : namesWeekday l = false := by rw [namesWeekday, hv]; rfl
      simp [readDays, hv, Reading.pure, hnone]
    | cons c v =>
      rw [readDays_cons hv, value_readItems, namesWeekday, hv]
      simp

/-- The position is asked for behind a weekday only. -/
theorem reports_readNth (l : TokenList) : l.readNth.Reports l l.nthKeys := by
  refine (reports_readDays l).andThen ?_
  cases hdays : l.readDays.value with
  | nil =>
    rw [(value_readDays_eq_nil_iff l).1 hdays]
    exact Reading.reports_pure none
  | cons d days =>
    have hnames : l.namesWeekday = true := by
      rw [← Bool.not_eq_false, ← value_readDays_eq_nil_iff, hdays]
      exact List.cons_ne_nil d days
    rw [hnames]
    exact (reports_readPosition l).map _

/-! ## Rules -/

/-- The weekdays are looked at where there is no day of the month. -/
theorem reports_dayKeys {α : Type} (l : TokenList) {day : MonthDay → α}
    {nth : Option (Position × Weekday) → α} :
    (l.readMonthDay.andThen fun d =>
      match d with
      | some d => .pure (day d)
      | none => l.readNth.map nth).Reports l l.dayKeys := by
  refine (reports_readMonthDay l).andThen ?_
  rw [← isSome_readMonthDay]
  cases l.readMonthDay.value with
  | none => exact (reports_readNth l).map _
  | some d => exact Reading.reports_pure _

theorem reports_readPattern (l : TokenList) (f : Frequency) :
    (l.readPattern f).Reports l (l.modeKeys f) := by
  cases f with
  | daily => exact Reading.reports_pure _
  | weekly => exact (reports_readDays l).map _
  | monthly => exact reports_dayKeys l
  | yearly =>
    refine (reports_readMonth l).andThen ?_
    rw [← isSome_readMonth]
    cases l.readMonth.value with
    | none => exact Reading.reports_pure _
    | some m => exact reports_dayKeys l

theorem reports_readEnding (l : TokenList) : l.readEnding.Reports l l.endingKeys := by
  refine (reports_readPositive (.inr rfl)).andThen ?_
  rw [← isSome_readPositive (.inr rfl)]
  cases (l.readPositive .count).value with
  | some n => exact Reading.reports_pure _
  | none =>
    cases hv : l.get? .untilTime with
    | none => exact Reading.reports_pure_of_not_refuses _ (refuses_eq_false_of_none hv)
    | some v =>
      have hrefuses := refuses_of_some hv
      cases v with
      | nil => exact Reading.reports_pure_of_not_refuses _ (hrefuses.trans (by decide))
      | cons c v =>
        rw [show Key.untilTime.skips (c :: v) = false from rfl, Bool.or_false, Key.accepts]
          at hrefuses
        cases ht : Compact.read? (c :: v) with
        | some t =>
          rw [ht] at hrefuses
          simp only [ht]
          exact Reading.reports_pure_of_not_refuses _ hrefuses
        | none =>
          rw [ht] at hrefuses
          simp only [ht]
          exact Reading.reports_complain (c := .malformedUntil (c :: v)) _ hrefuses

/-- **A rule is read with complaints about the faulty values that are asked for.** -/
theorem reports_readRule (l : TokenList) (f : Frequency) :
    (l.readRule f).Reports l (l.readKeys f) :=
  (reports_readPositive (.inl rfl)).andThen
    ((reports_readPattern l f).andThen ((reports_readEnding l).map _))

/-! ## Tokens -/

/-- The value of a key stands in the last of its tokens that has one. -/
theorem get?_eq_some_iff : l.get? k = some v ↔
    ∃ t raw, (t.name = k.chars ∧ t.value = some raw ∧ strip raw = v) ∧
      ∃ before after, l.tokens = before ++ t :: after ∧
        ∀ u ∈ after, u.name = k.chars → u.value = none := by
  have hsome (t : Token) : (if t.name = k.chars then t.value.map strip else none) = some v ↔
      ∃ raw, t.name = k.chars ∧ t.value = some raw ∧ strip raw = v := by
    rw [Option.ite_none_right_eq_some, Option.map_eq_some_iff, exists_and_left]
  have hnone (t : Token) : (if t.name = k.chars then t.value.map strip else none) = none ↔
      (t.name = k.chars → t.value = none) := by
    rw [ite_eq_right_iff, Option.map_eq_none_iff]
  unfold get? value?
  rw [List.findSome?_eq_some_iff]
  simp only [hsome, hnone]
  -- What comes behind a token comes first in the reverse list.
  constructor
  · rintro ⟨after, t, before, htokens, ⟨raw, ht⟩, hafter⟩
    refine ⟨t, raw, ht, before.reverse, after.reverse, ?_, ?_⟩
    · rw [List.reverse_eq_iff.1 htokens]
      simp
    · intro u hu
      exact hafter u (List.mem_reverse.1 hu)
  · rintro ⟨t, raw, ht, before, after, htokens, hafter⟩
    refine ⟨after.reverse, t, before.reverse, ?_, ⟨raw, ht⟩, ?_⟩
    · rw [htokens]
      simp
    · intro u hu
      exact hafter u (List.mem_reverse.1 hu)

/-- A value is refused if it stands in a faulty token that counts. -/
theorem refuses_iff : l.refuses k = true ↔ ∃ t, l.Heeds k t ∧ t.Faulty k := by
  rw [refuses, Option.any_eq_true]
  constructor
  · rintro ⟨v, hv, hfaulty⟩
    rw [Bool.not_eq_true', Bool.or_eq_false_iff] at hfaulty
    obtain ⟨t, raw, ⟨hname, hraw, rfl⟩, hlast⟩ := get?_eq_some_iff.1 hv
    refine ⟨t, ⟨fun v hv => ?_, hlast⟩, hname, raw, hraw, hfaulty.1⟩
    obtain rfl := Option.some.inj (hraw.symm.trans hv)
    exact hfaulty.2
  · rintro ⟨t, ⟨hskips, hlast⟩, hname, raw, hraw, hfaulty⟩
    refine ⟨strip raw, get?_eq_some_iff.2 ⟨t, raw, ⟨hname, hraw, rfl⟩, hlast⟩, ?_⟩
    rw [hfaulty, hskips raw hraw]
    rfl

end TokenList

namespace Rule

variable {s : String} {f : Frequency}

theorem read_of_frequency?_eq_some (h : (TokenList.ofText s.toList).frequency? = some f) :
    read s = .ok ((TokenList.ofText s.toList).readRule f) := by
  obtain ⟨raw, hraw, hname⟩ := Option.bind_eq_some_iff.1 h
  have hempty : Frequency.ofName? (String.ofList (upper [])) = none := by decide
  rw [read]
  cases raw with
  | nil =>
    rw [hempty] at hname
    exact absurd hname.symm (Option.some_ne_none f)
  | cons c raw => simp only [hraw, hname]

/-- Without a known frequency there are two errors. -/
theorem parse_of_frequency?_eq_none (h : (TokenList.ofText s.toList).frequency? = none) :
    parse s = .error (.missingFrequency s) ∨ ∃ raw, parse s = .error (.unknownFrequency raw s) := by
  rw [TokenList.frequency?] at h
  rw [parse, read]
  cases hraw : (TokenList.ofText s.toList).get? .freq with
  | none => exact .inl rfl
  | some raw =>
    cases raw with
    | nil => exact .inl rfl
    | cons c raw =>
      rw [hraw, Option.bind_some] at h
      simp only [h]
      exact .inr ⟨c :: raw, rfl⟩

/-- At a frequency, strict reading fails with the first complaint. -/
theorem parse_eq_error_iff (h : (TokenList.ofText s.toList).frequency? = some f) {e : RuleError} :
    parse s = .error e ↔
      ∃ c, ((TokenList.ofText s.toList).readRule f).complaints.head? = some c ∧
        e = .complaint c s := by
  rw [parse, read_of_frequency?_eq_some h]
  obtain ⟨r, complaints⟩ := (TokenList.ofText s.toList).readRule f
  cases complaints with
  | nil => simp
  | cons c complaints => simp [eq_comm]

/-- A complaint that strict reading fails with is about a faulty value that is asked for. -/
theorem key_of_parse_eq_error {c : Complaint} {s' : String} (h : parse s = .error (.complaint c s')) :
    s' = s ∧ ∃ f, (TokenList.ofText s.toList).frequency? = some f ∧
      c.key ∈ (TokenList.ofText s.toList).readKeys f ∧
      (TokenList.ofText s.toList).refuses c.key = true := by
  cases hf : (TokenList.ofText s.toList).frequency? with
  | none =>
    rcases parse_of_frequency?_eq_none hf with hnone | ⟨raw, hnone⟩
    · exact absurd (h.symm.trans hnone) nofun
    · exact absurd (h.symm.trans hnone) nofun
  | some f =>
    obtain ⟨c', hc, he⟩ := (parse_eq_error_iff hf).1 h
    obtain ⟨rfl, rfl⟩ := RuleError.complaint.inj he
    exact ⟨rfl, f, rfl,
      (TokenList.reports_readRule _ f c.key).1 ⟨c, List.mem_of_head? hc, rfl⟩⟩

/-- **What strict reading refuses.**  It fails on a text that has no known frequency, and on a text with
a faulty token that counts for a key that is asked for; every other text is read. -/
theorem parse_fails_iff (s : String) :
    (∃ e, parse s = .error e) ↔
      (TokenList.ofText s.toList).frequency? = none ∨
        ∃ f, (TokenList.ofText s.toList).frequency? = some f ∧
          ∃ k ∈ (TokenList.ofText s.toList).readKeys f,
            ∃ t, (TokenList.ofText s.toList).Heeds k t ∧ t.Faulty k := by
  simp only [← TokenList.refuses_iff]
  cases hf : (TokenList.ofText s.toList).frequency? with
  | none =>
    refine ⟨fun _ => .inl rfl, fun _ => ?_⟩
    rcases parse_of_frequency?_eq_none hf with hnone | ⟨raw, hnone⟩
    · exact ⟨_, hnone⟩
    · exact ⟨_, hnone⟩
  | some f =>
    have hreports := TokenList.reports_readRule (TokenList.ofText s.toList) f
    constructor
    · rintro ⟨e, he⟩
      obtain ⟨c, hc, -⟩ := (parse_eq_error_iff hf).1 he
      exact .inr ⟨f, rfl, c.key, (hreports c.key).1 ⟨c, List.mem_of_head? hc, rfl⟩⟩
    · rintro (hnone | ⟨f', hf', k, hk⟩)
      · exact absurd hnone nofun
      · obtain rfl := Option.some.inj hf'
        obtain ⟨c, hc, -⟩ := (hreports k).2 hk
        have hne := List.ne_nil_of_mem hc
        exact ⟨_, (parse_eq_error_iff hf).2 ⟨_, List.head?_eq_some_head hne, rfl⟩⟩

/-- A rule for every year whose day of the month is out of range and has no month to stand in. -/
def strayMonthDay : String := "RRULE:FREQ=YEARLY;INTERVAL=1;BYMONTHDAY=32"

/-- Without a month nobody asks for its day, and the text is read. -/
theorem strayMonthDay_passes :
    (∃ t ∈ (TokenList.ofText strayMonthDay.toList).tokens, t.Faulty .byMonthDay) ∧
      parse strayMonthDay = .ok ⟨.yearly none, Positive.one, .never⟩ := by
  have hfaulty : (Key.byMonthDay.token "32".toList).Faulty .byMonthDay :=
    ⟨by decide, _, rfl, by decide⟩
  exact ⟨⟨_, by decide +kernel, hfaulty⟩, by decide +kernel⟩

end Rule

end Recurrence
