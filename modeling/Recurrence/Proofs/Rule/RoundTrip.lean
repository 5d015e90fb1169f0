import Recurrence.Proofs.Order
import Recurrence.Proofs.Rule.Canonical
import Recurrence.Rule.Reader

/-!
# The round trip of a rule

A stored rule is the canonical text of a rule, and both readers give the rule back from it
(`read_encode`).  The numbers of a rule are unbounded while a numeral that is read has at most
`maxDigits` digits, so this holds for the rules that are `Storable`.  Every rule that the tolerant
reader gives is one of them (`storable_of_decode?`).

The proof looks up each key among the canonical tokens: the tokens of the mode and of the ending
have different keys, so each part of a rule is read from the tokens that it was written to
(`readPattern_toTokens`, `readEnding_toTokens`).
-/

namespace Recurrence

open Text

/-- A rule whose numbers have at most `maxDigits` digits. -/
def Rule.Storable (r : Rule) : Prop :=
  (decimal r.interval.1).length ≤ maxDigits ∧
    ∀ n, r.ending = .after n → (decimal n.1).length ≤ maxDigits

theorem Rule.storable_withEnding_on {r : Rule} (hr : r.Storable) (s : Second) :
    (r.withEnding (.on s)).Storable :=
  ⟨hr.1, fun _ h => absurd h nofun⟩

namespace Reading

variable {α β : Type}

@[simp] theorem pure_andThen (a : α) (f : α → Reading β) : (pure a).andThen f = f a := rfl

@[simp] theorem map_pure (f : α → β) (a : α) : (pure a).map f = pure (f a) := rfl

end Reading

/-- The value that a mode writes for a key. -/
def Mode.value? : Mode → Key → Option (List Char)
  | weeklyDays days, .byDay => some (joinWith ',' (days.days.map (·.code.toList)))
  | monthlyNth _ w, .byDay | yearlyNth _ w _, .byDay => some w.code.toList
  | monthlyNth p _, .bySetPos | yearlyNth p _ _, .bySetPos => some (signed p.number)
  | monthlyDay d, .byMonthDay | yearlyDate _ d, .byMonthDay => some (decimal d.1)
  | yearlyDate m _, .byMonth | yearlyNth _ _ m, .byMonth => some (decimal m.1)
  | _, _ => none

namespace TokenList

/-! ## Looking up a key -/

theorem get?_append (lead : List Char) (ts us : List Token) (k : Key) :
    get? ⟨lead, ts ++ us⟩ k = (get? ⟨lead, us⟩ k).or (get? ⟨lead, ts⟩ k) := by
  simp only [get?, value?, List.reverse_append, List.findSome?_append]

theorem get?_singleton (lead : List Char) (k k' : Key) {v : List Char} (hv : Steady v) :
    get? ⟨lead, [k'.token v]⟩ k = if k' = k then some v else none := by
  have hvalue : (k'.token v).value.map strip = some v := by
    show some (strip v) = some v
    rw [strip_of_steady hv]
  simp only [get?, value?, List.reverse_singleton, List.findSome?_singleton, Key.name_token,
    Key.chars_inj, hvalue]

theorem get?_cons (lead : List Char) (k k' : Key) {v : List Char} (hv : Steady v)
    (ts : List Token) :
    get? ⟨lead, k'.token v :: ts⟩ k =
      (get? ⟨lead, ts⟩ k).or (if k' = k then some v else none) := by
  rw [← get?_singleton lead k k' hv, ← get?_append, List.singleton_append]

/-- **The tokens of a mode give each key its value.** -/
theorem get?_mode (lead : List Char) (m : Mode) (k : Key) :
    get? ⟨lead, m.toTokens⟩ k = m.value? k := by
  cases m with
  | weeklyDays days =>
    rw [Mode.toTokens, get?_singleton _ _ _ (writable_codes _).1]
    cases k <;> rfl
  | monthlyDay d =>
    rw [Mode.toTokens, get?_singleton _ _ _ (steady_decimal _)]
    cases k <;> rfl
  | monthlyNth p w =>
    rw [Mode.toTokens, get?_cons _ _ _ (writable_code w).1,
      get?_singleton _ _ _ (steady_signed _)]
    cases k <;> rfl
  | yearlyDate m d =>
    rw [Mode.toTokens, get?_cons _ _ _ (steady_decimal _), get?_singleton _ _ _ (steady_decimal _)]
    cases k <;> rfl
  | yearlyNth p w m =>
    rw [Mode.toTokens, get?_cons _ _ _ (steady_decimal _), get?_cons _ _ _ (writable_code w).1,
      get?_singleton _ _ _ (steady_signed _)]
    cases k <;> rfl

/-- Tokens with keys of one kind have no value for a key of another kind. -/
theorem get?_eq_none {lead : List Char} {k : Key} {ts : List Token} {kind : Key → Bool}
    (h : ∀ t ∈ ts, ∃ (k' : Key) (v : List Char), t = k'.token v ∧ Writable v ∧ kind k' = true)
    (hk : kind k = false) : get? ⟨lead, ts⟩ k = none := by
  induction ts with
  | nil => rfl
  | cons t ts ih =>
    obtain ⟨k', v, rfl, hv, hk'⟩ := h t List.mem_cons_self
    have hne : k' ≠ k := by
      rintro rfl
      exact absurd (hk.symm.trans hk') (by decide)
    rw [get?_cons lead k k' hv.1, ih fun u hu => h u (List.mem_cons_of_mem _ hu), if_neg hne]
    rfl

theorem get?_modeTokens_eq_none {p : Pattern} {k : Key} (hk : k.isMode = false) :
    get? ⟨rulePrefix, p.modeTokens⟩ k = none :=
  get?_eq_none (fun _ ht => Pattern.key_of_mem_modeTokens ht) hk

theorem get?_ending_eq_none {e : Ending} {k : Key} (hk : k.isEnding = false) :
    get? ⟨rulePrefix, e.toTokens⟩ k = none :=
  get?_eq_none (fun _ ht => Ending.key_of_mem_toTokens ht) hk

/-- **A key is looked up in the part of the tokens that writes it.** -/
theorem get?_toTokens (r : Rule) (k : Key) :
    get? ⟨rulePrefix, r.toTokens⟩ k =
      match k with
      | .freq => some r.pattern.frequency.name.toList
      | .interval => some (decimal r.interval.1)
      | .count | .untilTime => get? ⟨rulePrefix, r.ending.toTokens⟩ k
      | _ => get? ⟨rulePrefix, r.pattern.modeTokens⟩ k := by
  have hf : Steady r.pattern.frequency.name.toList := (writable_name _).1
  rw [Rule.toTokens_eq_append, get?_append, Rule.headTokens, get?_cons _ _ _ hf,
    get?_cons _ _ _ (steady_decimal _)]
  cases k with
  | freq =>
    rw [get?_ending_eq_none rfl, get?_modeTokens_eq_none rfl]
    rfl
  | interval =>
    rw [get?_ending_eq_none rfl, get?_modeTokens_eq_none rfl]
    rfl
  | count =>
    rw [get?_modeTokens_eq_none rfl]
    simp
  | untilTime =>
    rw [get?_modeTokens_eq_none rfl]
    simp
  | byDay => rw [get?_ending_eq_none rfl]; simp
  | byMonthDay => rw [get?_ending_eq_none rfl]; simp
  | byMonth => rw [get?_ending_eq_none rfl]; simp
  | bySetPos => rw [get?_ending_eq_none rfl]; simp

/-- The keys of the mode have the values that the pattern writes for them. -/
def ShowsMode (l : TokenList) (p : Pattern) : Prop :=
  ∀ k : Key, k.isMode = true → l.get? k = p.mode.bind (·.value? k)

theorem showsMode_toTokens (r : Rule) : ShowsMode ⟨rulePrefix, r.toTokens⟩ r.pattern := by
  have hmode : ∀ k, get? ⟨rulePrefix, r.pattern.modeTokens⟩ k =
      r.pattern.mode.bind (·.value? k) := by
    intro k
    unfold Pattern.modeTokens
    cases r.pattern.mode with
    | none => rfl
    | some m => exact get?_mode rulePrefix m k
  intro k hk
  rw [get?_toTokens]
  cases k <;> first | exact hmode _ | exact absurd hk (by decide)

/-! ## Reading a number -/

section Numbers

variable {l : TokenList} {key : Key}

theorem readNumber_none {least most : Option Int} (h : l.get? key = none) :
    l.readNumber key least most = .pure none := by
  rw [readNumber, h]

theorem readNumber_some {least most : Option Int} {raw : List Char} {i : Int}
    (h : l.get? key = some raw) (hi : readInt? raw = some i) (hlo : ∀ lo ∈ least, lo ≤ i)
    (hhi : ∀ hi ∈ most, i ≤ hi) : l.readNumber key least most = .pure (some i) := by
  have hleast : (least.any fun lo => decide (i < lo)) = false := by
    cases least with
    | none => rfl
    | some lo => exact decide_eq_false (Int.not_lt.2 (hlo lo rfl))
  have hmost : (most.any fun hi => decide (hi < i)) = false := by
    cases most with
    | none => rfl
    | some hi => exact decide_eq_false (Int.not_lt.2 (hhi hi rfl))
  simp only [readNumber, h, hi, hleast, hmost, Bool.or_false, Bool.false_eq_true, if_false]

theorem positive?_natCast (n : Positive) : positive? (n.1 : Int) = some n :=
  dif_pos n.2

theorem readPositive_none (h : l.get? key = none) : l.readPositive key = .pure none := by
  rw [readPositive, readNumber_none h]
  rfl

theorem readPositive_decimal {n : Positive} (h : l.get? key = some (decimal n.1))
    (hn : (decimal n.1).length ≤ maxDigits) : l.readPositive key = .pure (some n) := by
  have hpos := n.2
  rw [readPositive, readNumber_some h (readInt?_decimal hn)
    (by rintro lo ⟨⟩; omega) (by rintro hi ⟨⟩)]
  rw [Reading.map_pure, Option.bind_some, positive?_natCast]

/-- A number of at most two digits is short enough to be read. -/
theorem length_decimal_of_lt_hundred {n : Nat} (h : n < 100) : (decimal n).length ≤ maxDigits := by
  have h2 : (decimal n).length ≤ 2 := (length_decimal_le_iff (by decide)).2 h
  exact Nat.le_trans h2 (by decide)

theorem upTo?_natCast {most : Nat} (n : { n : Nat // 1 ≤ n ∧ n ≤ most }) :
    upTo? most (n.1 : Int) = some n :=
  dif_pos n.2

theorem readUpTo_none {most : Nat} (h : l.get? key = none) : l.readUpTo key most = .pure none := by
  rw [readUpTo, readNumber_none h]
  rfl

/-- A number from 1 up to a bound of two digits is read from its decimal text. -/
theorem readUpTo_decimal {most : Nat} {n : { n : Nat // 1 ≤ n ∧ n ≤ most }} (hmost : most < 100)
    (h : l.get? key = some (decimal n.1)) : l.readUpTo key most = .pure (some n) := by
  obtain ⟨hpos, hle⟩ := n.2
  have hshort := length_decimal_of_lt_hundred (show n.1 < 100 by omega)
  rw [readUpTo, readNumber_some h (readInt?_decimal hshort) (by rintro lo ⟨⟩; omega)
    (by rintro hi ⟨⟩; omega)]
  rw [Reading.map_pure, Option.bind_some, upTo?_natCast]

theorem readPosition_number {p : Position} (h : l.get? .bySetPos = some (signed p.number)) :
    l.readPosition = .pure (some p) := by
  have hlen : (decimal p.number.natAbs).length ≤ maxDigits :=
    length_decimal_of_lt_hundred (by cases p <;> decide)
  rw [readPosition, readNumber_some h (readInt?_signed hlen) (by rintro lo ⟨⟩) (by rintro hi ⟨⟩)]
  rw [Reading.pure_andThen]
  simp only [Position.ofNumber?_number]

end Numbers

/-! ## Reading weekdays -/

theorem dayItem?_code (w : Weekday) : dayItem? w.code.toList = some ⟨none, w⟩ := by
  have hsteady := (writable_code w).1
  have hitem : upper (strip w.code.toList) = w.code.toList := by
    rw [strip_of_steady hsteady, upper_of_steady hsteady]
  have hlen : w.code.toList.length - 2 = 0 := by cases w <;> rfl
  simp only [dayItem?, hitem, hlen, List.drop_zero, String.ofList_toList, Weekday.ofCode?_code,
    if_true]

theorem comma_not_mem_code (w : Weekday) : ',' ∉ w.code.toList := by cases w <;> decide

theorem code_ne_nil (w : Weekday) : w.code.toList ≠ [] := by cases w <;> decide

theorem readItems_codes (days : List Weekday) :
    readItems (days.map (·.code.toList)) = .pure (days.map (⟨none, ·⟩)) := by
  induction days with
  | nil => rfl
  | cons w days ih =>
    rw [List.map_cons, readItems]
    simp only [dayItem?_code, ih]
    rfl

theorem readDays_codes {l : TokenList} {days : List Weekday} (hne : days ≠ [])
    (h : l.get? .byDay = some (joinWith ',' (days.map (·.code.toList)))) :
    l.readDays = .pure (days.map (⟨none, ·⟩)) := by
  have hsplit : splitOn ',' (joinWith ',' (days.map (·.code.toList))) =
      days.map (·.code.toList) := by
    apply splitOn_joinWith (fun he => hne (List.map_eq_nil_iff.1 he))
    intro p hp
    obtain ⟨w, _, rfl⟩ := List.mem_map.1 hp
    exact comma_not_mem_code w
  have hraw : joinWith ',' (days.map (·.code.toList)) ≠ [] := by
    intro he
    rw [he] at hsplit
    cases days with
    | nil => exact hne rfl
    | cons w days => exact code_ne_nil w (List.cons.inj hsplit).1.symm
  rw [readDays, h]
  split
  · rename_i hn
    exact absurd hn (by simp)
  · rename_i hn
    exact absurd (Option.some.inj hn) hraw
  · rename_i raw _ hn
    rw [← Option.some.inj hn, hsplit, readItems_codes]

theorem readDays_none {l : TokenList} (h : l.get? .byDay = none) : l.readDays = .pure [] := by
  rw [readDays, h]

theorem ofList?_days (s : DaySet) : DaySet.ofList? s.days = some s := by
  have hmem : ∀ w, w ∈ Weekday.all.filter (s.days.contains ·) ↔ w ∈ s.days := by
    intro w
    rw [List.mem_filter, List.contains_iff_mem]
    exact ⟨And.right, fun h => ⟨Weekday.mem_all w, h⟩⟩
  have hall : Weekday.all.filter (s.days.contains ·) = s.days :=
    eq_of_sorted (R := fun a b => a.index < b.index) (fun _ => Nat.lt_irrefl _)
      (fun _ _ => Nat.lt_asymm) (DaySet.pairwise_all.filter _) s.sorted hmem
  have hne : Weekday.all.filter (s.days.contains ·) ≠ [] := by
    rw [hall]
    exact s.nonempty
  rw [DaySet.ofList?, dif_neg hne]
  simp only [hall]

theorem readNth_code {l : TokenList} {p : Position} {w : Weekday}
    (hday : l.get? .byDay = some w.code.toList)
    (hpos : l.get? .bySetPos = some (signed p.number)) : l.readNth = .pure (some (p, w)) := by
  have hdays : l.readDays = .pure ([w].map (⟨none, ·⟩)) := readDays_codes (by simp) hday
  rw [readNth, hdays, Reading.pure_andThen]
  simp only [readPosition_number hpos, Reading.map_pure, List.map_cons]

theorem readNth_none {l : TokenList} (h : l.get? .byDay = none) : l.readNth = .pure none := by
  rw [readNth, readDays_none h]
  rfl

/-! ## Reading the parts of a rule -/

theorem readPattern_of_showsMode {l : TokenList} {p : Pattern} (h : l.ShowsMode p) :
    l.readPattern p.frequency = .pure p := by
  rcases p with _ | (_ | days) | (_ | (d | ⟨q, w⟩)) | (_ | (⟨m, d⟩ | ⟨q, w, m⟩))
  · rfl
  · simp only [readPattern, Pattern.frequency, readDays_none (h .byDay rfl), Reading.map_pure]
    rfl
  · simp only [readPattern, Pattern.frequency, readDays_codes days.nonempty (h .byDay rfl),
      Reading.map_pure, List.map_map, Function.comp_def, List.map_id']
    rw [ofList?_days]
  · simp only [readPattern, Pattern.frequency, readMonthDay, readUpTo_none (h .byMonthDay rfl),
      readNth_none (h .byDay rfl), Reading.pure_andThen, Reading.map_pure, Option.map_none]
  · simp only [readPattern, Pattern.frequency, readMonthDay,
      readUpTo_decimal (by decide) (h .byMonthDay rfl), Reading.pure_andThen]
  · simp only [readPattern, Pattern.frequency, readMonthDay, readUpTo_none (h .byMonthDay rfl),
      readNth_code (h .byDay rfl) (h .bySetPos rfl), Reading.pure_andThen, Reading.map_pure,
      Option.map_some]
  · simp only [readPattern, Pattern.frequency, readMonth, readUpTo_none (h .byMonth rfl),
      Reading.pure_andThen]
  · simp only [readPattern, Pattern.frequency, readMonth, readMonthDay,
      readUpTo_decimal (by decide) (h .byMonth rfl),
      readUpTo_decimal (by decide) (h .byMonthDay rfl), Reading.pure_andThen]
  · simp only [readPattern, Pattern.frequency, readMonth, readMonthDay,
      readUpTo_decimal (by decide) (h .byMonth rfl), readUpTo_none (h .byMonthDay rfl),
      readNth_code (h .byDay rfl) (h .bySetPos rfl),
      Reading.pure_andThen, Reading.map_pure, Option.map_some]

theorem readEnding_never {l : TokenList} (hcount : l.get? .count = none)
    (huntil : l.get? .untilTime = none) : l.readEnding = .pure .never := by
  rw [readEnding, readPositive_none hcount, Reading.pure_andThen]
  simp only [huntil]

theorem readEnding_count {l : TokenList} {n : Positive} (hcount : l.get? .count = some (decimal n.1))
    (hn : (decimal n.1).length ≤ maxDigits) : l.readEnding = .pure (.after n) := by
  rw [readEnding, readPositive_decimal hcount hn, Reading.pure_andThen]

theorem readEnding_until {l : TokenList} {raw : List Char} {t : Second}
    (hcount : l.get? .count = none) (huntil : l.get? .untilTime = some raw)
    (ht : Compact.read? raw = some t) : l.readEnding = .pure (.on t) := by
  have hnil : Compact.read? [] = none := by decide
  rw [readEnding, readPositive_none hcount, Reading.pure_andThen]
  cases raw with
  | nil =>
    rw [hnil] at ht
    exact absurd ht (by simp)
  | cons c raw => simp only [huntil, ht]

theorem readEnding_toTokens {r : Rule} (hr : r.Storable) :
    readEnding ⟨rulePrefix, r.toTokens⟩ = .pure r.ending := by
  have hcount := get?_toTokens r .count
  have huntil := get?_toTokens r .untilTime
  cases he : r.ending with
  | never =>
    rw [he] at hcount huntil
    exact readEnding_never hcount huntil
  | after n =>
    rw [he, Ending.toTokens, get?_singleton _ _ _ (steady_decimal _), if_pos rfl] at hcount
    exact readEnding_count hcount (hr.2 n he)
  | on t =>
    have hsteady := Compact.steady_compactChars t.instant
    have hread := Compact.read?_compactChars t.instant
    rw [Second.second_instant] at hread
    rw [he, Ending.toTokens, get?_singleton _ _ _ hsteady] at hcount huntil
    rw [if_neg (by decide)] at hcount
    rw [if_pos rfl] at huntil
    exact readEnding_until hcount huntil hread

theorem readRule_toTokens {r : Rule} (hr : r.Storable) :
    readRule ⟨rulePrefix, r.toTokens⟩ r.pattern.frequency = .pure r := by
  have hinterval := readPositive_decimal (get?_toTokens r .interval) hr.1
  have hmode : ShowsMode ⟨rulePrefix, r.toTokens⟩ r.pattern := showsMode_toTokens r
  simp only [readRule, hinterval, readPattern_of_showsMode hmode, readEnding_toTokens hr,
    Reading.pure_andThen, Reading.map_pure, Option.getD_some]

end TokenList

namespace Rule

theorem read_of_frequency {s : String} {f : Frequency}
    (h : (TokenList.ofText s.toList).get? .freq = some f.name.toList) :
    read s = .ok ((TokenList.ofText s.toList).readRule f) := by
  have hname : Frequency.ofName? (String.ofList (upper f.name.toList)) = some f := by
    rw [upper_of_steady (writable_name f).1, String.ofList_toList, Frequency.ofName?_name]
  rw [read]
  cases hf : f.name.toList with
  | nil => exact absurd hf (by cases f <;> decide)
  | cons c raw =>
    rw [hf] at h hname
    simp only [h, hname]

/-- **A stored rule is read without complaint.** -/
theorem read_encode {r : Rule} (hr : r.Storable) : read r.encode = .ok (.pure r) := by
  have hfreq := TokenList.get?_toTokens r .freq
  rw [← r.ofText_encode] at hfreq
  rw [read_of_frequency hfreq, r.ofText_encode, TokenList.readRule_toTokens hr]

theorem decode?_encode {r : Rule} (hr : r.Storable) : decode? r.encode = some r := by
  rw [decode?, read_encode hr]
  rfl

theorem parse_encode {r : Rule} (hr : r.Storable) : parse r.encode = .ok r := by
  rw [parse, read_encode hr]
  rfl

end Rule

/-! ## What the tolerant reader gives -/

namespace TokenList

variable {l : TokenList} {key : Key}

theorem readInt?_of_readNumber {least most : Option Int} {i : Int}
    (h : (l.readNumber key least most).value = some i) : ∃ raw, readInt? raw = some i := by
  unfold readNumber at h
  split at h
  · exact absurd h (by simp [Reading.pure])
  · rename_i raw _
    split at h
    · exact absurd h (by simp [Reading.complain])
    · rename_i j hj
      split at h
      · exact absurd h (by simp [Reading.complain])
      · obtain rfl := Option.some.inj h
        exact ⟨raw, hj⟩

theorem length_decimal_of_readPositive {n : Positive} (h : (l.readPositive key).value = some n) :
    (decimal n.1).length ≤ maxDigits := by
  obtain ⟨i, hi, hn⟩ := Option.bind_eq_some_iff.1
    (show (l.readNumber key (some 1) none).value.bind positive? = some n from h)
  obtain ⟨raw, hraw⟩ := readInt?_of_readNumber hi
  have hlen := length_decimal_of_readInt? hraw
  rw [positive?] at hn
  split at hn
  · rename_i hpos
    obtain rfl := Option.some.inj hn
    have habs : i.natAbs = i.toNat := by omega
    rwa [habs] at hlen
  · exact absurd hn (by simp)

theorem count_of_readEnding {n : Positive} (h : l.readEnding.value = .after n) :
    (l.readPositive .count).value = some n := by
  unfold readEnding Reading.andThen at h
  cases hc : (l.readPositive .count).value with
  | some m =>
    simp only [hc, Reading.pure, Ending.after.injEq] at h
    rw [h]
  | none =>
    simp only [hc] at h
    split at h
    · exact absurd h (by simp [Reading.pure])
    · exact absurd h (by simp [Reading.pure])
    · split at h
      · exact absurd h (by simp [Reading.pure])
      · exact absurd h (by simp [Reading.complain])

theorem storable_readRule (l : TokenList) (f : Frequency) : (l.readRule f).value.Storable := by
  refine ⟨?_, fun n hn => length_decimal_of_readPositive (count_of_readEnding hn)⟩
  show (decimal ((l.readPositive .interval).value.getD Positive.one).1).length ≤ maxDigits
  cases hi : (l.readPositive .interval).value with
  | none => exact length_decimal_of_lt_hundred (by decide)
  | some n => exact length_decimal_of_readPositive hi

end TokenList

namespace Rule

/-- A rule that is read has a frequency, and all else is read from the tokens. -/
theorem exists_readRule_of_decode? {s : String} {r : Rule} (h : decode? s = some r) :
    ∃ raw f, (TokenList.ofText s.toList).get? .freq = some raw ∧
      ((TokenList.ofText s.toList).readRule f).value = r := by
  unfold decode? read at h
  cases hf : (TokenList.ofText s.toList).get? .freq with
  | none => simp only [hf] at h; exact absurd h (by simp)
  | some raw =>
    cases raw with
    | nil => simp only [hf] at h; exact absurd h (by simp)
    | cons c raw =>
      simp only [hf] at h
      cases hname : Frequency.ofName? (String.ofList (upper (c :: raw))) with
      | none => simp only [hname] at h; exact absurd h (by simp)
      | some f =>
        simp only [hname] at h
        exact ⟨_, f, rfl, Option.some.inj h⟩

/-- **Every rule that is read can be stored.** -/
theorem storable_of_decode? {s : String} {r : Rule} (h : decode? s = some r) : r.Storable := by
  obtain ⟨_, f, -, rfl⟩ := exists_readRule_of_decode? h
  exact TokenList.storable_readRule _ f

/-- **The round trip of a stored rule.**  Both readers give a rule back from its canonical text, so
that no two rules share a text; and the rule of any text that can be read is written in a text from
which strict reading and writing give the same text. -/
theorem stored_text_round_trip :
    (∀ r : Rule, r.Storable → decode? r.encode = some r ∧ parse r.encode = .ok r) ∧
      (∀ r₁ r₂ : Rule, r₁.Storable → r₂.Storable → r₁.encode = r₂.encode → r₁ = r₂) ∧
      ∀ (s : String) (r : Rule), decode? s = some r →
        ∃ r', parse r.encode = .ok r' ∧ r'.encode = r.encode := by
  refine ⟨fun r hr => ⟨decode?_encode hr, parse_encode hr⟩, fun r₁ r₂ h₁ h₂ he => ?_,
    fun s r h => ⟨r, parse_encode (storable_of_decode? h), rfl⟩⟩
  have h := decode?_encode h₁
  rw [he, decode?_encode h₂] at h
  exact (Option.some.inj h).symm

/-- The second Tuesday of every twelfth month, three times. -/
def secondTuesdays : Rule :=
  ⟨.monthly (some (.nth .second .tuesday)), ⟨12, by decide⟩, .after ⟨3, by decide⟩⟩

theorem secondTuesdays_storable : secondTuesdays.Storable :=
  ⟨by decide, by rintro n ⟨⟩; decide⟩

theorem secondTuesdays_round_trip :
    decode? secondTuesdays.encode = some secondTuesdays ∧
      parse secondTuesdays.encode = .ok secondTuesdays ∧
      secondTuesdays.encode ≠ (secondTuesdays.withEnding .never).encode ∧
      decode? " rrule:interval=1_2;COUNT=x;count= 3;freq=Monthly;BYDAY=2tu,?" = some secondTuesdays ∧
      ∃ r', parse secondTuesdays.encode = .ok r' ∧ r'.encode = secondTuesdays.encode := by
  have hread : decode? " rrule:interval=1_2;COUNT=x;count= 3;freq=Monthly;BYDAY=2tu,?" =
      some secondTuesdays := by decide +kernel
  have hstored := secondTuesdays_storable
  have hnever : (secondTuesdays.withEnding .never).Storable := ⟨hstored.1, by rintro n ⟨⟩⟩
  obtain ⟨hdecode, hparse⟩ := stored_text_round_trip.1 secondTuesdays hstored
  refine ⟨hdecode, hparse, fun he => ?_, hread, stored_text_round_trip.2.2 _ _ hread⟩
  exact absurd (stored_text_round_trip.2.1 _ _ hstored hnever he) (by decide)

end Rule

end Recurrence
