import Recurrence.Form.Rule
import Recurrence.Proofs.Rule.Verbatim
import Recurrence.Proofs.Timestamp.Compact
import Recurrence.Rule.Clamp

/-!
# Canonical tokens

`Rule.toTokens` writes keys and values that no reader takes apart in another way: they are steady
texts without a semicolon, and the keys have no equals sign.  So a text that is put together from
such tokens gives the same tokens when it is taken apart (`ofText_toText`), in particular the
canonical text of a rule (`ofText_encode`).

From this follow the two changes of an ending on canonical texts.  `clampUntil_encode` and
`withCount_encode` say that changing the text is the same as changing the ending of the rule and
writing it anew.  `rewritten_encode` adds that the last second is the one which a form has that ends a
second before the cutoff.
-/

namespace Recurrence

open Text

/-! ## Keys -/

namespace Key

theorem chars_injective {k k' : Key} (h : k.chars = k'.chars) : k = k' := by
  cases k <;> cases k' <;> first | rfl | exact absurd h (by decide)

theorem chars_inj {k k' : Key} : k.chars = k'.chars ↔ k = k' :=
  ⟨chars_injective, congrArg chars⟩

theorem steady_chars (k : Key) : Steady k.chars := by cases k <;> decide

theorem chars_ne_nil (k : Key) : k.chars ≠ [] := by cases k <;> decide

theorem equals_not_mem_chars (k : Key) : '=' ∉ k.chars := by cases k <;> decide

theorem semicolon_not_mem_chars (k : Key) : ';' ∉ k.chars := by cases k <;> decide

/-- The keys that only a mode writes. -/
def isMode : Key → Bool
  | byDay | byMonthDay | byMonth | bySetPos => true
  | _ => false

/-- The keys that only an ending writes. -/
def isEnding : Key → Bool
  | count | untilTime => true
  | _ => false

theorem name_token (k : Key) (v : List Char) : (k.token v).name = k.chars := by
  have hs := k.steady_chars
  show upper (strip k.chars) = k.chars
  rw [strip_of_steady hs, upper_of_steady hs]

theorem read_token (k : Key) {v : List Char} (hv : ';' ∉ v) : (k.token v).Read := by
  refine ⟨?_, k.equals_not_mem_chars, fun hm => ?_⟩
  · show strip k.chars ≠ []
    rw [strip_of_steady k.steady_chars]
    exact k.chars_ne_nil
  · rcases List.mem_append.1 hm with hm | hm
    · exact k.semicolon_not_mem_chars hm
    · rcases List.mem_cons.1 hm with hm | hm
      · exact absurd hm (by decide)
      · exact hv hm

end Key

/-! ## Written tokens -/

/-- A value that can stand in a token. -/
def Writable (v : List Char) : Prop := Steady v ∧ ';' ∉ v

theorem writable_of_digits {s : List Char} (h : ∀ c ∈ s, 48 ≤ c.toNat ∧ c.toNat ≤ 57) :
    Writable s :=
  ⟨steady_of_digits h, fun hm => absurd (h ';' hm) (by decide)⟩

theorem writable_decimal (n : Nat) : Writable (decimal n) :=
  writable_of_digits fun _ => digit_of_mem_decimal

theorem writable_compactChars (t : Instant) : Writable t.compactChars := by
  refine ⟨Compact.steady_compactChars t, fun hm => ?_⟩
  exact absurd (Compact.mem_compactChars hm) (by decide)

theorem writable_number (p : Position) : Writable (signed p.number) := by
  cases p <;> exact ⟨by decide, by decide⟩

theorem writable_code (w : Weekday) : Writable w.code.toList := by
  cases w <;> exact ⟨by decide, by decide⟩

theorem writable_name (f : Frequency) : Writable f.name.toList := by
  cases f <;> exact ⟨by decide, by decide⟩

theorem writable_codes (days : List Weekday) :
    Writable (joinWith ',' (days.map (·.code.toList))) := by
  have code_of_mem : ∀ p ∈ days.map (·.code.toList), Writable p := by
    intro p hp
    obtain ⟨w, _, rfl⟩ := List.mem_map.1 hp
    exact writable_code w
  refine ⟨steady_joinWith (by decide) fun p hp => (code_of_mem p hp).1, ?_⟩
  exact not_mem_joinWith (by decide) fun p hp => (code_of_mem p hp).2

/-- The tokens that say which days a pattern chooses. -/
def Pattern.modeTokens (p : Pattern) : List Token := (p.mode.map Mode.toTokens).getD []

theorem Mode.key_of_mem_toTokens {m : Mode} {t : Token} (h : t ∈ m.toTokens) :
    ∃ (k : Key) (v : List Char), t = k.token v ∧ Writable v ∧ k.isMode = true := by
  cases m <;> simp only [toTokens, List.mem_cons, List.not_mem_nil, or_false] at h
  case weeklyDays days => exact ⟨_, _, h, writable_codes _, rfl⟩
  case monthlyDay d => exact ⟨_, _, h, writable_decimal _, rfl⟩
  case monthlyNth p w =>
    rcases h with h | h
    · exact ⟨_, _, h, writable_code w, rfl⟩
    · exact ⟨_, _, h, writable_number p, rfl⟩
  case yearlyDate m d =>
    rcases h with h | h
    · exact ⟨_, _, h, writable_decimal _, rfl⟩
    · exact ⟨_, _, h, writable_decimal _, rfl⟩
  case yearlyNth p w m =>
    rcases h with h | h | h
    · exact ⟨_, _, h, writable_decimal _, rfl⟩
    · exact ⟨_, _, h, writable_code w, rfl⟩
    · exact ⟨_, _, h, writable_number p, rfl⟩

theorem Pattern.key_of_mem_modeTokens {p : Pattern} {t : Token} (h : t ∈ p.modeTokens) :
    ∃ (k : Key) (v : List Char), t = k.token v ∧ Writable v ∧ k.isMode = true := by
  unfold modeTokens at h
  cases hm : p.mode with
  | none =>
    rw [hm] at h
    exact absurd h List.not_mem_nil
  | some m =>
    rw [hm] at h
    exact Mode.key_of_mem_toTokens h

theorem Ending.key_of_mem_toTokens {e : Ending} {t : Token} (h : t ∈ e.toTokens) :
    ∃ (k : Key) (v : List Char), t = k.token v ∧ Writable v ∧ k.isEnding = true := by
  cases e with
  | never => exact absurd h List.not_mem_nil
  | after n => exact ⟨_, _, List.mem_singleton.1 h, writable_decimal _, rfl⟩
  | on s => exact ⟨_, _, List.mem_singleton.1 h, writable_compactChars _, rfl⟩

namespace Rule

/-- The tokens of a rule without those of its ending. -/
def headTokens (r : Rule) : List Token :=
  Key.freq.token r.pattern.frequency.name.toList :: Key.interval.token (decimal r.interval.1) ::
    r.pattern.modeTokens

theorem toTokens_eq_append (r : Rule) : r.toTokens = r.headTokens ++ r.ending.toTokens := rfl

theorem key_of_mem_headTokens {r : Rule} {t : Token} (h : t ∈ r.headTokens) :
    ∃ (k : Key) (v : List Char), t = k.token v ∧ Writable v ∧ k.isEnding = false := by
  rcases List.mem_cons.1 h with rfl | h
  · exact ⟨_, _, rfl, writable_name _, rfl⟩
  rcases List.mem_cons.1 h with rfl | h
  · exact ⟨_, _, rfl, writable_decimal _, rfl⟩
  obtain ⟨k, v, rfl, hv, hk⟩ := Pattern.key_of_mem_modeTokens h
  exact ⟨k, v, rfl, hv, by cases k <;> first | rfl | exact absurd hk (by decide)⟩

end Rule

/-- A token of a known key with a value that can be written. -/
def Token.Canonical (t : Token) : Prop := ∃ (k : Key) (v : List Char), t = k.token v ∧ Writable v

theorem Rule.canonical_toTokens (r : Rule) : ∀ t ∈ r.toTokens, t.Canonical := by
  intro t ht
  rw [toTokens_eq_append] at ht
  rcases List.mem_append.1 ht with ht | ht
  · obtain ⟨k, v, he, hv, -⟩ := key_of_mem_headTokens ht
    exact ⟨k, v, he, hv⟩
  · obtain ⟨k, v, he, hv, -⟩ := Ending.key_of_mem_toTokens ht
    exact ⟨k, v, he, hv⟩

/-! ## Taking canonical texts apart -/

namespace Token

variable {t : Token}

theorem Canonical.steady_toPart (h : t.Canonical) : Steady t.toPart := by
  obtain ⟨k, v, rfl, hv⟩ := h
  exact steady_append k.steady_chars (steady_cons (by decide) hv.1)

theorem Canonical.read (h : t.Canonical) : t.Read := by
  obtain ⟨k, v, rfl, hv⟩ := h
  exact k.read_token hv.2

end Token

namespace TokenList

theorem cutLead_rulePrefix (s : List Char) : cutLead (rulePrefix ++ s) = (rulePrefix, s) :=
  cutLead_append_of_lead (upper_of_steady (by decide)) s

/-- **Taking apart inverts putting together** on canonical tokens. -/
theorem ofText_toText {ts : List Token} (hne : ts ≠ []) (h : ∀ t ∈ ts, t.Canonical) :
    ofText (toText ⟨rulePrefix, ts⟩) = ⟨rulePrefix, ts⟩ := by
  have hparts : ∀ p ∈ ts.map Token.toPart, Steady p := by
    intro p hp
    obtain ⟨t, ht, rfl⟩ := List.mem_map.1 hp
    exact (h t ht).steady_toPart
  have hprefix : Steady rulePrefix := by decide
  have hsteady : Steady (toText ⟨rulePrefix, ts⟩) :=
    steady_append hprefix (steady_joinWith (by decide) hparts)
  have hdivides : Divides ⟨rulePrefix, ts⟩ (toText ⟨rulePrefix, ts⟩) :=
    ⟨rfl, .inl (upper_of_steady hprefix), hne, fun t ht => (h t ht).read⟩
  exact hdivides.ofText_eq (strip_of_steady hsteady)

end TokenList

namespace Rule

theorem ofText_encodeChars (r : Rule) :
    TokenList.ofText r.encodeChars = ⟨rulePrefix, r.toTokens⟩ :=
  TokenList.ofText_toText (List.cons_ne_nil _ _) r.canonical_toTokens

theorem ofText_encode (r : Rule) :
    TokenList.ofText r.encode.toList = ⟨rulePrefix, r.toTokens⟩ := by
  rw [encode, String.toList_ofList]
  exact r.ofText_encodeChars

end Rule

/-! ## Changing the ending of a canonical text -/

/-- The tokens before those of the ending are named neither count nor last second. -/
theorem Rule.name_of_mem_headTokens {r : Rule} {t : Token} (h : t ∈ r.headTokens) :
    t.name ≠ Key.count.chars ∧ t.name ≠ Key.untilTime.chars := by
  obtain ⟨k, v, rfl, -, hk⟩ := key_of_mem_headTokens h
  rw [k.name_token]
  refine ⟨fun he => ?_, fun he => ?_⟩
  · rw [Key.chars_injective he] at hk
    exact absurd hk (by decide)
  · rw [Key.chars_injective he] at hk
    exact absurd hk (by decide)

namespace TokenList

theorem clampTokens_append {value : List Char} {ts us : List Token}
    (h : ∀ t ∈ ts, t.name ≠ Key.count.chars ∧ t.name ≠ Key.untilTime.chars) :
    clampTokens value false (ts ++ us) = ts ++ clampTokens value false us := by
  induction ts with
  | nil => rfl
  | cons t ts ih =>
    obtain ⟨hc, hu⟩ := h t List.mem_cons_self
    rw [List.cons_append, clampTokens, if_neg hc, if_neg hu,
      ih fun u hu => h u (List.mem_cons_of_mem _ hu), List.cons_append]

theorem clampTokens_ending (value : List Char) (e : Ending) :
    clampTokens value false e.toTokens = [Key.untilTime.token value] := by
  cases e with
  | never => rfl
  | after n =>
    rw [Ending.toTokens, clampTokens, if_pos (Key.count.name_token _)]
    rfl
  | on s =>
    have hc : (Key.untilTime.token s.instant.compactChars).name ≠ Key.count.chars := by
      rw [Key.name_token]
      decide
    rw [Ending.toTokens, clampTokens, if_neg hc, if_pos (Key.untilTime.name_token _)]
    rfl

theorem clampAt_toTokens (r : Rule) (t : Instant) :
    clampAt ⟨rulePrefix, r.toTokens⟩ t = ⟨rulePrefix, (r.withEnding (.on t.second)).toTokens⟩ := by
  have hhead : (r.withEnding (.on t.second)).headTokens = r.headTokens := rfl
  rw [clampAt, Rule.toTokens_eq_append, clampTokens_append fun _ => Rule.name_of_mem_headTokens,
    clampTokens_ending, Rule.toTokens_eq_append, hhead]
  rw [Rule.withEnding, Ending.toTokens, Instant.compactChars_instant_second]

theorem map_recount_eq {n : Nat} {ts : List Token} (h : ∀ t ∈ ts, t.name ≠ Key.count.chars) :
    (ts.map fun t => if t.name = Key.count.chars then (⟨t.key, some (decimal n)⟩ : Token) else t) =
      ts := by
  induction ts with
  | nil => rfl
  | cons t ts ih =>
    rw [List.map_cons, if_neg (h t List.mem_cons_self),
      ih fun u hu => h u (List.mem_cons_of_mem _ hu)]

theorem recount_toTokens {r : Rule} {n : Positive} (h : r.ending = .after n) (m : Positive) :
    recount ⟨rulePrefix, r.toTokens⟩ m.1 = ⟨rulePrefix, (r.withEnding (.after m)).toTokens⟩ := by
  have hhead : (r.withEnding (.after m)).headTokens = r.headTokens := rfl
  have hcount : (Key.count.token (decimal n.1)).name = Key.count.chars := Key.name_token _ _
  rw [recount, Rule.toTokens_eq_append, Rule.toTokens_eq_append, hhead, h, List.map_append,
    map_recount_eq fun _ ht => (Rule.name_of_mem_headTokens ht).1]
  simp only [Rule.withEnding, Ending.toTokens, List.map_cons, List.map_nil, if_pos hcount]
  rfl

theorem hasFrequency_toTokens (r : Rule) : hasFrequency ⟨rulePrefix, r.toTokens⟩ = true := by
  have hname : (Key.freq.token r.pattern.frequency.name.toList).name = Key.freq.chars :=
    Key.name_token _ _
  rw [hasFrequency, Rule.toTokens, List.any_cons, hname, beq_self_eq_true, Bool.true_or]

end TokenList

namespace Rule

/-- **Clamping a canonical text** is giving the rule its last second. -/
theorem clampUntil_encode (r : Rule) {cutoff : Stamp} {c last : Instant}
    (hc : cutoff.utc = .ok c) (hlast : c.shift? (-1000000) = some last) :
    clampUntil r.encode cutoff = .ok (r.withEnding (.on last.second)).encode := by
  have hbefore : secondBefore c = .ok last := by rw [secondBefore, hlast]
  simp only [clampUntil, r.ofText_encode, TokenList.hasFrequency_toTokens, if_true, hc]
  show (secondBefore c >>= _) = _
  rw [hbefore]
  show Except.ok (String.ofList (TokenList.clampAt _ last).toText) = _
  rw [TokenList.clampAt_toTokens]
  rfl

/-- **Recounting a canonical text** is giving the rule another count. -/
theorem withCount_encode {r : Rule} {n : Positive} (h : r.ending = .after n) (m : Positive) :
    withCount r.encode m.1 = (r.withEnding (.after m)).encode := by
  rw [withCount, r.ofText_encode, TokenList.recount_toTokens h]
  rfl

/-- The last second of a form is the one that holds the instant of its stamp. -/
theorem lastSecond_stamp {s : Stamp} {t : Instant} (h : s.utc = .ok t) :
    RuleForm.lastSecond (.moment (.stamp s)) = .ok t.second := by
  have hcheck : FormTime.checkInstant (.moment (.stamp s)) = .ok t := by
    simp only [FormTime.checkInstant, FormTime.check, h]
  simp only [RuleForm.lastSecond, hcheck, Except.map]

/-- **Rewriting a canonical text is writing the changed rule.**  Clamped before a cutoff, it is the text
of the rule that ends a second earlier, as a form with that time has it, whatever the ending was; with
another count, it is the text of the rule with this count. -/
theorem rewritten_encode (r : Rule) :
    (∀ (cutoff before : Stamp) (c last : Instant), cutoff.utc = .ok c →
      c.shift? (-1000000) = some last → before.utc = .ok last →
        ∃ second, RuleForm.lastSecond (.moment (.stamp before)) = .ok second ∧
          clampUntil r.encode cutoff = .ok (r.withEnding (.on second)).encode) ∧
      ∀ n m : Positive, r.ending = .after n →
        withCount r.encode m.1 = (r.withEnding (.after m)).encode := by
  constructor
  · intro cutoff before c last hcutoff hlast hbefore
    exact ⟨last.second, lastSecond_stamp hbefore, r.clampUntil_encode hcutoff hlast⟩
  · intro n m hn
    exact withCount_encode hn m

/-- The second Sunday of May, nine times. -/
def mothersDays : Rule :=
  ⟨.yearly (some (.nth .second .sunday ⟨5, by decide⟩)), Positive.one, .after ⟨9, by decide⟩⟩

/-- Half a second past nine on 3 January 2025. -/
def pastNine : Instant := ⟨(739253 * 24 + 9) * 3600000000 + 500000, by decide⟩

/-- The same instant a second earlier on a clock that is four hours ahead. -/
def secondToOne : Stamp := ⟨⟨(739253 * 24 + 13) * 3600000000 - 500000, by decide⟩,
  some ⟨14400000000, by decide, by decide⟩⟩

theorem rewritten_encode_mothersDays :
    mothersDays.encode = "RRULE:FREQ=YEARLY;INTERVAL=1;BYMONTH=5;BYDAY=SU;BYSETPOS=2;COUNT=9" ∧
      (∃ second, RuleForm.lastSecond (.moment (.stamp secondToOne)) = .ok second ∧
        clampUntil mothersDays.encode ⟨pastNine, none⟩ =
          .ok (mothersDays.withEnding (.on second)).encode) ∧
      clampUntil mothersDays.encode ⟨pastNine, none⟩ =
        .ok "RRULE:FREQ=YEARLY;INTERVAL=1;BYMONTH=5;BYDAY=SU;BYSETPOS=2;UNTIL=20250103T085959Z" ∧
      withCount mothersDays.encode 4 = (mothersDays.withEnding (.after ⟨4, by decide⟩)).encode := by
  have hutc : Stamp.utc ⟨pastNine, none⟩ = .ok pastNine := by decide +kernel
  have hshift : (pastNine.shift? (-1000000)).isSome = true := by decide +kernel
  obtain ⟨last, hlast⟩ := Option.isSome_iff_exists.1 hshift
  have hbefore : secondToOne.utc = .ok last := by
    have hsame : (pastNine.shift? (-1000000)).map Except.ok = some secondToOne.utc := by
      decide +kernel
    rw [hlast] at hsame
    exact (Option.some.inj hsame).symm
  obtain ⟨hclamped, hcounted⟩ := rewritten_encode mothersDays
  exact ⟨by decide +kernel, hclamped _ _ _ _ hutc hlast hbefore, by decide +kernel,
    hcounted ⟨9, by decide⟩ ⟨4, by decide⟩ rfl⟩

end Rule

end Recurrence
