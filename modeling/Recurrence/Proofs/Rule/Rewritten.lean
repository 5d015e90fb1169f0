import Recurrence.Proofs.Rule.Clamped
import Recurrence.Proofs.Rule.Tolerant

/-!
# Rewriting changes the ending alone

Clamping a text and giving it another count work on its tokens, and the reader reads the new text from
the start.  The rule that it finds is the old one but for the ending (`Rule.decode?_rewritten`), however
odd the text is, as long as no key begins with a prefix.

Both rewritings keep what is looked up under every key that no ending has
(`TokenList.get?_clampTokens`, `TokenList.get?_recount`), and these keys give all of a rule but its
ending (`TokenList.value_readRule`).  The reader looks up in the new text what the rewriting has put
there, since no prefix comes to light (`TokenList.get?_ofText_toText_of_plain`).  Together this is
`Rule.decode?_toText`, which both rewritings come down to.
-/

namespace Recurrence

open Text

/-! ## Keys with a prefix -/

namespace TokenList

variable {lead value : List Char} {ts us : List Token} {k : Key} {l l' : TokenList}

/-- A key in which a prefix can come to light begins with it. -/
theorem prefix_of_lead {key : List Char} (h : (cutLead (stripLeft key)).1 ≠ []) :
    rulePrefix <+: Token.nameOf key := by
  rcases cutLead_cases (stripLeft key) with hcut | ⟨p, rest, hp, hkey, -⟩
  · exact absurd (congrArg Prod.fst hcut) h
  · obtain ⟨back, hback, hright⟩ := exists_stripRight (stripLeft key)
    have hstrip : strip key ++ back = p ++ rest := hright.trans hkey
    rcases List.append_eq_append_iff.1 hstrip with ⟨m, hm, hrest⟩ | ⟨m, hm, -⟩
    · -- What is stripped behind the key would reach into the prefix.
      have hnil : m = [] := by
        refine List.eq_nil_iff_forall_not_mem.2 fun c hc => ?_
        have hunblank := isBlank_of_lead hp c (hm ▸ List.mem_append_right _ hc)
        rw [hback c (hrest ▸ List.mem_append_left rest hc)] at hunblank
        cases hunblank
      rw [hnil, List.append_nil] at hm
      have hname : Token.nameOf key = rulePrefix := by rw [Token.nameOf, ← hm, hp]
      exact hname.symm ▸ List.prefix_refl rulePrefix
    · rw [Token.nameOf, hm, upper_append, hp]
      exact List.prefix_append _ _

/-- **Without a prefix in the first key**, what is looked up in tokens is looked up again in their text. -/
theorem get?_ofText_toText_of_plain {s : List Char} (hlead : l.lead = (ofText s).lead)
    (hread : ∀ t ∈ l.tokens, t.Read) (hplain : ∀ t ∈ l.tokens.head?, ¬rulePrefix <+: t.name)
    {k' : Key} (hsome : l.get? k' = some value) (k : Key) : (ofText l.toText).get? k = l.get? k := by
  obtain ⟨lead, ts⟩ := l
  obtain rfl : lead = (ofText s).lead := hlead
  cases ts with
  | nil => cases hsome
  | cons u us =>
    rw [get?_ofText_toText hread (more_of_get? hsome)]
    rcases strip_rereadHead s u with hkey | ⟨-, hlight⟩
    · exact get?_cons_rereadHead hkey us k
    · exact absurd (prefix_of_lead hlight) (hplain u rfl)

/-! ## What rewriting leaves alone -/

/-- Clamping keeps what is looked up under a key that no ending has. -/
theorem get?_clampTokens (hk : k.isEnding = false) (value lead : List Char) (written : Bool)
    (ts : List Token) : get? ⟨lead, clampTokens value written ts⟩ k = get? ⟨lead, ts⟩ k := by
  have hcountKey : Key.count ≠ k := by rintro rfl; cases hk
  have huntilKey : Key.untilTime ≠ k := by rintro rfl; cases hk
  induction written, ts using clampTokens_induction with
  | unwritten =>
    have hname : (Key.untilTime.token value).name ≠ k.chars :=
      name_ne_of_name (Key.name_token _ _) huntilKey
    rw [clampTokens, get?_cons_of_ne hname]
  | done => rfl
  | count written t ts hcount ih =>
    rw [clampTokens_count hcount, ih, get?_cons_of_ne (name_ne_of_name hcount hcountKey)]
  | last t ts huntil ih =>
    have hname : t.name ≠ k.chars := name_ne_of_name huntil huntilKey
    have hnew : Token.name ⟨t.key, some value⟩ ≠ k.chars := hname
    rw [clampTokens_until huntil, get?_cons_of_ne hnew, ih, get?_cons_of_ne hname]
  | again t ts huntil ih =>
    rw [clampTokens_until_again huntil, ih, get?_cons_of_ne (name_ne_of_name huntil huntilKey)]
  | other written t ts hcount huntil ih =>
    rw [clampTokens_other hcount huntil, get?_cons_token, ih, ← get?_cons_token]

theorem lead_clampAt (l : TokenList) (last : Instant) : (l.clampAt last).lead = l.lead := rfl

theorem get?_clampAt (hk : k.isEnding = false) (l : TokenList) (last : Instant) :
    (l.clampAt last).get? k = l.get? k :=
  get?_clampTokens hk last.compactChars l.lead false l.tokens

theorem readEnding_clampAt (l : TokenList) (last : Instant) :
    (l.clampAt last).readEnding = .pure (.on last.second) := by
  have hvalue := (writable_compactChars last).1
  exact readEnding_until (get?_count_clampTokens _ _ _ _) (get?_until_clampTokens hvalue _ _ _)
    (Compact.read?_compactChars last)

theorem read_clampAt (h : ∀ t ∈ l.tokens, t.Read) (last : Instant) :
    ∀ t ∈ (l.clampAt last).tokens, t.Read :=
  read_clampTokens (writable_compactChars last).2 h

/-- The first of the clamped tokens has the name of one that was there, or is the last second. -/
theorem plain_clampAt (h : ∀ t ∈ l.tokens, ¬rulePrefix <+: t.name) (last : Instant) :
    ∀ u ∈ (l.clampAt last).tokens.head?, ¬rulePrefix <+: u.name := by
  obtain ⟨u, us, hclamp, hkind, -⟩ := exists_clampTokens_cons last.compactChars l.tokens
  rw [clampAt, hclamp]
  rintro _ ⟨⟩
  rcases hkind with hname | hfind
  · rw [hname]
    decide
  · exact h u (List.mem_of_find?_eq_some hfind)

theorem lead_recount (l : TokenList) (n : Nat) : (l.recount n).lead = l.lead := rfl

/-- A token as it stands among the recounted ones. -/
theorem recount_cons (lead : List Char) (t : Token) (ts : List Token) (n : Nat) :
    recount ⟨lead, t :: ts⟩ n =
      ⟨lead, (if t.name = Key.count.chars then ⟨t.key, some (decimal n)⟩ else t) ::
        (recount ⟨lead, ts⟩ n).tokens⟩ := rfl

/-- Another count keeps what is looked up under the other keys. -/
theorem get?_recount (hk : k.isEnding = false) (l : TokenList) (n : Nat) :
    (l.recount n).get? k = l.get? k := by
  have hcountKey : Key.count ≠ k := by rintro rfl; cases hk
  obtain ⟨lead, ts⟩ := l
  induction ts with
  | nil => rfl
  | cons t ts ih =>
    have htail : get? ⟨lead, (recount ⟨lead, ts⟩ n).tokens⟩ k = get? ⟨lead, ts⟩ k := ih
    rw [recount_cons, get?_cons_token, htail]
    by_cases hcount : t.name = Key.count.chars
    · have hname : t.name ≠ k.chars := name_ne_of_name hcount hcountKey
      have hnew : Token.name ⟨t.key, some (decimal n)⟩ ≠ k.chars := hname
      rw [if_pos hcount, if_neg hnew, Option.or_none, get?_cons_of_ne hname]
    · rw [if_neg hcount, ← get?_cons_token]

/-- Tokens that give a count give the new one then. -/
theorem get?_count_recount {raw : List Char} (h : l.get? .count = some raw) (n : Nat) :
    (l.recount n).get? .count = some (decimal n) := by
  obtain ⟨t, _, ⟨hname, -⟩, before, after, htokens, -⟩ := get?_eq_some_iff.1 h
  have hnew : ∀ u ∈ (l.recount n).tokens, u.name = Key.count.chars → u.value = some (decimal n) := by
    intro u hu huname
    obtain ⟨t, -, rfl⟩ := List.mem_map.1 hu
    by_cases hcount : t.name = Key.count.chars
    · rw [if_pos hcount]
    · rw [if_neg hcount] at huname
      exact absurd huname hcount
  cases hv : (l.recount n).get? .count with
  | none =>
    have ht : (⟨t.key, some (decimal n)⟩ : Token) ∈ (l.recount n).tokens := by
      refine List.mem_map.2 ⟨t, ?_, if_pos hname⟩
      rw [htokens]
      exact List.mem_append_right _ List.mem_cons_self
    have hnone := get?_eq_none_iff.1 hv _ ht hname
    cases hnone
  | some v =>
    obtain ⟨u, raw, ⟨huname, huvalue, rfl⟩, before, after, hu, -⟩ := get?_eq_some_iff.1 hv
    have hmem : u ∈ (l.recount n).tokens := by
      rw [hu]
      exact List.mem_append_right _ List.mem_cons_self
    rw [hnew u hmem huname] at huvalue
    rw [← Option.some.inj huvalue, strip_of_steady (steady_decimal n)]

theorem read_recount (h : ∀ t ∈ l.tokens, t.Read) (n : Nat) :
    ∀ t ∈ (l.recount n).tokens, t.Read := by
  intro u hu
  obtain ⟨t, ht, rfl⟩ := List.mem_map.1 hu
  by_cases hcount : t.name = Key.count.chars
  · rw [if_pos hcount]
    exact (h t ht).withValue (writable_decimal n).2
  · rw [if_neg hcount]
    exact h t ht

theorem plain_recount (h : ∀ t ∈ l.tokens, ¬rulePrefix <+: t.name) (n : Nat) :
    ∀ u ∈ (l.recount n).tokens.head?, ¬rulePrefix <+: u.name := by
  intro u hu
  obtain ⟨t, ht, rfl⟩ := List.mem_map.1 (List.mem_of_mem_head? hu)
  split
  · exact h t ht
  · exact h t ht

/-! ## The rule but for its ending -/

/-- The keys of the ending have no part in the pattern. -/
theorem readPattern_congr (h : ∀ k : Key, k.isEnding = false → l'.get? k = l.get? k) (f : Frequency) :
    l'.readPattern f = l.readPattern f := by
  have hnth : l'.readNth = l.readNth := by
    simp only [readNth, readDays, readPosition, readNumber, h .byDay rfl, h .bySetPos rfl]
  have hday : l'.readMonthDay = l.readMonthDay := by
    simp only [readMonthDay, readUpTo, readNumber, h .byMonthDay rfl]
  cases f with
  | daily => rfl
  | weekly => simp only [readPattern, readDays, h .byDay rfl]
  | monthly => simp only [readPattern, hday, hnth]
  | yearly => simp only [readPattern, readMonth, readUpTo, readNumber, h .byMonth rfl, hday, hnth]

/-- Tokens that differ in the keys of the ending alone give the same rule but for the ending. -/
theorem value_readRule (h : ∀ k : Key, k.isEnding = false → l'.get? k = l.get? k) (f : Frequency) :
    (l'.readRule f).value = (l.readRule f).value.withEnding l'.readEnding.value := by
  simp only [readRule, Reading.value_andThen, Reading.value_map, readPattern_congr h,
    readPositive_congr (h .interval rfl), Rule.withEnding]

theorem readEnding_congr (h : ∀ k, l'.get? k = l.get? k) : l'.readEnding = l.readEnding := by
  rw [readEnding, readEnding, readPositive_congr (h .count), h .untilTime]

end TokenList

namespace Rule

open TokenList

variable {s : String} {r : Rule}

/-- **The rule of a rewritten text**: the ending is that of the new tokens, and all else is the old rule,
if the tokens are the old ones to all keys but those of the ending. -/
theorem decode?_toText {l : TokenList} (h : decode? s = some r)
    (hlead : l.lead = (ofText s.toList).lead) (hread : ∀ t ∈ l.tokens, t.Read)
    (hplain : ∀ t ∈ l.tokens.head?, ¬rulePrefix <+: t.name)
    (hkeep : ∀ k : Key, k.isEnding = false → l.get? k = (ofText s.toList).get? k) :
    decode? (String.ofList l.toText) = some (r.withEnding l.readEnding.value) := by
  obtain ⟨raw, -, hraw, -⟩ := exists_readRule_of_decode? h
  have hget := get?_ofText_toText_of_plain hlead hread hplain ((hkeep .freq rfl).trans hraw)
  have hsame : ∀ k : Key, k.isEnding = false →
      (ofText l.toText).get? k = (ofText s.toList).get? k :=
    fun k hk => (hget k).trans (hkeep k hk)
  rw [decode?_eq] at h ⊢
  obtain ⟨f, hf, rfl⟩ := Option.map_eq_some_iff.1 h
  rw [String.toList_ofList, frequency?, hsame .freq rfl, ← frequency?, hf, Option.map_some,
    value_readRule hsame, readEnding_congr hget]

/-- The rule that is read from a clamped text. -/
theorem decode?_clampAt (h : decode? s = some r)
    (hplain : ∀ t ∈ (ofText s.toList).tokens, ¬rulePrefix <+: t.name) (last : Instant) :
    decode? (String.ofList ((ofText s.toList).clampAt last).toText) =
      some (r.withEnding (.on last.second)) := by
  have hnew := decode?_toText h (lead_clampAt _ last) (read_clampAt (read_ofText _) last)
    (plain_clampAt hplain last) fun k hk => get?_clampAt hk _ last
  rw [hnew, readEnding_clampAt, Reading.pure]

/-- The rule that is read from a text with another count. -/
theorem decode?_withCount (h : decode? s = some r)
    (hplain : ∀ t ∈ (ofText s.toList).tokens, ¬rulePrefix <+: t.name) {n m : Positive}
    (hr : r.ending = .after n) (hm : (decimal m.1).length ≤ maxDigits) :
    decode? (withCount s m.1) = some (r.withEnding (.after m)) := by
  have hcount : (ofText s.toList).get? .count ≠ none := by
    intro hnone
    rw [ending_of_decode? h] at hr
    have hread := count_of_readEnding hr
    rw [readPositive_none hnone] at hread
    cases hread
  obtain ⟨raw, hraw⟩ := Option.ne_none_iff_exists'.1 hcount
  have hnew := decode?_toText h (lead_recount _ m.1) (read_recount (read_ofText _) m.1)
    (plain_recount hplain m.1) fun k hk => get?_recount hk _ m.1
  rw [withCount, hnew, readEnding_count (get?_count_recount hraw m.1) hm, Reading.pure]

/-- **Rewriting changes the ending alone.**  From a text none of whose keys begins with a prefix, clamped
before a cutoff, the rule is read that stops on the last second before it and is the old one otherwise;
and with another count, that can be written, a counted rule is read with this count. -/
theorem decode?_rewritten (h : decode? s = some r)
    (hplain : ∀ t ∈ (ofText s.toList).tokens, ¬rulePrefix <+: t.name) :
    (∀ (cutoff : Stamp) (c last : Instant), cutoff.utc = .ok c →
      c.shift? (-1000000) = some last → ∃ text, clampUntil s cutoff = .ok text ∧
        decode? text = some (r.withEnding (.on last.second))) ∧
      ∀ n m : Positive, r.ending = .after n → (decimal m.1).length ≤ maxDigits →
        decode? (withCount s m.1) = some (r.withEnding (.after m)) := by
  obtain ⟨raw, -, hraw, -⟩ := exists_readRule_of_decode? h
  have hfreq : (ofText s.toList).hasFrequency = true := hasFrequency_of_get? hraw
  constructor
  · intro cutoff c last hcutoff hlast
    exact ⟨_, clampUntil_of_hasFrequency hfreq hcutoff hlast, decode?_clampAt h hplain last⟩
  · intro n m hr hm
    exact decode?_withCount h hplain hr hm

/-- Every other day, seven times, in a loose spelling: with a bare count and a bare last second, two
more counts, and a key that is none of a rule. -/
def untidy : String :=
  " freq = daily ;COUNT; Count=x;x-note=kept;until=never;count= 7 ;;UNTIL;interval=2"

/-- Half a second past 07:00 on 3 January 2025. -/
def pastSeven : Instant := ⟨(739253 * 24 + 7) * 3600000000 + 500000, by decide⟩

theorem decode?_rewritten_untidy :
    ∃ r, decode? untidy = some r ∧ r = ⟨.daily, ⟨2, by decide⟩, .after ⟨7, by decide⟩⟩ ∧
      clampUntil untidy ⟨pastSeven, none⟩ =
        .ok "freq = daily ;x-note=kept;until=20250103T065959Z;interval=2" ∧
      (∃ last, pastSeven.shift? (-1000000) = some last ∧
        decode? "freq = daily ;x-note=kept;until=20250103T065959Z;interval=2" =
          some (r.withEnding (.on last.second))) ∧
      withCount untidy 3 =
        "freq = daily ;COUNT=3; Count=3;x-note=kept;until=never;count=3;UNTIL;interval=2" ∧
      decode? (withCount untidy 3) = some (r.withEnding (.after ⟨3, by decide⟩)) := by
  have hread : decode? untidy = some ⟨.daily, ⟨2, by decide⟩, .after ⟨7, by decide⟩⟩ := by
    decide +kernel
  have hplain : ∀ t ∈ (ofText untidy.toList).tokens, ¬rulePrefix <+: t.name := by decide +kernel
  have hutc : Stamp.utc ⟨pastSeven, none⟩ = .ok pastSeven := by decide +kernel
  have hshift : (pastSeven.shift? (-1000000)).isSome = true := by decide +kernel
  obtain ⟨last, hlast⟩ := Option.isSome_iff_exists.1 hshift
  obtain ⟨hclamped, hcounted⟩ := decode?_rewritten hread hplain
  obtain ⟨text, hclamp, htext⟩ := hclamped _ _ _ hutc hlast
  have hwritten : clampUntil untidy ⟨pastSeven, none⟩ =
      .ok "freq = daily ;x-note=kept;until=20250103T065959Z;interval=2" := by
    decide +kernel
  obtain rfl := Except.ok.inj (hclamp.symm.trans hwritten)
  have hthree := hcounted ⟨7, by decide⟩ ⟨3, by decide⟩ rfl (by decide)
  exact ⟨_, hread, rfl, hwritten, ⟨last, hlast, htext⟩, by decide +kernel, hthree⟩

end Rule

end Recurrence
