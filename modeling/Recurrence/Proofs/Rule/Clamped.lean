import Recurrence.Proofs.Rule.Reread
import Recurrence.Proofs.Rule.RoundTrip

/-!
# Clamping stored texts

Clamping works on the tokens of any stored text, not only on canonical ones.  It goes over them one by
one (`TokenList.clampTokens_induction`).  Among the clamped tokens no count is left
(`TokenList.get?_count_clampTokens`), and the last second is the new one
(`TokenList.get?_until_clampTokens`).

That is what the clamper sees.  The next reader sees the same (`TokenList.get?_ofText_toText`), unless a
token comes to light behind a prefix in the first key (`TokenList.hidden?`).  If that is a count
(`TokenList.hiddenCount?`), it is what the reader goes by, and the last second goes unheeded
(`TokenList.value_readEnding_clampAt`).
-/

namespace Recurrence

open Text

namespace TokenList

/-! ## Looking up a key of clamped tokens -/

theorem get?_cons_token (lead : List Char) (t : Token) (ts : List Token) (k : Key) :
    get? ⟨lead, t :: ts⟩ k =
      (get? ⟨lead, ts⟩ k).or (if t.name = k.chars then t.value.map strip else none) := by
  have happend := get?_append lead [t] ts k
  rw [List.singleton_append] at happend
  rw [happend]
  congr 1
  simp only [get?, value?, List.reverse_singleton, List.findSome?_singleton]

theorem get?_cons_of_ne {t : Token} {k : Key} (h : t.name ≠ k.chars) (lead : List Char)
    (ts : List Token) : get? ⟨lead, t :: ts⟩ k = get? ⟨lead, ts⟩ k := by
  rw [get?_cons_token, if_neg h, Option.or_none]

variable {value lead : List Char} {ts us : List Token} {t : Token} {written : Bool}

/-! ### One step of clamping -/

theorem name_ne_of_name {k k' : Key} (h : t.name = k.chars) (hne : k ≠ k') : t.name ≠ k'.chars :=
  fun he => hne (Key.chars_injective (h.symm.trans he))

theorem clampTokens_count (h : t.name = Key.count.chars) :
    clampTokens value written (t :: ts) = clampTokens value written ts := by
  rw [clampTokens, if_pos h]

theorem clampTokens_until (h : t.name = Key.untilTime.chars) :
    clampTokens value false (t :: ts) = ⟨t.key, some value⟩ :: clampTokens value true ts := by
  rw [clampTokens, if_neg (name_ne_of_name h (by decide)), if_pos h, if_neg (by decide)]

theorem clampTokens_until_again (h : t.name = Key.untilTime.chars) :
    clampTokens value true (t :: ts) = clampTokens value true ts := by
  rw [clampTokens, if_neg (name_ne_of_name h (by decide)), if_pos h, if_pos rfl]

theorem clampTokens_other (hcount : t.name ≠ Key.count.chars) (huntil : t.name ≠ Key.untilTime.chars) :
    clampTokens value written (t :: ts) = t :: clampTokens value written ts := by
  rw [clampTokens, if_neg hcount, if_neg huntil]

/-! ### The whole run -/

/-- Clamping goes over the tokens one by one, and each is a count, a last second or another one. -/
@[elab_as_elim]
theorem clampTokens_induction {motive : Bool → List Token → Prop} (unwritten : motive false [])
    (done : motive true [])
    (count : ∀ written t ts, t.name = Key.count.chars → motive written ts → motive written (t :: ts))
    (last : ∀ t ts, t.name = Key.untilTime.chars → motive true ts → motive false (t :: ts))
    (again : ∀ t ts, t.name = Key.untilTime.chars → motive true ts → motive true (t :: ts))
    (other : ∀ written t ts, t.name ≠ Key.count.chars → t.name ≠ Key.untilTime.chars →
      motive written ts → motive written (t :: ts))
    (written : Bool) (ts : List Token) : motive written ts := by
  induction ts generalizing written with
  | nil =>
    cases written with
    | false => exact unwritten
    | true => exact done
  | cons t ts ih =>
    by_cases hcount : t.name = Key.count.chars
    · exact count written t ts hcount (ih written)
    · by_cases huntil : t.name = Key.untilTime.chars
      · cases written with
        | false => exact last t ts huntil (ih true)
        | true => exact again t ts huntil (ih true)
      · exact other written t ts hcount huntil (ih written)

/-- No count is left. -/
theorem get?_count_clampTokens (value lead : List Char) (written : Bool) (ts : List Token) :
    get? ⟨lead, clampTokens value written ts⟩ .count = none := by
  induction written, ts using clampTokens_induction with
  | unwritten =>
    have hname : (Key.untilTime.token value).name ≠ Key.count.chars :=
      name_ne_of_name (Key.name_token _ _) (by decide)
    rw [clampTokens, get?_cons_of_ne hname]
    rfl
  | done => rfl
  | count written t ts hcount ih => rw [clampTokens_count hcount, ih]
  | last t ts huntil ih =>
    have hname : Token.name ⟨t.key, some value⟩ ≠ Key.count.chars :=
      name_ne_of_name huntil (by decide)
    rw [clampTokens_until huntil, get?_cons_of_ne hname, ih]
  | again t ts huntil ih => rw [clampTokens_until_again huntil, ih]
  | other written t ts hcount huntil ih =>
    rw [clampTokens_other hcount huntil, get?_cons_of_ne hcount, ih]

/-- The last second is the new one. -/
theorem get?_until_clampTokens (hvalue : Steady value) (lead : List Char) (written : Bool)
    (ts : List Token) :
    get? ⟨lead, clampTokens value written ts⟩ .untilTime = if written then none else some value := by
  induction written, ts using clampTokens_induction with
  | unwritten => exact get?_singleton lead .untilTime .untilTime hvalue
  | done => rfl
  | count written t ts hcount ih => rw [clampTokens_count hcount, ih]
  | last t ts huntil ih =>
    have hname : Token.name ⟨t.key, some value⟩ = Key.untilTime.chars := huntil
    rw [clampTokens_until huntil, get?_cons_token, ih, if_pos hname]
    exact congrArg some (strip_of_steady hvalue)
  | again t ts huntil ih => rw [clampTokens_until_again huntil, ih]
  | other written t ts hcount huntil ih =>
    rw [clampTokens_other hcount huntil, get?_cons_of_ne huntil, ih]

/-- The first of the clamped tokens has the key of the first token that is no count.  Only a last second
has another value there. -/
theorem exists_clampTokens_cons (value : List Char) (ts : List Token) :
    ∃ u us, clampTokens value false ts = u :: us ∧
      (u.name = Key.untilTime.chars ∨
        ts.find? (fun t => t.name ≠ Key.count.chars) = some u) ∧
      ∀ t, ts.find? (fun t => t.name ≠ Key.count.chars) = some t → t.key = u.key := by
  induction ts with
  | nil => exact ⟨Key.untilTime.token value, [], rfl, .inl (Key.name_token _ _), nofun⟩
  | cons t ts ih =>
    by_cases hcount : t.name = Key.count.chars
    · have hfind : (t :: ts).find? (fun t => t.name ≠ Key.count.chars) =
          ts.find? fun t => t.name ≠ Key.count.chars :=
        List.find?_cons_of_neg (by simp [hcount])
      rw [clampTokens_count hcount, hfind]
      exact ih
    · have hfind : (t :: ts).find? (fun t => t.name ≠ Key.count.chars) = some t :=
        List.find?_cons_of_pos (by simp [hcount])
      rw [hfind]
      by_cases huntil : t.name = Key.untilTime.chars
      · refine ⟨_, _, clampTokens_until huntil, .inl huntil, fun u hu => ?_⟩
        rw [Option.some.inj hu]
      · refine ⟨_, _, clampTokens_other hcount huntil, .inr rfl, fun u hu => ?_⟩
        rw [Option.some.inj hu]

theorem read_clampTokens (hvalue : ';' ∉ value) (h : ∀ t ∈ ts, t.Read) :
    ∀ u ∈ clampTokens value written ts, u.Read := by
  induction written, ts using clampTokens_induction with
  | unwritten => exact List.forall_mem_singleton.2 (Key.untilTime.read_token hvalue)
  | done => exact fun u hu => absurd hu List.not_mem_nil
  | count written t ts hcount ih =>
    rw [clampTokens_count hcount]
    exact ih (List.forall_mem_cons.1 h).2
  | last t ts huntil ih =>
    obtain ⟨ht, hts⟩ := List.forall_mem_cons.1 h
    rw [clampTokens_until huntil]
    exact List.forall_mem_cons.2 ⟨ht.withValue hvalue, ih hts⟩
  | again t ts huntil ih =>
    rw [clampTokens_until_again huntil]
    exact ih (List.forall_mem_cons.1 h).2
  | other written t ts hcount huntil ih =>
    obtain ⟨ht, hts⟩ := List.forall_mem_cons.1 h
    rw [clampTokens_other hcount huntil]
    exact List.forall_mem_cons.2 ⟨ht, ih hts⟩

/-! ## What the next reader finds -/

/-- The token that comes to light when a text without a prefix is clamped and reread: behind a prefix in
the key of the first token that is no count. -/
def hidden? (l : TokenList) : Option Token :=
  if l.lead = [] then
    (l.tokens.find? fun t => t.name ≠ Key.count.chars).bind fun t =>
      let c := cutLead (stripLeft t.key)
      if c.1 = [] then none else some ⟨c.2, t.value⟩
  else none

/-- The count that comes to light there. -/
def hiddenCount? (l : TokenList) : Option Positive :=
  l.hidden?.bind fun t => (readPositive ⟨[], [t]⟩ .count).value

/-- A key that has the prefix in it has no known name. -/
theorem nameOf_ne_of_lead {key : List Char} (h : (cutLead (stripLeft key)).1 ≠ []) (k : Key) :
    Token.nameOf key ≠ k.chars := by
  rcases cutLead_cases (stripLeft key) with hcut | ⟨l, r, hl, hkey, -⟩
  · exact absurd (congrArg Prod.fst hcut) h
  · intro hname
    obtain ⟨back, hback⟩ : strip key <+: stripLeft key := List.rdropWhile_prefix _ _
    have hupper : k.chars ++ upper back = rulePrefix ++ upper r := by
      rw [← hname, ← hl, Token.nameOf, ← upper_append, ← upper_append, hback, hkey]
    obtain ⟨c, rest, hchars, hc⟩ : ∃ c rest, k.chars = c :: rest ∧ c ≠ 'R' := by
      cases k <;> exact ⟨_, _, rfl, by decide⟩
    rw [hchars, show rulePrefix = 'R' :: "RULE:".toList by decide] at hupper
    exact hc (List.cons.inj hupper).1

theorem lead_ofText (s : List Char) : (ofText s).lead = [] ∨
    upper (ofText s).lead = rulePrefix ∧ ∀ c ∈ (ofText s).lead.head?, isBlank c = false := by
  show (cutLead (strip s)).1 = [] ∨ _
  rcases cutLead_cases (strip s) with hcut | ⟨l, r, hl, hs, hcut⟩
  · exact .inl (congrArg Prod.fst hcut)
  · have hlead : (ofText s).lead = l := congrArg Prod.fst hcut
    refine .inr ⟨hlead ▸ hl, fun c hc => ?_⟩
    apply isBlank_of_head?_strip (s := s)
    rw [hlead] at hc
    rw [hs, List.head?_append, Option.mem_def.1 hc]
    rfl

/-- The prefix of a text has no separator in it. -/
theorem not_mem_lead {c : Char} (hc : isSteady c = true) (hrule : c ∉ rulePrefix) (s : List Char) :
    c ∉ (ofText s).lead := by
  rcases lead_ofText s with hnil | ⟨hlead, -⟩
  · rw [hnil]
    exact List.not_mem_nil
  · intro hm
    have hupper := mem_upper_of_isSteady hc hm
    rw [hlead] at hupper
    exact hrule hupper

theorem semicolon_not_mem_lead (s : List Char) : ';' ∉ (ofText s).lead :=
  not_mem_lead (by decide) (by decide) s

theorem equals_not_mem_lead (s : List Char) : '=' ∉ (ofText s).lead :=
  not_mem_lead (by decide) (by decide) s

/-- The first key is reread as it is, but for white space, unless a prefix comes to light in it. -/
theorem strip_rereadHead (s : List Char) (u : Token) :
    strip (rereadHead (ofText s).lead u).key = strip u.key ∨
      (ofText s).lead = [] ∧ (cutLead (stripLeft u.key)).1 ≠ [] := by
  rcases lead_ofText s with hnil | ⟨hlead, hhead⟩
  · by_cases hc : (cutLead (stripLeft u.key)).1 = []
    · refine .inl ?_
      have happend := cutLead_append (stripLeft u.key)
      rw [hc, List.nil_append] at happend
      rw [rereadHead, hnil, List.nil_append, happend, strip_stripLeft]
    · exact .inr ⟨hnil, hc⟩
  · refine .inl ?_
    have hstrip : stripLeft ((ofText s).lead ++ u.key) = (ofText s).lead ++ u.key := by
      cases hcons : (ofText s).lead with
      | nil => exact absurd hcons (lead_ne_nil hlead)
      | cons c r =>
        have hc : isBlank c = false := hhead c (by rw [hcons]; rfl)
        rw [List.cons_append, stripLeft, List.dropWhile_cons_of_neg (by simp [hc])]
    rw [rereadHead, hstrip, cutLead_append_of_lead hlead]

/-- Under each key, the next reader looks up the first token as it is reread. -/
theorem get?_reread (hlead : '=' ∉ lead) (ht : t.Read) (ts : List Token) (k : Key) :
    get? (reread ⟨lead, t :: ts⟩) k = get? ⟨lead, rereadHead lead t :: ts⟩ k := by
  have hpart := Token.ofPart?_toPart_of_not_mem (equals_not_mem_rereadHead hlead ht) t.value
  have hreread : get? (reread ⟨lead, t :: ts⟩) k =
      get? ⟨lead, (Token.ofPart? (rereadHead lead t).toPart).toList ++ ts⟩ k := rfl
  rw [hreread]
  by_cases hblank : strip (rereadHead lead t).key = []
  · have hname : (rereadHead lead t).name ≠ k.chars := by
      rw [Token.name, Token.nameOf, hblank]
      exact fun he => k.chars_ne_nil he.symm
    rw [if_pos hblank] at hpart
    rw [get?_cons_of_ne hname]
    exact congrArg (fun o => get? ⟨lead, Option.toList o ++ ts⟩ k) hpart
  · rw [if_neg hblank] at hpart
    exact congrArg (fun o => get? ⟨lead, Option.toList o ++ ts⟩ k) hpart

/-- Tokens that give a key a value are not one bare key: the first has a value, or another one
follows. -/
theorem more_of_get? {u : Token} {k : Key} (h : get? ⟨lead, u :: us⟩ k = some value) :
    u.value ≠ none ∨ us ≠ [] := by
  by_cases hus : us = []
  · refine .inl fun hu => ?_
    rw [hus, get?_cons_token, hu] at h
    split at h
    · cases h
    · cases h
  · exact .inr hus

/-- **What the next reader looks up** in a text that is put together behind the prefix of another. -/
theorem get?_ofText_toText {s : List Char} {u : Token} (hread : ∀ t ∈ u :: us, t.Read)
    (hmore : u.value ≠ none ∨ us ≠ []) (k : Key) :
    get? (ofText (toText ⟨(ofText s).lead, u :: us⟩)) k =
      get? ⟨(ofText s).lead, rereadHead (ofText s).lead u :: us⟩ k := by
  rw [get?_congr (meaning_ofText_toText hread (semicolon_not_mem_lead s) hmore)]
  exact get?_reread (equals_not_mem_lead s) (hread u List.mem_cons_self) us k

theorem get?_cons_rereadHead {u : Token} (h : strip (rereadHead lead u).key = strip u.key)
    (us : List Token) (k : Key) : get? ⟨lead, rereadHead lead u :: us⟩ k = get? ⟨lead, u :: us⟩ k := by
  have hname : (rereadHead lead u).name = u.name := congrArg upper h
  rw [get?_cons_token, get?_cons_token, hname]
  rfl

/-! ## The tokens of a clamped text -/

/-- The tokens of a clamped text, as they are written. -/
theorem exists_clampAt (s : List Char) (last : Instant) :
    ∃ u us, clampTokens last.compactChars false (ofText s).tokens = u :: us ∧
      (ofText s).clampAt last = ⟨(ofText s).lead, u :: us⟩ ∧ (∀ t ∈ u :: us, t.Read) ∧
      (u.value ≠ none ∨ us ≠ []) := by
  obtain ⟨hvalue, hsemicolon⟩ := writable_compactChars last
  obtain ⟨u, us, hclamp, -, -⟩ := exists_clampTokens_cons last.compactChars (ofText s).tokens
  have huntil := get?_until_clampTokens hvalue (ofText s).lead false (ofText s).tokens
  rw [hclamp] at huntil
  refine ⟨u, us, hclamp, by rw [clampAt, hclamp], ?_, more_of_get? huntil⟩
  rw [← hclamp]
  exact read_clampTokens hsemicolon (read_ofText s)

/-- The first of the clamped tokens keeps its key, but for white space, unless it comes to light behind a
prefix. -/
theorem rereadHead_cases {s : List Char} {u : Token}
    (hclamp : clampTokens value false (ofText s).tokens = u :: us) :
    ((ofText s).hidden? = none ∧ strip (rereadHead (ofText s).lead u).key = strip u.key) ∨
      (ofText s).hidden? = some (rereadHead (ofText s).lead u) ∧ ∀ k : Key, u.name ≠ k.chars := by
  obtain ⟨u', us', hclamp', hkind, hkey⟩ := exists_clampTokens_cons value (ofText s).tokens
  obtain ⟨rfl, rfl⟩ := List.cons.inj (hclamp'.symm.trans hclamp)
  by_cases hlight : (ofText s).lead = [] ∧ (cutLead (stripLeft u'.key)).1 ≠ []
  · -- The first key is none that the clamper looks for, so its token is still there.
    obtain ⟨hnil, hc⟩ := hlight
    have hother : ∀ k : Key, u'.name ≠ k.chars := nameOf_ne_of_lead hc
    refine .inr ⟨?_, hother⟩
    rw [hidden?, if_pos hnil, hkind.resolve_left (hother .untilTime), Option.bind_some, rereadHead,
      hnil]
    exact if_neg hc
  · refine .inl ⟨?_, (strip_rereadHead s u').resolve_right hlight⟩
    by_cases hnil : (ofText s).lead = []
    · have hc : (cutLead (stripLeft u'.key)).1 = [] := by
        by_contra hc
        exact hlight ⟨hnil, hc⟩
      rw [hidden?, if_pos hnil, Option.bind_eq_none_iff]
      intro t ht
      simp only [hkey t ht, if_pos hc]
    · exact if_neg hnil

theorem readPositive_congr {l l' : TokenList} {k : Key} (h : l.get? k = l'.get? k) :
    l.readPositive k = l'.readPositive k := by
  rw [readPositive, readPositive, readNumber, readNumber, h]

/-- The ending of tokens with a last second: a count goes before it. -/
theorem value_readEnding {l : TokenList} {raw : List Char} {s : Second}
    (huntil : l.get? .untilTime = some raw) (hs : Compact.read? raw = some s) :
    l.readEnding.value = ((l.readPositive .count).value.map Ending.after).getD (.on s) := by
  have hnil : Compact.read? [] = none := by decide
  cases hcount : (l.readPositive .count).value with
  | some n => simp only [readEnding, Reading.andThen, hcount]; rfl
  | none =>
    cases raw with
    | nil =>
      rw [hnil] at hs
      cases hs
    | cons c raw => simp only [readEnding, Reading.andThen, hcount, huntil, hs]; rfl

/-- **The ending of a clamped text.**  The next reader finds the new last second, unless a count comes to
light. -/
theorem value_readEnding_clampAt (s : List Char) (last : Instant) :
    (ofText ((ofText s).clampAt last).toText).readEnding.value =
      ((ofText s).hiddenCount?.map Ending.after).getD (.on last.second) := by
  have hvalue := (writable_compactChars last).1
  obtain ⟨u, us, hclamp, hlist, hread, hmore⟩ := exists_clampAt s last
  have hget := get?_ofText_toText (s := s) hread hmore
  have hcount := get?_count_clampTokens last.compactChars (ofText s).lead false (ofText s).tokens
  have huntil := get?_until_clampTokens hvalue (ofText s).lead false (ofText s).tokens
  rw [hclamp] at hcount huntil
  rw [hlist, hiddenCount?]
  suffices hreread :
      get? ⟨(ofText s).lead, rereadHead (ofText s).lead u :: us⟩ .untilTime =
          some last.compactChars ∧
        (readPositive ⟨(ofText s).lead, rereadHead (ofText s).lead u :: us⟩ .count).value =
          (ofText s).hidden?.bind fun t => (readPositive ⟨[], [t]⟩ .count).value by
    rw [value_readEnding ((hget _).trans hreread.1) (Compact.read?_compactChars last),
      readPositive_congr (hget _), hreread.2]
  rcases rereadHead_cases hclamp with ⟨hnone, hkey⟩ | ⟨hsome, hother⟩
  · have hsame := get?_cons_rereadHead hkey us
    refine ⟨(hsame _).trans huntil, ?_⟩
    rw [readPositive_none ((hsame _).trans hcount), hnone]
    rfl
  · rw [get?_cons_of_ne (hother _)] at hcount huntil
    refine ⟨?_, ?_⟩
    · rw [get?_cons_token, huntil]
      rfl
    · rw [hsome, Option.bind_some]
      refine congrArg Reading.value (readPositive_congr ?_)
      rw [get?_cons_token, hcount, get?_cons_token]
      rfl

theorem ending_readRule (l : TokenList) (f : Frequency) :
    (l.readRule f).value.ending = l.readEnding.value := rfl

theorem hasFrequency_of_get? {l : TokenList} {raw : List Char} (h : l.get? .freq = some raw) :
    l.hasFrequency = true := by
  obtain ⟨t, ht, hvalue⟩ := List.exists_of_findSome?_eq_some h
  refine List.any_eq_true.2 ⟨t, List.mem_reverse.1 ht, ?_⟩
  split at hvalue
  · rename_i hname
    rw [hname]
    exact beq_self_eq_true _
  · cases hvalue

end TokenList

namespace Rule

theorem ending_of_decode? {s : String} {r : Rule} (h : decode? s = some r) :
    r.ending = (TokenList.ofText s.toList).readEnding.value := by
  obtain ⟨_, f, -, hr⟩ := exists_readRule_of_decode? h
  rw [← hr, TokenList.ending_readRule]

theorem clampUntil_of_hasFrequency {rule : String} {cutoff : Stamp} {c last : Instant}
    (hfreq : (TokenList.ofText rule.toList).hasFrequency = true) (hcutoff : cutoff.utc = .ok c)
    (hlast : c.shift? (-1000000) = some last) :
    clampUntil rule cutoff =
      .ok (String.ofList ((TokenList.ofText rule.toList).clampAt last).toText) := by
  have hbefore : secondBefore c = .ok last := by rw [secondBefore, hlast]
  simp only [clampUntil, if_pos hfreq, hcutoff]
  show (secondBefore c >>= _) = _
  rw [hbefore]
  rfl

/-- **The ending of a rule that is read from a clamped text.** -/
theorem ending_of_clampUntil (rule : String) {cutoff : Stamp} {c last : Instant}
    (hcutoff : cutoff.utc = .ok c) (hlast : c.shift? (-1000000) = some last) :
    ∃ text, clampUntil rule cutoff = .ok text ∧
      ∀ r, decode? text = some r → r.ending =
        ((TokenList.ofText rule.toList).hiddenCount?.map Ending.after).getD (.on last.second) := by
  by_cases hfreq : (TokenList.ofText rule.toList).hasFrequency = true
  · refine ⟨_, clampUntil_of_hasFrequency hfreq hcutoff hlast, fun r hr => ?_⟩
    rw [ending_of_decode? hr, String.toList_ofList]
    exact TokenList.value_readEnding_clampAt rule.toList last
  · refine ⟨rule, if_neg hfreq, fun r hr => ?_⟩
    obtain ⟨_, _, hraw, -⟩ := exists_readRule_of_decode? hr
    exact absurd (TokenList.hasFrequency_of_get? hraw) hfreq

end Rule

end Recurrence
