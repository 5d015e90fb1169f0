import Mathlib.Data.List.Basic
import Recurrence.Proofs.Text.Capital
import Recurrence.Proofs.Text.Strip
import Recurrence.Rule.Reader

/-!
# Reading a text that was put together

A text that is put together from tokens is taken apart anew by the next reader.  What a token says,
`Token.meaning`, is its name and its value without the white space around them, and all that is looked
up in a list of tokens depends on that alone (`TokenList.get?_congr`).

Tokens that were read from some text come back with the same meaning, but for one thing.  Where the
text had no prefix, the key of the first token may begin with one all the same, once the parts before it
have been dropped; the next reader then takes the prefix off (`TokenList.reread`,
`TokenList.meaning_ofText_toText`).
-/

namespace Recurrence

open Text

/-! ## The prefix -/

namespace Text

/-- No spelling of several capitals begins with a letter of the prefix. -/
theorem spelling_not_in_rulePrefix : ∀ e ∈ capitalSpellings,
    ∃ n l, e.2 = n :: l ∧ Char.ofNat n ∉ rulePrefix := by
  have hall : ∀ e ∈ capitalSpellings, e.2.head?.any fun n => Char.ofNat n ∉ rulePrefix := by
    decide +kernel
  intro e he
  cases hcode : e.2 with
  | nil =>
    have hany := hall e he
    rw [hcode] at hany
    cases hany
  | cons n l =>
    have hany := hall e he
    rw [hcode] at hany
    exact ⟨n, l, rfl, of_decide_eq_true hany⟩

/-- Capitals that are all letters of the prefix stand for one character each. -/
theorem length_of_upper {s p : List Char} (hp : ∀ x ∈ p, x ∈ rulePrefix) (h : upper s = p) :
    s.length = p.length := by
  induction s generalizing p with
  | nil =>
    rw [← h]
    rfl
  | cons c s ih =>
    have happend : upperChar c ++ upper s = p := h
    rcases upperChar_cases c with ⟨x, hx⟩ | ⟨e, he, hspelling⟩
    · rw [hx] at happend
      have hs : ∀ y ∈ upper s, y ∈ rulePrefix := fun y hy =>
        hp y (happend ▸ List.mem_append_right [x] hy)
      rw [← happend, List.length_append, List.length_cons, ih hs rfl, Nat.add_comm]
      rfl
    · obtain ⟨n, l, hcode, hn⟩ := spelling_not_in_rulePrefix e he
      rw [hspelling, hcode] at happend
      refine absurd (hp (Char.ofNat n) ?_) hn
      rw [← happend]
      exact List.mem_cons_self

end Text

namespace TokenList

variable {s l : List Char}

theorem length_of_lead (h : upper l = rulePrefix) : l.length = rulePrefix.length :=
  length_of_upper (fun _ hx => hx) h

theorem cutLead_append_of_lead (h : upper l = rulePrefix) (s : List Char) :
    cutLead (l ++ s) = (l, s) := by
  have hlength := length_of_lead h
  rw [cutLead, List.take_left' hlength, List.drop_left' hlength, if_pos h]

/-- Either a text has no prefix, or it is cut behind it. -/
theorem cutLead_cases (s : List Char) :
    cutLead s = ([], s) ∨ ∃ l r, upper l = rulePrefix ∧ s = l ++ r ∧ cutLead s = (l, r) := by
  by_cases h : upper (s.take rulePrefix.length) = rulePrefix
  · refine .inr ⟨_, _, h, (List.take_append_drop _ s).symm, ?_⟩
    rw [cutLead, if_pos h]
  · refine .inl ?_
    rw [cutLead, if_neg h]

theorem lead_ne_nil (h : upper l = rulePrefix) : l ≠ [] := by
  rintro rfl
  exact absurd h (by decide)

/-- There is no white space in a prefix, however it is spelled. -/
theorem isBlank_of_lead (h : upper l = rulePrefix) : ∀ c ∈ l, isBlank c = false := by
  intro c hc
  by_contra hblank
  have hcapital : upperChar c = [c] := upperChar_of_isBlank (eq_true_of_ne_false hblank)
  have hmem : c ∈ rulePrefix := by
    rw [← h]
    exact List.mem_flatMap.2 ⟨c, hc, hcapital ▸ List.mem_singleton_self c⟩
  have hsteady : Steady rulePrefix := by decide
  exact hblank (isBlank_of_isSteady (hsteady c hmem))

/-- A steady character that is not in the prefix ends the search for one. -/
theorem cutLead_append_cons {c : Char} (hc : isSteady c = true) (hlead : c ∉ rulePrefix)
    (s r : List Char) :
    cutLead (s ++ c :: r) = ((cutLead s).1, (cutLead s).2 ++ c :: r) := by
  rcases cutLead_cases s with hs | ⟨l, t, hl, rfl, hs⟩
  · rw [hs]
    rcases cutLead_cases (s ++ c :: r) with hcut | ⟨l, t, hl, happend, -⟩
    · exact hcut
    · rcases List.append_eq_append_iff.1 happend with ⟨m, hlm, hm⟩ | ⟨m, hsm, -⟩
      · -- The prefix would reach over the character.
        exfalso
        cases m with
        | nil =>
          rw [List.append_nil] at hlm
          rw [hlm] at hl
          have hcut := cutLead_append_of_lead hl []
          rw [List.append_nil, hs] at hcut
          exact lead_ne_nil hl (congrArg Prod.fst hcut).symm
        | cons d m =>
          have hd : c = d := (List.cons.inj hm).1
          have hmem : c ∈ l := by
            rw [hlm, hd]
            exact List.mem_append_right s List.mem_cons_self
          exact hlead (hl ▸ mem_upper_of_isSteady hc hmem)
      · rw [hsm, cutLead_append_of_lead hl] at hs
        exact absurd (congrArg Prod.fst hs) (lead_ne_nil hl)
  · rw [hs, List.append_assoc, cutLead_append_of_lead hl]

end TokenList

/-! ## What a token says -/

namespace Token

variable {t : Token} {s k front back : List Char}

/-- The name of a token, and its value without the white space around it. -/
def meaning (t : Token) : List Char × Option (List Char) := (t.name, t.value.map strip)

theorem ofPart?_toPart_of_not_mem (h : '=' ∉ k) (v : Option (List Char)) :
    ofPart? (toPart ⟨k, v⟩) = if strip k = [] then none else some ⟨k, v⟩ := by
  cases v with
  | none => simp only [ofPart?, toPart, cutAt_of_not_mem h]
  | some v => simp only [ofPart?, toPart, cutAt_append h]

theorem toPart_eq (t : Token) : t.toPart = t.key ++ t.value.elim [] ('=' :: ·) := by
  rw [toPart]
  cases t.value with
  | none => exact (List.append_nil t.key).symm
  | some v => rfl

/-- A character other than the equals sign is in the part of a token if it is in the key or the value. -/
theorem not_mem_toPart_iff {c : Char} (hc : c ≠ '=') :
    c ∉ t.toPart ↔ c ∉ t.key ∧ ∀ v ∈ t.value, c ∉ v := by
  rw [toPart]
  cases t.value with
  | none => simp
  | some v => simp [hc]

theorem exists_toPart (s : List Char) : ∃ k v, '=' ∉ k ∧ toPart ⟨k, v⟩ = s :=
  ⟨_, _, not_mem_cutAt '=' s, toPart_cutAt s⟩

theorem map_meaning_ofPart? (h : '=' ∉ k) (v : Option (List Char)) :
    (ofPart? (toPart ⟨k, v⟩)).map meaning =
      if strip k = [] then none else some (upper (strip k), v.map strip) := by
  rw [ofPart?_toPart_of_not_mem h]
  split
  · rfl
  · rfl

theorem meaning_ofPart?_blank_append (h : Blank front) (s : List Char) :
    (ofPart? (front ++ s)).map meaning = (ofPart? s).map meaning := by
  obtain ⟨k, v, hk, rfl⟩ := exists_toPart s
  have hkey : '=' ∉ front ++ k := fun hm =>
    (List.mem_append.1 hm).elim (not_mem_of_blank (by decide) h) hk
  have htext : front ++ toPart ⟨k, v⟩ = toPart ⟨front ++ k, v⟩ := by
    cases v with
    | none => rfl
    | some v => exact (List.append_assoc front k ('=' :: v)).symm
  rw [htext, map_meaning_ofPart? hkey, map_meaning_ofPart? hk, strip_blank_append h]

theorem meaning_ofPart?_append_blank (h : Blank back) (s : List Char) :
    (ofPart? (s ++ back)).map meaning = (ofPart? s).map meaning := by
  obtain ⟨k, v, hk, rfl⟩ := exists_toPart s
  cases v with
  | none =>
    have hkey : '=' ∉ k ++ back := fun hm =>
      (List.mem_append.1 hm).elim hk (not_mem_of_blank (by decide) h)
    have htext : toPart ⟨k, none⟩ ++ back = toPart ⟨k ++ back, none⟩ := rfl
    rw [htext, map_meaning_ofPart? hkey, map_meaning_ofPart? hk, strip_append_blank h]
  | some v =>
    have htext : toPart ⟨k, some v⟩ ++ back = toPart ⟨k, some (v ++ back)⟩ :=
      List.append_assoc k ('=' :: v) back
    rw [htext, map_meaning_ofPart? hk, map_meaning_ofPart? hk, Option.map_some, Option.map_some,
      strip_append_blank h]

/-- White space around a part of a text does not matter to the token that it is. -/
theorem meaning_ofPart?_strip (s : List Char) :
    (ofPart? (strip s)).map meaning = (ofPart? s).map meaning := by
  obtain ⟨front, hfront, hs⟩ := exists_stripLeft s
  obtain ⟨back, hback, hright⟩ := exists_stripRight (stripLeft s)
  have hstrip : strip s ++ back = stripLeft s := hright
  rw [← meaning_ofPart?_append_blank hback, hstrip, ← meaning_ofPart?_blank_append hfront, hs]

/-- A token that some text can have: it is named, and neither its key nor its value reach over a
separator. -/
structure Read (t : Token) : Prop where
  named : strip t.key ≠ []
  equals : '=' ∉ t.key
  semicolon : ';' ∉ t.toPart

theorem Read.ofPart?_toPart (h : t.Read) : ofPart? t.toPart = some t := by
  have hpart := ofPart?_toPart_of_not_mem h.equals t.value
  rwa [if_neg h.named] at hpart

/-- The value does not matter, as long as it does not reach over a separator either. -/
theorem Read.withValue {v : List Char} (h : t.Read) (hv : ';' ∉ v) : Read ⟨t.key, some v⟩ := by
  refine ⟨h.named, h.equals, (not_mem_toPart_iff (by decide)).2 ⟨?_, ?_⟩⟩
  · exact ((not_mem_toPart_iff (by decide)).1 h.semicolon).1
  · rintro _ ⟨⟩
    exact hv

theorem Read.of_mem_parts {u : List Char} (h : t ∈ (splitOn ';' u).filterMap ofPart?) : t.Read := by
  obtain ⟨p, hp, ht⟩ := List.mem_filterMap.1 h
  obtain ⟨k, v, hk, rfl⟩ := exists_toPart p
  rw [ofPart?_toPart_of_not_mem hk] at ht
  by_cases hnamed : strip k = []
  · rw [if_pos hnamed] at ht
    cases ht
  · rw [if_neg hnamed] at ht
    rw [← Option.some.inj ht]
    exact ⟨hnamed, hk, not_mem_of_mem_splitOn hp⟩

end Token

namespace TokenList

variable {l : TokenList} {ps qs : List (List Char)}

theorem read_ofText (s : List Char) : ∀ t ∈ (ofText s).tokens, t.Read :=
  fun _ => Token.Read.of_mem_parts

/-- Parts that are the same but for the white space around them have the same meanings. -/
theorem meanings_congr (h : ps.map strip = qs.map strip) :
    (ps.filterMap Token.ofPart?).map Token.meaning =
      (qs.filterMap Token.ofPart?).map Token.meaning := by
  have hstrip : ∀ ps : List (List Char), (ps.filterMap Token.ofPart?).map Token.meaning =
      (ps.map strip).filterMap fun p => (Token.ofPart? p).map Token.meaning := by
    intro ps
    rw [List.map_filterMap, List.filterMap_map]
    exact congrArg (List.filterMap · ps) (funext fun p => (Token.meaning_ofPart?_strip p).symm)
  rw [hstrip, hstrip, h]

theorem filterMap_ofPart?_toPart {ts : List Token} (h : ∀ t ∈ ts, t.Read) :
    (ts.map Token.toPart).filterMap Token.ofPart? = ts := by
  induction ts with
  | nil => rfl
  | cons t ts ih =>
    rw [List.map_cons, List.filterMap_cons_some (h t List.mem_cons_self).ofPart?_toPart,
      ih fun u hu => h u (List.mem_cons_of_mem _ hu)]

/-- No part of a token that was read reaches over a separator. -/
theorem semicolon_not_mem_toPart {ts : List Token} (h : ∀ t ∈ ts, t.Read) :
    ∀ p ∈ ts.map Token.toPart, ';' ∉ p := by
  intro p hp
  obtain ⟨t, ht, rfl⟩ := List.mem_map.1 hp
  exact (h t ht).semicolon

/-- **What is looked up depends on the meanings alone.** -/
theorem get?_congr {l l' : TokenList} (h : l.tokens.map Token.meaning = l'.tokens.map Token.meaning)
    (k : Key) : l.get? k = l'.get? k := by
  have hmeaning : ∀ l : TokenList, l.get? k =
      (l.tokens.map Token.meaning).reverse.findSome? fun m =>
        if m.1 = k.chars then m.2 else none := by
    intro l
    rw [← List.map_reverse, List.findSome?_map]
    rfl
  rw [hmeaning, hmeaning, h]

/-! ## Putting together and taking apart -/

/-- The text behind the key of the first token. -/
def afterKey (v : Option (List Char)) (ts : List Token) : List Char :=
  v.elim [] ('=' :: ·) ++ ts.flatMap fun t => ';' :: t.toPart

variable {t : Token} {ts : List Token} {lead k : List Char} {v : Option (List Char)}

theorem joinWith_toPart (k : List Char) (v : Option (List Char)) (ts : List Token) :
    joinWith ';' ((⟨k, v⟩ :: ts).map Token.toPart) = k ++ afterKey v ts := by
  rw [List.map_cons, joinWith_cons_eq, Token.toPart_eq, afterKey, List.append_assoc,
    List.flatMap_map]

/-- Unless the first token is all there is and has no value, a separator follows its key. -/
theorem exists_afterKey (h : v ≠ none ∨ ts ≠ []) :
    ∃ c r, afterKey v ts = c :: r ∧ isSteady c = true ∧ c ∉ rulePrefix := by
  cases v with
  | some v => exact ⟨'=', _, rfl, by decide, by decide⟩
  | none =>
    cases ts with
    | nil => exact absurd rfl (h.resolve_left fun hv => hv rfl)
    | cons u ts => exact ⟨';', _, rfl, by decide, by decide⟩

/-- The tokens as the next reader finds them: a prefix may come to light in the first key. -/
def reread (l : TokenList) : TokenList :=
  match l.tokens with
  | [] => l
  | t :: ts =>
    let c := cutLead (stripLeft (l.lead ++ t.key))
    ⟨c.1, (Token.ofPart? (Token.toPart ⟨c.2, t.value⟩)).toList ++ ts⟩

/-- The first token as the next reader finds it. -/
def rereadHead (lead : List Char) (t : Token) : Token :=
  ⟨(cutLead (stripLeft (lead ++ t.key))).2, t.value⟩

theorem tokens_reread (lead : List Char) (t : Token) (ts : List Token) :
    (reread ⟨lead, t :: ts⟩).tokens =
      (Token.ofPart? (rereadHead lead t).toPart).toList ++ ts := rfl

theorem mem_of_mem_cutLead {c : Char} {s : List Char} (h : c ∈ (cutLead (stripLeft s)).2) :
    c ∈ s := by
  have hcut : c ∈ stripLeft s := by
    rw [← cutLead_append (stripLeft s)]
    exact List.mem_append_right _ h
  exact (List.dropWhile_suffix _).subset hcut

/-- A stripped text ends the first key with a separator, and loses only white space behind it. -/
theorem exists_strip_toText (lead : List Char) (hnamed : strip k ≠ []) (hmore : v ≠ none ∨ ts ≠ []) :
    ∃ c r back, isSteady c = true ∧ c ∉ rulePrefix ∧ Blank back ∧ c :: r ++ back = afterKey v ts ∧
      strip (toText ⟨lead, ⟨k, v⟩ :: ts⟩) = stripLeft (lead ++ k) ++ c :: r := by
  obtain ⟨c, rest, hafter, hc, hprefix⟩ := exists_afterKey hmore
  obtain ⟨back, hback, hright⟩ := exists_stripRight (afterKey v ts)
  have hkey : ¬Blank (lead ++ k) := fun hb => hnamed (strip_eq_nil_iff.2 (blank_append.1 hb).2)
  have hmark : ¬Blank (afterKey v ts) := by
    intro hb
    have hblank := hb c (hafter ▸ List.mem_cons_self)
    rw [isBlank_of_isSteady hc] at hblank
    cases hblank
  obtain ⟨d, r, hd⟩ := List.exists_cons_of_ne_nil (mt stripRight_eq_nil_iff.1 hmark)
  obtain rfl : d = c := by
    rw [hd, hafter] at hright
    exact (List.cons.inj hright).1
  refine ⟨d, r, back, hc, hprefix, hback, hd ▸ hright, ?_⟩
  rw [toText, joinWith_toPart, ← List.append_assoc, strip_append hkey hmark, hd]

theorem equals_not_mem_rereadHead (hlead : '=' ∉ lead) (ht : t.Read) :
    '=' ∉ (rereadHead lead t).key := by
  intro hm
  rcases List.mem_append.1 (mem_of_mem_cutLead hm) with hm | hm
  · exact hlead hm
  · exact ht.equals hm

/-- No part of the reread tokens reaches over a separator. -/
theorem semicolon_not_mem_reread (hread : ∀ u ∈ t :: ts, u.Read) (hlead : ';' ∉ lead) :
    ∀ p ∈ (rereadHead lead t).toPart :: ts.map Token.toPart, ';' ∉ p := by
  intro p hp
  rcases List.mem_cons.1 hp with rfl | hp
  · obtain ⟨hkey, hvalue⟩ := (Token.not_mem_toPart_iff (by decide)).1 (hread t List.mem_cons_self).semicolon
    refine (Token.not_mem_toPart_iff (by decide)).2 ⟨fun hm => ?_, hvalue⟩
    exact (List.mem_append.1 (mem_of_mem_cutLead hm)).elim hlead hkey
  · exact semicolon_not_mem_toPart (fun u hu => hread u (List.mem_cons_of_mem t hu)) p hp

theorem filterMap_ofPart?_cons (p : List Char) (ps : List (List Char)) :
    (p :: ps).filterMap Token.ofPart? =
      (Token.ofPart? p).toList ++ ps.filterMap Token.ofPart? := by
  rw [List.filterMap_cons]
  cases Token.ofPart? p with
  | none => rfl
  | some u => rfl

/-- The parts that the next reader finds are the tokens as they are reread, written out.  White space
behind the last one is lost. -/
theorem exists_splitOn_toText (hread : ∀ u ∈ t :: ts, u.Read) (hlead : ';' ∉ lead)
    (hmore : t.value ≠ none ∨ ts ≠ []) :
    ∃ ps p back, Blank back ∧
      splitOn ';' (cutLead (strip (toText ⟨lead, t :: ts⟩))).2 = ps ++ [p] ∧
      (rereadHead lead t).toPart :: ts.map Token.toPart = ps ++ [p ++ back] := by
  obtain ⟨c, r, back, hc, hprefix, hback, hafter, htext⟩ :=
    exists_strip_toText lead (hread t List.mem_cons_self).named hmore
  -- Behind the prefix stands the first key as it is reread, and then what stood behind it before.
  have hcut := cutLead_append_cons hc hprefix (stripLeft (lead ++ t.key)) r
  obtain ⟨ps, p, hps, hpsback⟩ :=
    exists_splitOn_back ';' ((cutLead (stripLeft (lead ++ t.key))).2 ++ c :: r)
  refine ⟨ps, p, back, hback, ?_, ?_⟩
  · rw [htext, hcut]
    exact hps
  · rw [← hpsback back (not_mem_of_blank (by decide) hback),
      ← splitOn_joinWith (List.cons_ne_nil _ _) (semicolon_not_mem_reread hread hlead),
      ← List.map_cons, rereadHead, joinWith_toPart, ← hafter, List.append_assoc]

/-- **Taking apart what was put together** gives the tokens as they are reread, up to white space. -/
theorem meaning_ofText_toText (hread : ∀ u ∈ t :: ts, u.Read) (hlead : ';' ∉ lead)
    (hmore : t.value ≠ none ∨ ts ≠ []) :
    (ofText (toText ⟨lead, t :: ts⟩)).tokens.map Token.meaning =
      (reread ⟨lead, t :: ts⟩).tokens.map Token.meaning := by
  obtain ⟨ps, p, back, hback, hsplit, hparts⟩ := exists_splitOn_toText hread hlead hmore
  have hsame : (ps ++ [p]).map strip = (ps ++ [p ++ back]).map strip := by
    rw [List.map_append, List.map_append, List.map_singleton, List.map_singleton,
      strip_append_blank hback]
  have htokens := meanings_congr hsame
  rw [← hparts, filterMap_ofPart?_cons,
    filterMap_ofPart?_toPart fun u hu => hread u (List.mem_cons_of_mem t hu)] at htokens
  rw [ofText, hsplit]
  exact htokens

end TokenList

end Recurrence
