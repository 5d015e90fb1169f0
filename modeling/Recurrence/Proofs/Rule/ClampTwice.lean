import Recurrence.Proofs.Rule.Clamped

/-!
# Clamping twice

Tokens that have been clamped are `TokenList.Clamped`: no count is among them, and one last second,
which is the new one.  Clamping leaves such tokens alone (`TokenList.Clamped.clampTokens_eq`).

A clamped text need not stay as it is all the same, since it is taken apart anew.  White space that comes
to stand at its ends, where a blank part or an ending was dropped, is stripped.  And a token may come to
light behind a prefix in the first key (`TokenList.hidden?`), which is dropped if it is an ending or has
a blank key.  If it is not, the tokens are clamped ones again (`TokenList.KeepsHidden.clamped_ofText`),
and the second text is the first one stripped; if it is, the second text has fewer parts
(`TokenList.keepsHidden_of_clampAt`).  `Rule.clampUntil_twice_iff` says which texts stay as they are.
-/

namespace Recurrence

open Text

/-- White space behind a text that ends in steady characters is empty. -/
theorem Text.eq_nil_of_append_eq {s back front w : List Char} (hback : Blank back) (hw : Steady w)
    (hne : w ≠ []) (h : s ++ back = front ++ w) : back = [] := by
  have hboth : ∀ c, c ∈ back → c ∈ w → False := by
    intro c hc hcw
    have hblank := hback c hc
    rw [isBlank_of_isSteady (hw c hcw)] at hblank
    cases hblank
  rcases List.append_eq_append_iff.1 h with ⟨m, -, hm⟩ | ⟨m, -, hm⟩
  · obtain ⟨c, r, hcons⟩ := List.exists_cons_of_ne_nil hne
    have hc : c ∈ w := hcons ▸ List.mem_cons_self
    exact absurd hc fun hcw => hboth c (hm ▸ List.mem_append_right m hcw) hcw
  · refine List.eq_nil_iff_forall_not_mem.2 fun c hc => ?_
    exact hboth c hc (hm ▸ List.mem_append_right m hc)

/-- Whether a token is a count or a last second. -/
def Token.isEnding (t : Token) : Bool :=
  t.name == Key.count.chars || t.name == Key.untilTime.chars

theorem Token.isEnding_eq_false_iff {t : Token} :
    t.isEnding = false ↔ t.name ≠ Key.count.chars ∧ t.name ≠ Key.untilTime.chars := by
  rw [isEnding, Bool.or_eq_false_iff, beq_eq_false_iff_ne, beq_eq_false_iff_ne]

/-- White space behind the part of a token goes with its value, and is not there if the value is steady. -/
theorem Token.Read.exists_ofPart? {t : Token} {p back : List Char} (ht : t.Read) (hback : Blank back)
    (hp : t.toPart = p ++ back) :
    ∃ t', ofPart? p = some t' ∧ t'.name = t.name ∧
      ∀ w, Steady w → t.value = some w → t'.value = some w := by
  have hmeaning := meaning_ofPart?_append_blank hback p
  rw [← hp, ht.ofPart?_toPart, Option.map_some] at hmeaning
  obtain ⟨t', ht', hsame⟩ := Option.map_eq_some_iff.1 hmeaning.symm
  refine ⟨t', ht', congrArg Prod.fst hsame, fun w hw hvalue => ?_⟩
  have hsteady : Steady ('=' :: w) := steady_cons (by decide) hw
  have hpart : p ++ back = t.key ++ '=' :: w := by
    rw [← hp, toPart_eq, hvalue]
    rfl
  have hnil : back = [] := eq_nil_of_append_eq hback hsteady (List.cons_ne_nil _ _) hpart
  rw [hnil, List.append_nil] at hp
  rw [← hp, ht.ofPart?_toPart] at ht'
  rw [← Option.some.inj ht', hvalue]

namespace TokenList

variable {value lead s : List Char} {written : Bool} {t u : Token} {ts us : List Token}

/-! ## Clamped tokens -/

/-- Tokens without a count and with one last second, which is `value`; with none, where `written` says
that it stands already. -/
inductive Clamped (value : List Char) : (written : Bool) → List Token → Prop
  | nil : Clamped value true []
  | last {t : Token} {ts : List Token} : t.name = Key.untilTime.chars → t.value = some value →
      Clamped value true ts → Clamped value false (t :: ts)
  | other {written : Bool} {t : Token} {ts : List Token} : t.isEnding = false →
      Clamped value written ts → Clamped value written (t :: ts)

theorem clamped_clampTokens (value : List Char) (written : Bool) (ts : List Token) :
    Clamped value written (clampTokens value written ts) := by
  induction written, ts using clampTokens_induction with
  | unwritten => exact .last (Key.name_token _ _) rfl .nil
  | done => exact .nil
  | count written t ts hcount ih =>
    rw [clampTokens_count hcount]
    exact ih
  | last t ts huntil ih =>
    rw [clampTokens_until huntil]
    exact .last huntil rfl ih
  | again t ts huntil ih =>
    rw [clampTokens_until_again huntil]
    exact ih
  | other written t ts hcount huntil ih =>
    rw [clampTokens_other hcount huntil]
    exact .other (Token.isEnding_eq_false_iff.2 ⟨hcount, huntil⟩) ih

/-- **Clamping leaves clamped tokens alone.** -/
theorem Clamped.clampTokens_eq (h : Clamped value written ts) :
    clampTokens value written ts = ts := by
  induction h with
  | nil => rfl
  | last huntil hvalue _ ih => rw [clampTokens_until huntil, ih, ← hvalue]
  | other hother _ ih =>
    obtain ⟨hcount, huntil⟩ := Token.isEnding_eq_false_iff.1 hother
    rw [clampTokens_other hcount huntil, ih]

theorem Clamped.clampAt_eq {l : TokenList} {last : Instant}
    (h : Clamped last.compactChars false l.tokens) : l.clampAt last = l := by
  rw [clampAt, h.clampTokens_eq]

/-- Clamping keeps the tokens that are no ending, and puts one last second among them. -/
theorem length_clampTokens (value : List Char) (written : Bool) (ts : List Token) :
    (clampTokens value written ts).length =
      ts.countP (fun t => !t.isEnding) + if written then 0 else 1 := by
  induction written, ts using clampTokens_induction with
  | unwritten => rfl
  | done => rfl
  | count written t ts hcount ih =>
    have ht : t.isEnding = true := by simp [Token.isEnding, hcount]
    rw [clampTokens_count hcount, ih, List.countP_cons_of_neg (by simp [ht])]
  | last t ts huntil ih =>
    have ht : t.isEnding = true := by simp [Token.isEnding, huntil]
    rw [clampTokens_until huntil, List.length_cons, ih, List.countP_cons_of_neg (by simp [ht])]
    rfl
  | again t ts huntil ih =>
    have ht : t.isEnding = true := by simp [Token.isEnding, huntil]
    rw [clampTokens_until_again huntil, ih, List.countP_cons_of_neg (by simp [ht])]
  | other written t ts hcount huntil ih =>
    have ht : t.isEnding = false := Token.isEnding_eq_false_iff.2 ⟨hcount, huntil⟩
    rw [clampTokens_other hcount huntil, List.length_cons, ih,
      List.countP_cons_of_pos (by simp [ht]), Nat.add_right_comm]

theorem Clamped.length_eq (h : Clamped value false ts) :
    ts.length = ts.countP (fun t => !t.isEnding) + 1 := by
  have hlength := length_clampTokens value false ts
  rwa [h.clampTokens_eq] at hlength

theorem mem_clampTokens (hu : u.isEnding = false) (h : u ∈ ts) :
    u ∈ clampTokens value written ts := by
  obtain ⟨hucount, huuntil⟩ := Token.isEnding_eq_false_iff.1 hu
  induction written, ts using clampTokens_induction with
  | unwritten => exact absurd h List.not_mem_nil
  | done => exact absurd h List.not_mem_nil
  | count written t ts hcount ih =>
    rw [clampTokens_count hcount]
    exact ih (List.mem_of_ne_of_mem (fun he => hucount (he ▸ hcount)) h)
  | last t ts huntil ih =>
    rw [clampTokens_until huntil]
    exact List.mem_cons_of_mem _ (ih (List.mem_of_ne_of_mem (fun he => huuntil (he ▸ huntil)) h))
  | again t ts huntil ih =>
    rw [clampTokens_until_again huntil]
    exact ih (List.mem_of_ne_of_mem (fun he => huuntil (he ▸ huntil)) h)
  | other written t ts hcount huntil ih =>
    rw [clampTokens_other hcount huntil]
    rcases List.mem_cons.1 h with rfl | h
    · exact List.mem_cons_self
    · exact List.mem_cons_of_mem t (ih h)

/-! ### Tokens that differ in their spelling -/

theorem Clamped.tail (h : Clamped value written (t :: ts)) (ht : t.isEnding = false) :
    Clamped value written ts := by
  cases h with
  | last huntil _ _ => exact absurd huntil (Token.isEnding_eq_false_iff.1 ht).2
  | other _ hts => exact hts

theorem Clamped.cons_congr (h : Clamped value written (t :: ts)) (hname : u.name = t.name)
    (hvalue : t.value = some value → u.value = some value) : Clamped value written (u :: ts) := by
  cases h with
  | last huntil hv hts => exact .last (hname.trans huntil) (hvalue hv) hts
  | other ht hts =>
    refine .other ?_ hts
    rwa [Token.isEnding, hname]

theorem Clamped.concat_congr (h : Clamped value written (ts ++ [t])) (hname : u.name = t.name)
    (hvalue : t.value = some value → u.value = some value) : Clamped value written (ts ++ [u]) := by
  induction ts generalizing written with
  | nil => exact h.cons_congr hname hvalue
  | cons v ts ih =>
    cases h with
    | last huntil hv hts => exact .last huntil hv (ih hts)
    | other hv hts => exact .other hv (ih hts)

/-! ## The text of clamped tokens, taken apart anew -/

/-- Whether the token that comes to light, if one does, is kept by clamping: it is named, and no
ending. -/
def KeepsHidden (l : TokenList) : Prop :=
  ∀ t ∈ l.hidden?, strip t.key ≠ [] ∧ t.isEnding = false

instance (l : TokenList) : Decidable l.KeepsHidden :=
  inferInstanceAs (Decidable (∀ t ∈ l.hidden?, strip t.key ≠ [] ∧ t.isEnding = false))

/-- Where clamping keeps what comes to light, the reread tokens are clamped ones. -/
theorem KeepsHidden.clamped (h : (ofText s).KeepsHidden) (hu : u.Read)
    (hclamp : clampTokens value false (ofText s).tokens = u :: us) :
    strip (rereadHead (ofText s).lead u).key ≠ [] ∧
      Clamped value false (rereadHead (ofText s).lead u :: us) := by
  have hclamped : Clamped value false (u :: us) := hclamp ▸ clamped_clampTokens _ _ _
  rcases rereadHead_cases hclamp with ⟨-, hkey⟩ | ⟨hhidden, hother⟩
  · exact ⟨fun hnil => hu.named (hkey.symm.trans hnil), hclamped.cons_congr (congrArg upper hkey) id⟩
  · obtain ⟨hnamed, hkept⟩ := h _ hhidden
    have hu' : u.isEnding = false := Token.isEnding_eq_false_iff.2 ⟨hother _, hother _⟩
    exact ⟨hnamed, .other hkept (hclamped.tail hu')⟩

/-- The tokens of a text that was put together are the reread ones, but for white space behind the last
of them; and written out they are the text again, stripped. -/
theorem exists_tokens_ofText_toText (hread : ∀ t ∈ u :: us, t.Read) (hsemicolon : ';' ∉ lead)
    (hequals : '=' ∉ lead) (hmore : u.value ≠ none ∨ us ≠ [])
    (hnamed : strip (rereadHead lead u).key ≠ []) :
    ∃ ts t t', rereadHead lead u :: us = ts ++ [t] ∧
      (ofText (toText ⟨lead, u :: us⟩)).tokens = ts ++ [t'] ∧ t'.name = t.name ∧
      (∀ w, Steady w → t.value = some w → t'.value = some w) ∧
      (ofText (toText ⟨lead, u :: us⟩)).toText = strip (toText ⟨lead, u :: us⟩) := by
  obtain ⟨ps, p, back, hback, hsplit, hparts⟩ := exists_splitOn_toText hread hsemicolon hmore
  have hreread : ∀ t ∈ rereadHead lead u :: us, t.Read := by
    have hsemi := semicolon_not_mem_reread hread hsemicolon
    refine List.forall_mem_cons.2 ⟨⟨hnamed, ?_, hsemi _ List.mem_cons_self⟩, ?_⟩
    · exact equals_not_mem_rereadHead hequals (hread u List.mem_cons_self)
    · exact fun t ht => hread t (List.mem_cons_of_mem u ht)
  obtain ⟨ts, rest, hlist, hts, hrest⟩ := List.map_eq_append_iff.1
    (show (rereadHead lead u :: us).map Token.toPart = ps ++ [p ++ back] from hparts)
  obtain ⟨t, rfl, ht⟩ := List.map_eq_singleton_iff.1 hrest
  rw [hlist, List.forall_mem_append, List.forall_mem_singleton] at hreread
  obtain ⟨t', ht', hname, hvalue⟩ := hreread.2.exists_ofPart? hback ht
  have htokens : (ofText (toText ⟨lead, u :: us⟩)).tokens = ts ++ [t'] := by
    rw [ofText, hsplit, List.filterMap_append, ← hts, filterMap_ofPart?_toPart hreread.1,
      List.filterMap_cons_some ht']
    rfl
  refine ⟨ts, t, t', hlist, htokens, hname, hvalue, ?_⟩
  have hwritten : (ts ++ [t']).map Token.toPart = ps ++ [p] := by
    rw [List.map_append, hts, List.map_singleton, Token.toPart_of_ofPart? ht']
  rw [toText, htokens, hwritten, ← hsplit, joinWith_splitOn]
  exact cutLead_append _

/-- **The tokens of a clamped text** are clamped ones again, where clamping keeps what comes to light. -/
theorem KeepsHidden.clamped_ofText (h : (ofText s).KeepsHidden) (last : Instant) :
    Clamped last.compactChars false (ofText ((ofText s).clampAt last).toText).tokens ∧
      (ofText ((ofText s).clampAt last).toText).toText = strip ((ofText s).clampAt last).toText := by
  obtain ⟨u, us, hclamp, hlist, hread, hmore⟩ := exists_clampAt s last
  obtain ⟨hnamed, hclamped⟩ := h.clamped (hread u List.mem_cons_self) hclamp
  obtain ⟨ts, t, t', hreread, htokens, hname, hvalue, htext⟩ :=
    exists_tokens_ofText_toText hread (semicolon_not_mem_lead s) (equals_not_mem_lead s) hmore hnamed
  rw [hlist]
  refine ⟨?_, htext⟩
  rw [htokens]
  rw [hreread] at hclamped
  exact hclamped.concat_congr hname (hvalue _ (writable_compactChars last).1)

theorem KeepsHidden.toText_clampAt (h : (ofText s).KeepsHidden) (last : Instant) :
    ((ofText ((ofText s).clampAt last).toText).clampAt last).toText =
      strip ((ofText s).clampAt last).toText := by
  obtain ⟨hclamped, htext⟩ := h.clamped_ofText last
  rw [hclamped.clampAt_eq, htext]

/-! ## What the second clamping drops -/

/-- The name of the first token as it is reread, unless its key is blank then. -/
theorem names_ofPart?_rereadHead (hlead : '=' ∉ lead) (hu : u.Read) :
    (Token.ofPart? (rereadHead lead u).toPart).toList.map Token.name =
      if strip (rereadHead lead u).key = [] then [] else [(rereadHead lead u).name] := by
  have hpart := Token.ofPart?_toPart_of_not_mem (equals_not_mem_rereadHead hlead hu) u.value
  by_cases hnamed : strip (rereadHead lead u).key = []
  · rw [if_pos hnamed] at hpart ⊢
    exact congrArg (·.toList.map Token.name) hpart
  · rw [if_neg hnamed] at hpart ⊢
    exact congrArg (·.toList.map Token.name) hpart

/-- The names of the tokens of a clamped text. -/
theorem names_ofText_toText (hread : ∀ t ∈ u :: us, t.Read) (hmore : u.value ≠ none ∨ us ≠ []) :
    (ofText (toText ⟨(ofText s).lead, u :: us⟩)).tokens.map Token.name =
      (if strip (rereadHead (ofText s).lead u).key = [] then []
        else [(rereadHead (ofText s).lead u).name]) ++ us.map Token.name := by
  have hmeaning := meaning_ofText_toText hread (semicolon_not_mem_lead s) hmore
  have hnames : ∀ ts : List Token, ts.map Token.name = (ts.map Token.meaning).map Prod.fst := by
    intro ts
    rw [List.map_map]
    rfl
  rw [hnames, hmeaning, ← hnames, tokens_reread, List.map_append,
    names_ofPart?_rereadHead (equals_not_mem_lead s) (hread u List.mem_cons_self)]

theorem hasFrequency_iff {l : TokenList} :
    l.hasFrequency = true ↔ Key.freq.chars ∈ l.tokens.map Token.name := by
  rw [hasFrequency, List.any_eq_true, List.mem_map]
  simp only [beq_iff_eq]

/-- A clamped text has a frequency still. -/
theorem hasFrequency_clampAt (h : (ofText s).hasFrequency = true) (last : Instant) :
    (ofText ((ofText s).clampAt last).toText).hasFrequency = true := by
  obtain ⟨u, us, hclamp, hlist, hread, hmore⟩ := exists_clampAt s last
  obtain ⟨t, ht, hname⟩ := List.mem_map.1 (hasFrequency_iff.1 h)
  have hkept : t.isEnding = false := by
    refine Token.isEnding_eq_false_iff.2 ⟨?_, ?_⟩
    · exact name_ne_of_name hname (by decide)
    · exact name_ne_of_name hname (by decide)
  have hmem : t ∈ u :: us := hclamp ▸ mem_clampTokens hkept ht
  rw [hasFrequency_iff, hlist, names_ofText_toText hread hmore]
  rcases List.mem_cons.1 hmem with rfl | hmem
  · rcases rereadHead_cases hclamp with ⟨-, hkey⟩ | ⟨-, hother⟩
    · have hnamed : strip (rereadHead (ofText s).lead t).key ≠ [] := by
        rw [hkey]
        exact (hread t List.mem_cons_self).named
      have hsame : (rereadHead (ofText s).lead t).name = t.name := congrArg upper hkey
      rw [if_neg hnamed, hsame, hname]
      exact List.mem_append_left _ List.mem_cons_self
    · exact absurd hname (hother .freq)
  · exact List.mem_append_right _ (List.mem_map.2 ⟨t, hmem, hname⟩)

theorem length_splitOn_toText (hread : ∀ t ∈ u :: us, t.Read) (hlead : ';' ∉ lead) :
    (splitOn ';' (toText ⟨lead, u :: us⟩)).length = us.length + 1 := by
  have hparts : toText ⟨lead, u :: us⟩ =
      joinWith ';' ((lead ++ u.toPart) :: us.map Token.toPart) := by
    rw [toText, List.map_cons, joinWith_cons_eq, joinWith_cons_eq, List.append_assoc]
  have hsemicolon : ∀ p ∈ (lead ++ u.toPart) :: us.map Token.toPart, ';' ∉ p := by
    refine List.forall_mem_cons.2 ⟨fun hm => ?_, ?_⟩
    · rcases List.mem_append.1 hm with hm | hm
      · exact hlead hm
      · exact (hread u List.mem_cons_self).semicolon hm
    · exact semicolon_not_mem_toPart fun t ht => hread t (List.mem_cons_of_mem u ht)
  rw [hparts, splitOn_joinWith (List.cons_ne_nil _ _) hsemicolon, List.length_cons, List.length_map]

/-- A clamped text has a part for each token that is no ending, and one for the last second. -/
theorem length_splitOn_clampAt (s : List Char) (last : Instant) :
    (splitOn ';' ((ofText s).clampAt last).toText).length =
      (ofText s).tokens.countP (fun t => !t.isEnding) + 1 := by
  obtain ⟨u, us, hclamp, hlist, hread, -⟩ := exists_clampAt s last
  have hlength := length_clampTokens last.compactChars false (ofText s).tokens
  rw [hclamp] at hlength
  rw [hlist, length_splitOn_toText hread (semicolon_not_mem_lead s)]
  exact hlength

theorem countP_isEnding (ts : List Token) :
    ts.countP (fun t => !t.isEnding) =
      (ts.map Token.name).countP fun n => !(n == Key.count.chars || n == Key.untilTime.chars) := by
  rw [List.countP_map]
  rfl

/-- **A text that stays as it is when it is clamped again** has lost nothing that came to light: it would
have fewer parts. -/
theorem keepsHidden_of_clampAt (last : Instant)
    (h : ((ofText ((ofText s).clampAt last).toText).clampAt last).toText =
      ((ofText s).clampAt last).toText) : (ofText s).KeepsHidden := by
  intro t ht
  obtain ⟨u, us, hclamp, hlist, hread, hmore⟩ := exists_clampAt s last
  rcases rereadHead_cases hclamp with ⟨hnone, -⟩ | ⟨hsome, hother⟩
  · rw [hnone] at ht
    cases ht
  rw [hsome] at ht
  obtain rfl := Option.some.inj ht
  -- The key with the prefix in it is no ending, so the last second is one of the tokens behind it.
  have hu : u.isEnding = false := Token.isEnding_eq_false_iff.2 ⟨hother _, hother _⟩
  have hclamped : Clamped last.compactChars false (u :: us) := hclamp ▸ clamped_clampTokens _ _ _
  have hus : us.length = us.countP (fun t => !t.isEnding) + 1 := (hclamped.tail hu).length_eq
  have hlength := length_splitOn_clampAt ((ofText s).clampAt last).toText last
  rw [h, hlist, length_splitOn_toText hread (semicolon_not_mem_lead s), countP_isEnding,
    names_ofText_toText hread hmore, List.countP_append, ← countP_isEnding us] at hlength
  by_cases hnamed : strip (rereadHead (ofText s).lead u).key = []
  · rw [if_pos hnamed, List.countP_nil] at hlength
    omega
  · refine ⟨hnamed, ?_⟩
    by_contra hending
    rw [Bool.not_eq_false] at hending
    rw [if_neg hnamed, ← List.map_singleton, ← countP_isEnding,
      List.countP_cons_of_neg (by simp [hending]), List.countP_nil] at hlength
    omega

end TokenList

namespace Rule

open TokenList

/-- **Clamping twice.**  A text that is clamped again stays as it is exactly if it has no frequency, or
has no white space at its ends and keeps the token that comes to light, if one does.  If it has white space
there and keeps that token, the white space is stripped. -/
theorem clampUntil_twice_iff (rule : String) {cutoff : Stamp} {c last : Instant}
    (hcutoff : cutoff.utc = .ok c) (hlast : c.shift? (-1000000) = some last) :
    ∃ text, clampUntil rule cutoff = .ok text ∧
      (clampUntil text cutoff = .ok text ↔
        ((ofText rule.toList).hasFrequency = true →
          strip text.toList = text.toList ∧ (ofText rule.toList).KeepsHidden)) ∧
      ((ofText rule.toList).hasFrequency = true → (ofText rule.toList).KeepsHidden →
        clampUntil text cutoff = .ok (String.ofList (strip text.toList))) := by
  by_cases hfreq : (ofText rule.toList).hasFrequency = true
  · refine ⟨_, clampUntil_of_hasFrequency hfreq hcutoff hlast, ?_⟩
    have hagain := hasFrequency_clampAt hfreq last
    rw [← String.toList_ofList (l := ((ofText rule.toList).clampAt last).toText)] at hagain
    rw [clampUntil_of_hasFrequency hagain hcutoff hlast, String.toList_ofList]
    refine ⟨⟨fun h _ => ?_, fun h => ?_⟩, fun _ hkeeps => ?_⟩
    · have htwice := String.ofList_injective (Except.ok.inj h)
      have hkeeps := keepsHidden_of_clampAt last htwice
      rw [hkeeps.toText_clampAt] at htwice
      exact ⟨htwice, hkeeps⟩
    · obtain ⟨hstrip, hkeeps⟩ := h hfreq
      rw [hkeeps.toText_clampAt, hstrip]
    · rw [hkeeps.toText_clampAt]
  · have hsame : clampUntil rule cutoff = .ok rule := if_neg hfreq
    exact ⟨rule, hsame, iff_of_true hsame fun h => absurd h hfreq, fun h => absurd h hfreq⟩

/-- 07:00 on 3 January 2025. -/
def thirdAtSeven : Instant := ⟨(739253 * 24 + 7) * 3600000000, by decide⟩

/-- A text that starts with an empty part, so that what looks like its prefix is none. -/
def shelteredNote : String := ";RRULE:X-NOTE=kept;freq = daily ;Count=9;until;UNTIL=20991231T000000Z; "

/-- The note comes to light and is kept, so the text stays as it is; a count would not be kept. -/
theorem clampUntil_twice_iff_shelteredNote :
    clampUntil shelteredNote (Stamp.ofInstant thirdAtSeven) =
        .ok "RRULE:X-NOTE=kept;freq = daily ;until=20250103T065959Z" ∧
      clampUntil "RRULE:X-NOTE=kept;freq = daily ;until=20250103T065959Z"
        (Stamp.ofInstant thirdAtSeven) =
          .ok "RRULE:X-NOTE=kept;freq = daily ;until=20250103T065959Z" := by
  have hshift : (thirdAtSeven.shift? (-1000000)).isSome = true := by decide +kernel
  obtain ⟨last, hlast⟩ := Option.isSome_iff_exists.1 hshift
  obtain ⟨text, hclamp, htwice, -⟩ :=
    clampUntil_twice_iff shelteredNote (Stamp.utc_ofInstant thirdAtSeven) hlast
  have htext : clampUntil shelteredNote (Stamp.ofInstant thirdAtSeven) =
      .ok "RRULE:X-NOTE=kept;freq = daily ;until=20250103T065959Z" := by
    decide +kernel
  obtain rfl := Except.ok.inj (hclamp.symm.trans htext)
  refine ⟨htext, htwice.2 fun _ => ⟨by decide +kernel, ?_⟩⟩
  decide +kernel

/-- **Clamping twice may change a text again.**  A blank behind a count that is dropped stands at the
front then, and is stripped; a count that comes to light is dropped too. -/
theorem clampUntil_twice_ne :
    (thirdAtSeven.shift? (-1000000)).isSome = true ∧
      (∃ once twice, clampUntil "COUNT=3; FREQ=DAILY" (Stamp.ofInstant thirdAtSeven) = .ok once ∧
        clampUntil once (Stamp.ofInstant thirdAtSeven) = .ok twice ∧ twice ≠ once) ∧
      ∃ once twice, clampUntil ";RRULE:COUNT=3;FREQ=DAILY" (Stamp.ofInstant thirdAtSeven) =
        .ok once ∧ clampUntil once (Stamp.ofInstant thirdAtSeven) = .ok twice ∧ twice ≠ once := by
  refine ⟨by decide +kernel, ⟨" FREQ=DAILY;UNTIL=20250103T065959Z",
    "FREQ=DAILY;UNTIL=20250103T065959Z", ?_, ?_, ?_⟩,
    ⟨"RRULE:COUNT=3;FREQ=DAILY;UNTIL=20250103T065959Z",
      "RRULE:FREQ=DAILY;UNTIL=20250103T065959Z", ?_, ?_, ?_⟩⟩ <;> decide +kernel

end Rule

end Recurrence
