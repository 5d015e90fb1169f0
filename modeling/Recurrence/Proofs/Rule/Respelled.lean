import Mathlib.Data.List.Nodup
import Recurrence.Proofs.Rule.Rewritten

/-!
# The same tokens in another text

What is looked up in a text does not depend on the order of its tokens if no two of them have the same
name (`TokenList.get?_of_perm`).  It does not depend on how the names are spelled, nor on the white space
around names and values (`Token.Respelled`), and parts that name none of the keys are not looked at
(`Token.Idle`).

Another spelling of a name has no separator in it, as upper-casing does not bring one about, so the parts
come back as they were joined; and what is stripped behind the text is white space behind its last part
(`TokenList.meaning_ofText_joinWith`).  So a text may be written anew in any order and spelling, and it has
the same rule (`Rule.decode?_respelled`).
-/

namespace Recurrence

open Text

/-! ## Spelling -/

namespace Token

variable {t u : Token} {p : List Char} {ts us : List Token}

/-- The token with its name in another spelling, and with white space around its value. -/
structure Respelled (t u : Token) : Prop where
  name : u.name = t.name
  value : ∃ front back, Blank front ∧ Blank back ∧ u.value = t.value.map fun v => front ++ (v ++ back)

/-- A part of a text that is no token of one of the keys. -/
structure Idle (p : List Char) : Prop where
  semicolon : ';' ∉ p
  noKey : ∀ t, ofPart? p = some t → ∀ k : Key, t.name ≠ k.chars

theorem Idle.of_blank (h : Blank p) : Idle p := by
  refine ⟨not_mem_of_blank (by decide) h, fun t ht => ?_⟩
  have hkey : '=' ∉ p := not_mem_of_blank (by decide) h
  have hnone : ofPart? p = none := by
    have hpart := ofPart?_toPart_of_not_mem hkey none
    rwa [if_pos (strip_eq_nil_iff.2 h)] at hpart
  rw [hnone] at ht
  cases ht

theorem Idle.of_name (hequals : '=' ∉ t.key) (hsemicolon : ';' ∉ t.toPart)
    (hname : ∀ k : Key, t.name ≠ k.chars) : Idle t.toPart := by
  refine ⟨hsemicolon, fun u hu => ?_⟩
  have hpart := ofPart?_toPart_of_not_mem hequals t.value
  rw [hpart] at hu
  split at hu
  · cases hu
  · obtain rfl := Option.some.inj hu
    exact hname

/-- What comes before the letters stands in a key exactly if it stands in its name. -/
theorem mem_name_iff {c : Char} (hc : isSteady c = true) (hletter : c.toNat < 65) :
    c ∈ t.name ↔ c ∈ t.key := by
  have hblank := isBlank_of_isSteady hc
  constructor
  · intro h
    exact (mem_strip_iff hblank).1 (mem_of_mem_upper h hletter)
  · intro h
    exact mem_upper_of_isSteady hc ((mem_strip_iff hblank).2 h)

theorem name_eq_nil_iff : t.name = [] ↔ strip t.key = [] := upper_eq_nil_iff

/-- Neither a spelling nor white space brings a separator about. -/
theorem Respelled.read (h : Respelled t u) (ht : t.Read) : u.Read := by
  have hkey {c : Char} (hc : isSteady c = true) (hletter : c.toNat < 65) : c ∈ u.key ↔ c ∈ t.key := by
    rw [← mem_name_iff hc hletter, h.name, mem_name_iff hc hletter]
  obtain ⟨hsemicolon, hv⟩ := (not_mem_toPart_iff (by decide)).1 ht.semicolon
  obtain ⟨front, back, hfront, hback, hvalue⟩ := h.value
  refine ⟨?_, ?_, (not_mem_toPart_iff (by decide)).2 ⟨?_, ?_⟩⟩
  · rw [ne_eq, ← name_eq_nil_iff, h.name, name_eq_nil_iff]
    exact ht.named
  · rw [hkey (by decide) (by decide)]
    exact ht.equals
  · rw [hkey (by decide) (by decide)]
    exact hsemicolon
  · rw [hvalue]
    intro w hw
    obtain ⟨v, hmem, rfl⟩ := Option.map_eq_some_iff.1 hw
    have hblank {s : List Char} (hs : Blank s) : ';' ∉ s := not_mem_of_blank (by decide) hs
    simp [hv v hmem, hblank hfront, hblank hback]

theorem Respelled.meaning_eq (h : Respelled t u) : u.meaning = t.meaning := by
  obtain ⟨front, back, hfront, hback, hvalue⟩ := h.value
  have hstrip : (strip ∘ fun v => front ++ (v ++ back)) = strip := by
    funext v
    exact (strip_blank_append hfront _).trans (strip_append_blank hback v)
  rw [meaning, meaning, h.name, hvalue, Option.map_map, hstrip]

theorem read_of_respelled (h : List.Forall₂ Respelled ts us) (hts : ∀ t ∈ ts, t.Read) :
    ∀ u ∈ us, u.Read := by
  induction h with
  | nil => exact nofun
  | cons htu _ ih =>
    intro u hu
    rcases List.mem_cons.1 hu with rfl | hu
    · exact htu.read (hts _ List.mem_cons_self)
    · exact ih (fun t ht => hts t (List.mem_cons_of_mem _ ht)) u hu

theorem meanings_of_respelled (h : List.Forall₂ Respelled ts us) : us.map meaning = ts.map meaning := by
  induction h with
  | nil => rfl
  | cons htu _ ih => rw [List.map_cons, List.map_cons, htu.meaning_eq, ih]

end Token

namespace TokenList

open Token

variable {l l' : TokenList} {ts us : List Token} {parts fillers : List (List Char)} {body : List Char}

/-! ## Putting together and taking apart -/

/-- A text behind the prefix loses only white space at its end. -/
theorem exists_strip_rulePrefix (body : List Char) : ∃ rest back, Blank back ∧ rest ++ back = body ∧
    strip (rulePrefix ++ body) = rulePrefix ++ rest := by
  have hsteady : Steady rulePrefix := by decide
  have hprefix : ¬Blank rulePrefix := fun hb => absurd (hb 'R' (by decide)) (by decide)
  have hleft : strip (rulePrefix ++ body) = stripRight (rulePrefix ++ body) := by
    rw [strip, stripLeft_append hprefix, stripLeft_of_steady hsteady]
  by_cases hbody : Blank body
  · refine ⟨[], body, hbody, rfl, ?_⟩
    rw [strip_append_blank hbody, strip_of_steady hsteady, List.append_nil]
  · obtain ⟨back, hback, hright⟩ := exists_stripRight body
    exact ⟨stripRight body, back, hback, hright, hleft.trans (stripRight_append hbody)⟩

theorem splitOn_joinWith_filterMap (h : ∀ p ∈ parts, ';' ∉ p) :
    (splitOn ';' (joinWith ';' parts)).filterMap ofPart? = parts.filterMap ofPart? := by
  cases parts with
  | nil => rfl
  | cons p parts => rw [splitOn_joinWith (List.cons_ne_nil p parts) h]

/-- **The parts come back as they were joined**, up to white space. -/
theorem meaning_ofText_joinWith (h : ∀ p ∈ parts, ';' ∉ p) :
    (ofText (rulePrefix ++ joinWith ';' parts)).tokens.map meaning =
      (parts.filterMap ofPart?).map meaning := by
  obtain ⟨rest, back, hback, hbody, hstrip⟩ := exists_strip_rulePrefix (joinWith ';' parts)
  obtain ⟨ps, p, hps, hsplit⟩ := exists_splitOn_back ';' rest
  have hjoined := hsplit back (not_mem_of_blank (by decide) hback)
  rw [hbody] at hjoined
  have hsame : (ps ++ [p]).map strip = (ps ++ [p ++ back]).map strip := by
    rw [List.map_append, List.map_append, List.map_singleton, List.map_singleton,
      strip_append_blank hback]
  rw [← splitOn_joinWith_filterMap h, hjoined, ← meanings_congr hsame, ← hps, ofText, hstrip,
    cutLead_rulePrefix]

/-! ## Looking up -/

theorem findSome?_ite {α β : Type} (p : α → Prop) [DecidablePred p] (f : α → Option β) (l : List α) :
    (l.findSome? fun a => if p a then f a else none) = (l.filter p).findSome? f := by
  induction l with
  | nil => rfl
  | cons a l ih =>
    by_cases ha : p a
    · simp [List.findSome?_cons, ha, ih]
    · simp [ha, ih]

/-- A list of at most one element has no other order. -/
theorem eq_of_perm_of_length_le_one {α : Type} {l l' : List α} (h : l'.Perm l) (hone : l.length ≤ 1) :
    l' = l := by
  match l with
  | [] => exact List.perm_nil.1 h
  | [a] => exact List.perm_singleton.1 h
  | a :: b :: l => exact absurd hone (by simp)

/-- What is looked up depends on the meanings of one name. -/
theorem get?_eq_findSome? (l : TokenList) (k : Key) : l.get? k =
    ((l.tokens.map meaning).filter fun m => m.1 = k.chars).reverse.findSome? Prod.snd := by
  rw [← List.filter_reverse, ← findSome?_ite, ← List.map_reverse, List.findSome?_map]
  rfl

/-- **The order of the tokens does not matter** to what is looked up if no two of them have the same name,
and neither do tokens of other names. -/
theorem get?_of_perm {idle : List (List Char × Option (List Char))} {k : Key}
    (hnames : (l.tokens.map Token.name).Nodup)
    (hperm : (l'.tokens.map meaning).Perm (l.tokens.map meaning ++ idle))
    (hidle : ∀ m ∈ idle, m.1 ≠ k.chars) : l'.get? k = l.get? k := by
  have hnone : (idle.filter fun m => m.1 = k.chars) = [] := by
    apply List.filter_eq_nil_iff.2
    intro m hm
    simpa using hidle m hm
  have hfilter := hperm.filter fun m => m.1 = k.chars
  rw [List.filter_append, hnone, List.append_nil] at hfilter
  have hone : ((l.tokens.map meaning).filter fun m => m.1 = k.chars).length ≤ 1 := by
    have hcount := List.nodup_iff_count_le_one.1 hnames k.chars
    rw [List.count, List.countP_map] at hcount
    rw [← List.countP_eq_length_filter, List.countP_map]
    refine Nat.le_trans (Nat.le_of_eq (List.countP_congr fun t _ => ?_)) hcount
    exact decide_eq_true_iff.trans beq_iff_eq.symm
  rw [get?_eq_findSome?, get?_eq_findSome?, eq_of_perm_of_length_le_one hfilter hone]

end TokenList

/-! ## Rules -/

namespace Rule

open TokenList

/-- What is looked up gives the rule. -/
theorem decode?_congr {r s : String}
    (h : ∀ k, (ofText s.toList).get? k = (ofText r.toList).get? k) : decode? s = decode? r := by
  rw [decode?_eq, decode?_eq, frequency?, frequency?, h .freq]
  refine congrArg (Option.map · _) (funext fun f => ?_)
  have hvalue := value_readRule (fun k _ => h k) f
  rw [readEnding_congr h] at hvalue
  exact hvalue.trans (withEnding_of_ending (ending_readRule _ f))

/-- **A text may be written anew without changing its rule.**  If no two of its tokens have the same name,
they may be put in any order behind the prefix, with their names in any spelling, with white space around
names and values, and with parts between them that name none of the keys. -/
theorem decode?_respelled {r : String} {tokens : List Token} {fillers parts : List (List Char)}
    (hnames : ((ofText r.toList).tokens.map Token.name).Nodup)
    (hrespelled : List.Forall₂ Token.Respelled (ofText r.toList).tokens tokens)
    (hidle : ∀ p ∈ fillers, Token.Idle p)
    (hparts : parts.Perm (tokens.map Token.toPart ++ fillers)) :
    decode? (String.ofList (rulePrefix ++ joinWith ';' parts)) = decode? r := by
  have hread := Token.read_of_respelled hrespelled (read_ofText _)
  have hsemicolon : ∀ p ∈ parts, ';' ∉ p := by
    intro p hp
    rcases List.mem_append.1 (hparts.mem_iff.1 hp) with hp | hp
    · obtain ⟨t, ht, rfl⟩ := List.mem_map.1 hp
      exact (hread t ht).semicolon
    · exact (hidle p hp).semicolon
  have hmeanings := (hparts.filterMap Token.ofPart?).map Token.meaning
  rw [List.filterMap_append, filterMap_ofPart?_toPart hread, List.map_append,
    Token.meanings_of_respelled hrespelled, ← meaning_ofText_joinWith hsemicolon] at hmeanings
  refine decode?_congr fun k => ?_
  rw [String.toList_ofList]
  refine get?_of_perm hnames hmeanings fun m hm => ?_
  obtain ⟨t, ht, rfl⟩ := List.mem_map.1 hm
  obtain ⟨p, hp, hpart⟩ := List.mem_filterMap.1 ht
  exact (hidle p hp).noKey t hpart k

/-- Every other week on Mondays and Wednesdays. -/
def otherWeeks : String := "Freq=weekly;INTERVAL=2; byday =mo,we"

/-- The tokens of that text, once more; a dotless i has the capital of an i. -/
def otherWeeksRespelled : List Token :=
  [⟨" FREQ".toList, some " weekly ".toList⟩, ⟨"ınterval".toList, some "2".toList⟩,
    ⟨"BYDAY".toList, some "mo,we ".toList⟩]

/-- An empty part, a token of an unknown name and one without a name. -/
def otherWeeksFillers : List (List Char) :=
  [[], Token.toPart ⟨"colour".toList, some "blue=green".toList⟩, Token.toPart ⟨[], some "5".toList⟩]

theorem decode?_respelled_otherWeeks :
    decode? "RRULE:;BYDAY=mo,we ;colour=blue=green;ınterval=2; FREQ= weekly ;=5" = decode? otherWeeks ∧
      decode? otherWeeks =
        some ⟨.weekly (some ⟨[.monday, .wednesday], by decide, by decide⟩), ⟨2, by decide⟩, .never⟩ := by
  have hblank : Blank [' '] := List.forall_mem_singleton.2 rfl
  have hnil : Blank [] := nofun
  have hrespelled : List.Forall₂ Token.Respelled (ofText otherWeeks.toList).tokens otherWeeksRespelled :=
    .cons ⟨by decide +kernel, [' '], [' '], hblank, hblank, by decide +kernel⟩ <|
      .cons ⟨by decide +kernel, [], [], hnil, hnil, by decide +kernel⟩ <|
        .cons ⟨by decide +kernel, [], [' '], hnil, hblank, by decide +kernel⟩ .nil
  have hidle : ∀ p ∈ otherWeeksFillers, Token.Idle p := by
    intro p hp
    rcases List.mem_cons.1 hp with rfl | hp
    · exact .of_blank nofun
    rcases List.mem_cons.1 hp with rfl | hp
    · exact .of_name (by decide) (by decide) fun k => by cases k <;> decide +kernel
    obtain rfl := List.mem_singleton.1 hp
    exact .of_name (by decide) (by decide) fun k => by cases k <;> decide +kernel
  have hparts : List.Perm ["".toList, "BYDAY=mo,we ".toList, "colour=blue=green".toList,
      "ınterval=2".toList, " FREQ= weekly ".toList, "=5".toList]
      (otherWeeksRespelled.map Token.toPart ++ otherWeeksFillers) := by
    decide +kernel
  have hsame := decode?_respelled (r := otherWeeks) (by decide +kernel) hrespelled hidle hparts
  exact ⟨hsame, by decide +kernel⟩

end Rule

end Recurrence
