import Recurrence.Proofs.Json.Grammar
import Recurrence.Proofs.Text.Boundary

/-!
# The reader of JSON and its grammar

A text in ASCII that the reader takes is the spelling of a tree (`exists_document_of_read?`), and the
spelling of a tree is read as what it stands for (**`read?_chars`**).  Both are proved part by part: for
strings (`spells_of_readText?`, `readText?_spell`), for numbers (`exists_numeral_of_readNumber?`,
`readNumber?_chars`), and then for values.  From the text to the tree the induction is on the fuel that
all readers share (`readsTrees`), and from the tree to the value it is on the tree.
-/

namespace Recurrence.Json

open Text

/-! ## Strings -/

/-- A text is the spelling of a string, up to its closing quote, that means `cs`. -/
def Spells (high : Option Nat) (s cs r : List Char) : Prop :=
  ∃ ps, s = spell ps ++ '"' :: r ∧ cs = joined high ps

theorem Spells.cons {high high' : Option Nat} {s cs lead r : List Char} (h : Spells high' s cs r)
    (p : Piece) (hp : ∀ ps, joined high (p :: ps) = lead ++ joined high' ps) :
    Spells high (p.chars ++ s) (lead ++ cs) r := by
  obtain ⟨ps, rfl, rfl⟩ := h
  refine ⟨p :: ps, ?_, (hp ps).symm⟩
  rw [spell, spell, List.flatMap_cons, List.append_assoc]

/-- A string that is read is spelled by pieces. -/
theorem spells_of_readText? {high : Option Nat} {s cs r : List Char}
    (hs : ∀ c ∈ s, c.toNat < 128) (h : readText? high s = some (cs, r)) : Spells high s cs r := by
  -- what is read behind a piece is spelled by pieces as well
  have behind {high high' : Option Nat} {s cs r : List Char} (p : Piece) (lead : List Char)
      (ih : ∀ {cs r}, (∀ c ∈ s, c.toNat < 128) → readText? high' s = some (cs, r) →
        Spells high' s cs r)
      (hs : ∀ c ∈ p.chars ++ s, c.toNat < 128)
      (h : (readText? high' s).map (fun t => (lead ++ t.1, t.2)) = some (cs, r))
      (hp : ∀ ps, joined high (p :: ps) = lead ++ joined high' ps) :
      Spells high (p.chars ++ s) cs r := by
    obtain ⟨⟨cs', r'⟩, hread, heq⟩ := Option.map_eq_some_iff.1 h
    cases heq
    exact (ih (fun x hx => hs x (List.mem_append_right _ hx)) hread).cons p hp
  fun_induction readText? high s generalizing cs r with
  | case1 => cases h
  | case2 high rest =>
    cases h
    exact ⟨[], rfl, rfl⟩
  | case3 => cases h
  | case4 a b c d rest n first hn hlow ih =>
    exact behind (.unit a b c d n hn) [pairChar first n] ih hs h fun _ =>
      if_pos (decide_eq_true hlow)
  | case5 a b c d rest n first hn hlow hhigh ih =>
    exact behind (.unit a b c d n hn) ['\ufffd'] ih hs h fun _ =>
      (if_neg (mt of_decide_eq_true hlow)).trans (if_pos (decide_eq_true hhigh))
  | case6 a b c d rest n first hn hlow hhigh ih =>
    exact behind (.unit a b c d n hn) ['\ufffd', unitChar n] ih hs h fun _ =>
      (if_neg (mt of_decide_eq_true hlow)).trans (if_neg (mt of_decide_eq_true hhigh))
  | case7 a b c d rest n hn hhigh ih =>
    refine behind (.unit a b c d n hn) [] ih hs ?_ fun _ => if_pos (decide_eq_true hhigh)
    rw [h]
    rfl
  | case8 a b c d rest n hn hhigh ih =>
    exact behind (.unit a b c d n hn) [unitChar n] ih hs h fun _ =>
      if_neg (mt of_decide_eq_true hhigh)
  | case9 => cases h
  | case10 high c rest hu e he ih =>
    refine behind (.escape c e he) _ ih hs h fun ps => ?_
    cases high <;> rfl
  | case11 => cases h
  | case12 high c rest hquote hu hescape hlarge ih =>
    have hback : c ≠ '\\' := by
      rintro rfl
      cases rest with
      | nil => cases h
      | cons x rest => exact hescape x rest rfl rfl
    have hplain : isOrdinary c = true := by
      have hascii := hs c List.mem_cons_self
      simp only [isOrdinary, Bool.and_eq_true, decide_eq_true_eq, bne_iff_ne, ne_eq]
      exact ⟨⟨⟨Nat.le_of_not_lt hlarge, hascii⟩, hquote⟩, hback⟩
    refine behind (.plain c hplain) _ ih hs h fun ps => ?_
    cases high <;> rfl

/-- The spelling of a string is read as its text. -/
theorem readText?_spell (high : Option Nat) (ps : List Piece) (r : List Char) :
    readText? high (spell ps ++ '"' :: r) = some (joined high ps, r) := by
  induction ps generalizing high with
  | nil => rfl
  | cons p ps ih =>
    rw [spell_cons]
    cases p with
    | plain c hc =>
      simp only [isOrdinary, Bool.and_eq_true, decide_eq_true_eq, bne_iff_ne, ne_eq] at hc
      obtain ⟨⟨⟨hlarge, -⟩, hquote⟩, hback⟩ := hc
      rw [Piece.chars, List.singleton_append, readText?, if_neg (Nat.not_lt.2 hlarge), ih]
      · cases high <;> rfl
      · exact hquote
      · exact fun _ _ _ _ _ h _ => hback h
      · exact fun _ _ h _ => hback h
    | escape c e he =>
      rw [Piece.chars, List.cons_append, List.singleton_append, readText?]
      · simp only [he, ih]
        cases high <;> rfl
      · rintro _ _ _ _ _ rfl
        cases he
    | unit a b c d n hn =>
      show readText? high ('\\' :: 'u' :: a :: b :: c :: d :: (spell ps ++ '"' :: r)) = _
      unfold readText?
      cases high with
      | none =>
        simp only [hn, ih, joined, isHigh, decide_eq_true_eq]
        split <;> rfl
      | some first =>
        simp only [hn, ih, joined, isHigh, isLow, decide_eq_true_eq]
        split
        · rfl
        · split <;> rfl

/-! ## Numbers -/

/-- No digit comes next. -/
def NoDigit (r : List Char) : Prop := ∀ c ∈ r.head?, isAsciiDigit c = false

/-- Nothing comes next that could be a part of a number. -/
def EndsNumber (r : List Char) : Prop :=
  ∀ c ∈ r.head?, isAsciiDigit c = false ∧ c ≠ '.' ∧ c ≠ 'e' ∧ c ≠ 'E'

theorem EndsNumber.noDigit {r : List Char} (h : EndsNumber r) : NoDigit r := fun c hc => (h c hc).1

theorem takeWhile_digits {ds r : List Char} (hds : ds.all isAsciiDigit = true) (hr : NoDigit r) :
    (ds ++ r).takeWhile isAsciiDigit = ds :=
  takeWhile_run (List.all_eq_true.1 hds) hr

theorem dropWhile_digits {ds r : List Char} (hds : ds.all isAsciiDigit = true) (hr : NoDigit r) :
    (ds ++ r).dropWhile isAsciiDigit = r :=
  dropWhile_run (List.all_eq_true.1 hds) hr

theorem eq_fractionChars_of_readFraction? {s ds r : List Char} (h : readFraction? s = some (ds, r)) :
    s = Numeral.fractionChars ds ++ r ∧ ds.all isAsciiDigit = true := by
  unfold readFraction? at h
  split at h
  case h_1 s =>
    dsimp only at h
    split at h
    case isTrue => cases h
    case isFalse hds =>
      cases h
      refine ⟨?_, List.all_takeWhile⟩
      cases hs : s.takeWhile isAsciiDigit with
      | nil => exact absurd hs hds
      | cons d ds =>
        rw [Numeral.fractionChars, ← hs, List.cons_append, List.takeWhile_append_dropWhile]
        exact nofun
  case h_2 =>
    cases h
    exact ⟨rfl, rfl⟩

theorem readFraction?_fractionChars {ds r : List Char} (hds : ds.all isAsciiDigit = true)
    (hr : NoDigit r) (hpoint : ∀ c ∈ r.head?, c ≠ '.') :
    readFraction? (Numeral.fractionChars ds ++ r) = some (ds, r) := by
  cases ds with
  | nil =>
    rw [Numeral.fractionChars, List.nil_append]
    unfold readFraction?
    split
    case h_1 => exact absurd rfl (hpoint _ rfl)
    case h_2 => rfl
  | cons d ds =>
    rw [Numeral.fractionChars]
    · show (if ((d :: ds) ++ r).takeWhile isAsciiDigit = [] then none
        else some (((d :: ds) ++ r).takeWhile isAsciiDigit, ((d :: ds) ++ r).dropWhile isAsciiDigit)) = _
      rw [takeWhile_digits hds hr, dropWhile_digits hds hr]
      rfl
    · exact nofun

theorem append_cutSign (s : List Char) : Exponent.signChars (cutSign s).1 ++ (cutSign s).2 = s := by
  unfold cutSign
  split <;> rfl

theorem cutSign_append (sign : Option Bool) {s : List Char}
    (hs : ∀ c ∈ s.head?, c ≠ '+' ∧ c ≠ '-') :
    cutSign (Exponent.signChars sign ++ s) = (sign, s) := by
  match sign with
  | some false => rfl
  | some true => rfl
  | none =>
    show cutSign s = _
    unfold cutSign
    split
    case h_1 => exact absurd rfl (hs _ rfl).1
    case h_2 => exact absurd rfl (hs _ rfl).2
    case h_3 => rfl

theorem exists_exponent_of_readExponent? {s r : List Char} {v : Option Int}
    (h : readExponent? s = some (v, r)) :
    ∃ e : Option Exponent, s = Numeral.exponentChars e ++ r ∧ v = e.map Exponent.value := by
  cases s with
  | nil =>
    cases h
    exact ⟨none, rfl, rfl⟩
  | cons c s =>
    rw [readExponent?] at h
    split at h
    case isTrue hc =>
      dsimp only at h
      split at h
      case isTrue => cases h
      case isFalse hds =>
        cases h
        refine ⟨some ⟨c, (cutSign s).1, _, hc, hds, List.all_takeWhile⟩, ?_, rfl⟩
        show c :: s = c :: (Exponent.signChars (cutSign s).1 ++ _) ++ _
        rw [List.cons_append, List.append_assoc, List.takeWhile_append_dropWhile, append_cutSign]
    case isFalse =>
      cases h
      exact ⟨none, rfl, rfl⟩

theorem readExponent?_exponentChars (e : Option Exponent) {r : List Char} (hr : EndsNumber r) :
    readExponent? (Numeral.exponentChars e ++ r) = some (e.map Exponent.value, r) := by
  cases e with
  | none =>
    rw [Numeral.exponentChars, List.nil_append]
    cases r with
    | nil => rfl
    | cons c r => exact if_neg (not_or.2 (hr c rfl).2.2)
  | some e =>
    have hsigned : ∀ c ∈ (e.digits ++ r).head?, c ≠ '+' ∧ c ≠ '-' := fun c hc =>
      have hdigit := digit_of_head? e.ascii e.nonempty c hc
      ⟨ne_of_digit hdigit (by decide), ne_of_digit hdigit (by decide)⟩
    have hcut : cutSign (Exponent.signChars e.sign ++ e.digits ++ r) = (e.sign, e.digits ++ r) := by
      rw [List.append_assoc, cutSign_append e.sign hsigned]
    rw [Numeral.exponentChars, Exponent.chars, List.cons_append, readExponent?, if_pos e.isMark, hcut]
    dsimp only
    rw [takeWhile_digits e.ascii hr.noDigit, dropWhile_digits e.ascii hr.noDigit, if_neg e.nonempty]
    rfl

theorem append_cutMinus (s : List Char) : Numeral.signChars (cutMinus s).1 ++ (cutMinus s).2 = s := by
  unfold cutMinus
  split <;> rfl

theorem cutMinus_append (negative : Bool) {s : List Char} (hs : ∀ c ∈ s.head?, c ≠ '-') :
    cutMinus (Numeral.signChars negative ++ s) = (negative, s) := by
  cases negative with
  | true => rfl
  | false =>
    show cutMinus s = _
    unfold cutMinus
    split
    case h_1 => exact absurd rfl (hs _ rfl)
    case h_2 => rfl

theorem readWhole?_eq_some {s ds r : List Char} (h : readWhole? s = some (ds, r)) :
    s = ds ++ r ∧ ds ≠ [] ∧ (ds.head? = some '0' → ds = ['0']) ∧ ds.all isAsciiDigit = true := by
  unfold readWhole? at h
  dsimp only at h
  split at h
  case isTrue => cases h
  case isFalse hds =>
    cases h
    refine ⟨List.takeWhile_append_dropWhile.symm, fun hnil => hds (.inl hnil), fun hzero => ?_,
      List.all_takeWhile⟩
    by_contra hne
    exact hds (.inr ⟨hzero, hne⟩)

theorem readWhole?_append (n : Numeral) {r : List Char} (hr : NoDigit r) :
    readWhole? (n.whole ++ r) = some (n.whole, r) := by
  unfold readWhole?
  rw [takeWhile_digits n.wholeAscii hr, dropWhile_digits n.wholeAscii hr]
  refine if_neg ?_
  rintro (hnil | ⟨hzero, hne⟩)
  · exact n.nonempty hnil
  · exact hne (n.leading hzero)

/-- A number that is read is a numeral. -/
theorem exists_numeral_of_readNumber? {s r : List Char} {v : Value}
    (h : readNumber? s = some (v, r)) : ∃ n : Numeral, s = n.chars ++ r ∧ v = n.value := by
  obtain ⟨⟨whole, s₁⟩, hwhole, h⟩ := Option.bind_eq_some_iff.1 h
  obtain ⟨⟨fraction, s₂⟩, hfraction, h⟩ := Option.bind_eq_some_iff.1 h
  obtain ⟨⟨exponent, s₃⟩, hexponent, heq⟩ := Option.map_eq_some_iff.1 h
  cases heq
  obtain ⟨h₁, hne, hleading, hascii⟩ :
    (cutMinus s).2 = whole ++ s₁ ∧ _ := readWhole?_eq_some hwhole
  obtain ⟨h₂, hfascii⟩ := eq_fractionChars_of_readFraction? hfraction
  obtain ⟨e, h₃, rfl⟩ := exists_exponent_of_readExponent? hexponent
  refine ⟨⟨(cutMinus s).1, whole, fraction, e, hne, hleading, hascii, hfascii⟩, ?_, rfl⟩
  calc s = Numeral.signChars (cutMinus s).1 ++ (cutMinus s).2 := (append_cutMinus s).symm
    _ = _ := by rw [h₁, h₂, h₃]; simp only [Numeral.chars, Numeral.unsignedChars, List.append_assoc]

/-- Behind the digits of a fraction stands an exponent or what follows the number. -/
theorem head?_exponentChars {e : Option Exponent} {r : List Char} (hr : EndsNumber r) :
    ∀ c ∈ (Numeral.exponentChars e ++ r).head?, isAsciiDigit c = false ∧ c ≠ '.' := by
  cases e with
  | none => exact fun c hc => ⟨(hr c hc).1, (hr c hc).2.1⟩
  | some e =>
    rintro _ ⟨⟩
    rcases e.isMark with hmark | hmark
    · rw [hmark]
      decide
    · rw [hmark]
      decide

/-- Behind the digits before the point stands the point, an exponent or what follows the number. -/
theorem noDigit_fractionChars {ds s : List Char} (hs : NoDigit s) :
    NoDigit (Numeral.fractionChars ds ++ s) := by
  cases ds with
  | nil => exact hs
  | cons d ds =>
    rintro _ ⟨⟩
    decide

/-- A numeral is read as its number. -/
theorem readNumber?_chars (n : Numeral) {r : List Char} (hr : EndsNumber r) :
    readNumber? (n.chars ++ r) = some (n.value, r) := by
  have hbehind := head?_exponentChars (e := n.exponent) hr
  have hexponent : NoDigit (Numeral.exponentChars n.exponent ++ r) := fun c hc => (hbehind c hc).1
  have hunsigned : n.unsignedChars ++ r =
      n.whole ++ (Numeral.fractionChars n.fraction ++ (Numeral.exponentChars n.exponent ++ r)) := by
    simp only [Numeral.unsignedChars, List.append_assoc]
  have hcut : cutMinus (n.chars ++ r) = (n.negative, n.unsignedChars ++ r) := by
    rw [Numeral.chars, List.append_assoc, cutMinus_append]
    rw [hunsigned]
    intro c hc
    exact ne_of_digit (digit_of_head? n.wholeAscii n.nonempty c hc) (by decide)
  rw [readNumber?, hcut]
  dsimp only
  rw [hunsigned, readWhole?_append n (noDigit_fractionChars hexponent), Option.bind_some]
  dsimp only
  rw [readFraction?_fractionChars n.fractionAscii hexponent fun c hc => (hbehind c hc).2,
    Option.bind_some]
  dsimp only
  rw [readExponent?_exponentChars n.exponent hr]
  rfl

/-! ## Values -/

/-- All characters are in ASCII. -/
def IsAscii (s : List Char) : Prop := ∀ c ∈ s, c.toNat < 128

theorem isAscii_of_all {s : List Char} (h : s.all (·.toNat < 128) = true) : IsAscii s :=
  fun c hc => of_decide_eq_true (List.all_eq_true.1 h c hc)

theorem IsAscii.right {s r : List Char} (h : IsAscii (s ++ r)) : IsAscii r :=
  fun c hc => h c (List.mem_append_right s hc)

theorem IsAscii.tail {c : Char} {s : List Char} (h : IsAscii (c :: s)) : IsAscii s :=
  fun d hd => h d (List.mem_cons_of_mem c hd)

theorem exists_gap (s : List Char) : ∃ g : Gap, s = g.chars ++ skipSpace s :=
  ⟨⟨s.takeWhile isSpace, List.all_eq_true.1 List.all_takeWhile⟩,
    List.takeWhile_append_dropWhile.symm⟩

/-- Two gaps without a sign between them. -/
def Gap.append (g g' : Gap) : Gap where
  chars := g.chars ++ g'.chars
  blank c hc := (List.mem_append.1 hc).elim (g.blank c) (g'.blank c)

/-- A text begins with the spelling of a tree for a value. -/
def SpellsValue (s : List Char) (v : Value) (r : List Char) : Prop :=
  ∃ (g : Gap) (t : Tree), s = g.chars ++ (t.chars Gap.chars ++ r) ∧ Interpretation.json.ofTree t = v

def SpellsItems (s : List Char) (vs : List Value) (r : List Char) : Prop :=
  ∃ (g : Gap) (items : Items), s = g.chars ++ (items.chars Gap.chars ++ r) ∧
    Interpretation.json.ofItems items = vs

def SpellsMembers (entries : List (Value × Value)) (s : List Char) (es : List (Value × Value))
    (r : List Char) : Prop :=
  ∃ (g : Gap) (members : Members), s = g.chars ++ (members.chars Gap.chars ++ r) ∧
    Interpretation.json.ofMembers entries members = es

/-- What all readers do with this much fuel. -/
structure ReadsTrees (fuel : Nat) : Prop where
  value {s r : List Char} {v : Value} : IsAscii s → readValue? fuel s = some (v, r) →
    SpellsValue s v r
  items {s r : List Char} {vs : List Value} : IsAscii s → readItems? fuel s = some (vs, r) →
    SpellsItems s vs r
  members {entries : List (Value × Value)} {s r : List Char} {es : List (Value × Value)} :
    IsAscii s → readMembers? fuel entries s = some (es, r) → SpellsMembers entries s es r

section Step

variable {fuel : Nat} {s r : List Char}

theorem spellsValue_of_readValue? (ih : ReadsTrees fuel) {v : Value} (hs : IsAscii s)
    (h : readValue? (fuel + 1) s = some (v, r)) : SpellsValue s v r := by
  obtain ⟨g, hg⟩ := exists_gap s
  have hsign : IsAscii (skipSpace s) := by
    rw [hg] at hs
    exact hs.right
  unfold readValue? at h
  split at h
  case h_1 rest heq =>
    cases h
    exact ⟨g, .null, by rw [hg, heq]; rfl, rfl⟩
  case h_2 rest heq =>
    cases h
    exact ⟨g, .bool true, by rw [hg, heq]; rfl, rfl⟩
  case h_3 rest heq =>
    cases h
    exact ⟨g, .bool false, by rw [hg, heq]; rfl, rfl⟩
  case h_4 rest heq =>
    obtain ⟨⟨cs, r'⟩, hread, hv⟩ := Option.map_eq_some_iff.1 h
    cases hv
    rw [heq] at hsign
    obtain ⟨ps, hps, hcs⟩ := spells_of_readText? hsign.tail hread
    refine ⟨g, .text ps, ?_, congrArg (fun cs => Value.text (String.ofList cs)) hcs.symm⟩
    rw [hg, heq, hps]
    simp [Tree.chars, quoted]
  case h_5 rest heq =>
    obtain ⟨g₁, hg₁⟩ := exists_gap rest
    split at h
    case h_1 rest' heq' =>
      cases h
      refine ⟨g, .emptyList g₁, ?_, rfl⟩
      rw [hg, heq, hg₁, heq']
      simp [Tree.chars]
    case h_2 =>
      obtain ⟨⟨vs, r'⟩, hread, hv⟩ := Option.map_eq_some_iff.1 h
      cases hv
      rw [heq, hg₁] at hsign
      obtain ⟨g₂, items, hitems, hvs⟩ := ih.items hsign.tail.right hread
      refine ⟨g, .list (g₁.append g₂) items, ?_, congrArg Value.list hvs⟩
      rw [hg, heq, hg₁, hitems]
      simp [Tree.chars, Gap.append]
  case h_6 rest heq =>
    obtain ⟨g₁, hg₁⟩ := exists_gap rest
    split at h
    case h_1 rest' heq' =>
      cases h
      refine ⟨g, .emptyMap g₁, ?_, rfl⟩
      rw [hg, heq, hg₁, heq']
      simp [Tree.chars]
    case h_2 =>
      obtain ⟨⟨es, r'⟩, hread, hv⟩ := Option.map_eq_some_iff.1 h
      cases hv
      rw [heq, hg₁] at hsign
      obtain ⟨g₂, members, hmembers, hes⟩ := ih.members hsign.tail.right hread
      refine ⟨g, .map (g₁.append g₂) members, ?_, congrArg Value.map hes⟩
      rw [hg, heq, hg₁, hmembers]
      simp [Tree.chars, Gap.append]
  case h_7 =>
    obtain ⟨n, hn, hv⟩ := exists_numeral_of_readNumber? h
    exact ⟨g, .number n, by rw [hg, hn]; rfl, hv.symm⟩

theorem spellsItems_of_readItems? (ih : ReadsTrees fuel) {vs : List Value} (hs : IsAscii s)
    (h : readItems? (fuel + 1) s = some (vs, r)) : SpellsItems s vs r := by
  unfold readItems? at h
  split at h
  case h_1 => cases h
  case h_2 v s₁ hread =>
    obtain ⟨g, t, ht, hv⟩ := ih.value hs hread
    obtain ⟨g₁, hg₁⟩ := exists_gap s₁
    split at h
    case h_1 rest heq =>
      obtain ⟨⟨vs', r'⟩, hread', hvs⟩ := Option.map_eq_some_iff.1 h
      cases hvs
      rw [ht, hg₁, heq] at hs
      obtain ⟨g₂, items, hitems, hvs'⟩ := ih.items hs.right.right.right.tail hread'
      refine ⟨g, .more t g₁ g₂ items, ?_, ?_⟩
      · rw [ht, hg₁, heq, hitems]
        simp [Items.chars]
      · rw [Interpretation.ofItems, hv, hvs']
    case h_2 rest heq =>
      cases h
      refine ⟨g, .last t g₁, ?_, ?_⟩
      · rw [ht, hg₁, heq]
        simp [Items.chars]
      · rw [Interpretation.ofItems, hv]
    case h_3 => cases h

theorem spellsMembers_of_readMembers? (ih : ReadsTrees fuel) {entries es : List (Value × Value)}
    (hs : IsAscii s) (h : readMembers? (fuel + 1) entries s = some (es, r)) :
    SpellsMembers entries s es r := by
  obtain ⟨g, hg⟩ := exists_gap s
  unfold readMembers? at h
  split at h
  case h_2 => cases h
  case h_1 rest heq =>
  rw [hg, heq] at hs
  split at h
  case h_1 => cases h
  case h_2 cs s₁ hread =>
  obtain ⟨ps, hps, rfl⟩ := spells_of_readText? hs.right.tail hread
  obtain ⟨g₁, hg₁⟩ := exists_gap s₁
  split at h
  case h_2 => cases h
  case h_1 s₂ heq₁ =>
  split at h
  case h_1 => cases h
  case h_2 v s₃ hread₁ =>
  have hs₂ : IsAscii s₂ := by
    rw [hps, hg₁, heq₁] at hs
    exact hs.right.tail.right.tail.right.tail
  obtain ⟨g₂, t, ht, rfl⟩ := ih.value hs₂ hread₁
  obtain ⟨g₃, hg₃⟩ := exists_gap s₃
  dsimp only at h
  split at h
  case h_1 s₄ heq₃ =>
    rw [ht, hg₃, heq₃] at hs₂
    obtain ⟨g₄, members, hmembers, hes⟩ := ih.members hs₂.right.right.right.tail h
    refine ⟨g, .more ⟨ps, g₁, g₂⟩ t g₃ g₄ members, ?_, hes⟩
    rw [hg, heq, hps, hg₁, heq₁, ht, hg₃, heq₃, hmembers]
    simp [Members.chars, Label.chars, quoted]
  case h_2 s₄ heq₃ =>
    cases h
    refine ⟨g, .last ⟨ps, g₁, g₂⟩ t g₃, ?_, rfl⟩
    rw [hg, heq, hps, hg₁, heq₁, ht, hg₃, heq₃]
    simp [Members.chars, Label.chars, quoted]
  case h_3 => cases h

end Step

theorem readsTrees (fuel : Nat) : ReadsTrees fuel := by
  induction fuel with
  | zero => exact ⟨(fun _ h => nomatch h), (fun _ h => nomatch h), (fun _ h => nomatch h)⟩
  | succ fuel ih =>
    exact ⟨spellsValue_of_readValue? ih, spellsItems_of_readItems? ih, spellsMembers_of_readMembers? ih⟩

/-- **A text that is read is the spelling of a tree.** -/
theorem exists_document_of_read? {s : String} {v : Value} (hs : IsAscii s.toList)
    (h : read? s = some v) :
    ∃ d : Document, s.toList = d.chars Gap.chars ∧ Interpretation.json.ofTree d.root = v := by
  unfold read? at h
  dsimp only at h
  split at h
  case h_2 => cases h
  case h_1 v' r hread =>
    split at h
    case isFalse => cases h
    case isTrue hr =>
      cases h
      obtain ⟨before, t, ht, hv⟩ := (readsTrees _).value hs hread
      obtain ⟨after, hafter⟩ := exists_gap r
      refine ⟨⟨before, t, after⟩, ?_, hv⟩
      rw [hr, List.append_nil] at hafter
      rw [ht, hafter]
      rfl

/-! ## Spellings are read -/

theorem skipSpace_gap (g : Gap) {x : Char} {s : List Char} (hx : isSpace x = false) :
    skipSpace (g.chars ++ x :: s) = x :: s := by
  exact dropWhile_run g.blank (by rintro _ ⟨⟩; exact hx)

theorem endsNumber_gap (g : Gap) {s : List Char} (hs : EndsNumber s) :
    EndsNumber (g.chars ++ s) := by
  cases hg : g.chars with
  | nil => exact hs
  | cons c cs =>
    rintro _ ⟨⟩
    have hc := g.blank c (hg ▸ List.mem_cons_self)
    simp only [isSpace, Bool.or_eq_true, beq_iff_eq] at hc
    rcases hc with ((rfl | rfl) | rfl) | rfl <;> decide

theorem endsNumber_comma (s : List Char) : EndsNumber (',' :: s) := by
  rintro _ ⟨⟩
  decide

theorem endsNumber_bracket (s : List Char) : EndsNumber (']' :: s) := by
  rintro _ ⟨⟩
  decide

theorem endsNumber_brace (s : List Char) : EndsNumber ('\x7d' :: s) := by
  rintro _ ⟨⟩
  decide

section Signs

/- What is read depends on the first sign behind white space. -/
variable {fuel : Nat} {s r r' : List Char}

theorem readValue?_number {c : Char} (hs : skipSpace s = c :: r)
    (hc : c = '-' ∨ isAsciiDigit c = true) :
    readValue? (fuel + 1) s = readNumber? (c :: r) := by
  unfold readValue?
  rw [hs]
  split
  case h_7 => rfl
  all_goals
    rename_i heq
    cases heq
    rcases hc with hc | hc
    · cases hc
    · cases hc

theorem readValue?_text (hs : skipSpace s = '"' :: r) :
    readValue? (fuel + 1) s =
      (readText? none r).map fun t => (.text (String.ofList t.1), t.2) := by
  unfold readValue?
  rw [hs]
  rfl

theorem readValue?_emptyList (hs : skipSpace s = '[' :: r) (hr : skipSpace r = ']' :: r') :
    readValue? (fuel + 1) s = some (.list [], r') := by
  unfold readValue?
  rw [hs]
  simp only [hr]

theorem readValue?_list {c : Char} (hs : skipSpace s = '[' :: r) (hr : skipSpace r = c :: r')
    (hc : c ≠ ']') :
    readValue? (fuel + 1) s = (readItems? fuel (c :: r')).map fun t => (.list t.1, t.2) := by
  unfold readValue?
  rw [hs]
  simp only [hr]
  split
  case h_1 heq =>
    cases heq
    exact absurd rfl hc
  case h_2 => rfl

theorem readValue?_emptyMap (hs : skipSpace s = '\x7b' :: r) (hr : skipSpace r = '\x7d' :: r') :
    readValue? (fuel + 1) s = some (.map [], r') := by
  unfold readValue?
  rw [hs]
  simp only [hr]

theorem readValue?_map (hs : skipSpace s = '\x7b' :: r) (hr : skipSpace r = '"' :: r') :
    readValue? (fuel + 1) s = (readMembers? fuel [] ('"' :: r')).map fun t => (.map t.1, t.2) := by
  unfold readValue?
  rw [hs]
  simp only [hr]
  rfl

end Signs

mutual

theorem readValue?_chars (t : Tree) (g : Gap) {r : List Char} {fuel : Nat} (hr : EndsNumber r)
    (hfuel : 2 * (t.chars Gap.chars).length ≤ fuel) :
    readValue? fuel (g.chars ++ (t.chars Gap.chars ++ r)) =
      some (Interpretation.json.ofTree t, r) := by
  obtain ⟨c, s, hhead, hspace, -⟩ := t.exists_head Gap.chars
  obtain ⟨fuel, rfl⟩ : ∃ k, fuel = k + 1 := by
    rw [hhead, List.length_cons] at hfuel
    exact ⟨fuel - 1, by omega⟩
  have hskip : skipSpace (g.chars ++ (t.chars Gap.chars ++ r)) = t.chars Gap.chars ++ r := by
    rw [hhead, List.cons_append, skipSpace_gap g hspace]
  match t with
  | .null =>
    unfold readValue?
    rw [hskip]
    rfl
  | .bool true =>
    unfold readValue?
    rw [hskip]
    rfl
  | .bool false =>
    unfold readValue?
    rw [hskip]
    rfl
  | .number n =>
    obtain ⟨c, s, hn, hc⟩ := n.exists_head
    rw [Tree.chars, hn, List.cons_append] at hskip
    rw [Tree.chars, hn, List.cons_append, readValue?_number hskip hc, ← List.cons_append, ← hn,
      readNumber?_chars n hr]
    rfl
  | .text ps =>
    have hquoted : quoted ps ++ r = '"' :: (spell ps ++ '"' :: r) := by simp [quoted]
    rw [Tree.chars, hquoted] at hskip
    rw [Tree.chars, hquoted, readValue?_text hskip, readText?_spell]
    rfl
  | .emptyList gap =>
    have hinner : skipSpace (gap.chars ++ [']'] ++ r) = ']' :: r := by
      rw [List.append_assoc, List.singleton_append, skipSpace_gap gap (by decide)]
    exact readValue?_emptyList hskip hinner
  | .list gap items =>
    obtain ⟨d, s', hitems, hd, hne⟩ := items.exists_head Gap.chars
    have hinner : skipSpace (gap.chars ++ items.chars Gap.chars ++ r) = d :: (s' ++ r) := by
      rw [hitems, List.append_assoc, List.cons_append, skipSpace_gap gap hd]
    have hread : readItems? fuel (d :: (s' ++ r)) = some (Interpretation.json.ofItems items, r) := by
      rw [← List.cons_append, ← hitems]
      refine readItems?_chars items ⟨[], List.forall_mem_nil _⟩ ?_
      rw [Tree.chars, List.length_cons, List.length_append] at hfuel
      omega
    rw [readValue?_list hskip hinner hne, hread]
    rfl
  | .emptyMap gap =>
    have hinner : skipSpace (gap.chars ++ ['\x7d'] ++ r) = '\x7d' :: r := by
      rw [List.append_assoc, List.singleton_append, skipSpace_gap gap (by decide)]
    exact readValue?_emptyMap hskip hinner
  | .map gap members =>
    obtain ⟨s', hmembers⟩ := members.exists_head Gap.chars
    have hinner : skipSpace (gap.chars ++ members.chars Gap.chars ++ r) = '"' :: (s' ++ r) := by
      rw [hmembers, List.append_assoc, List.cons_append, skipSpace_gap gap (by decide)]
    have hread : readMembers? fuel [] ('"' :: (s' ++ r)) =
        some (Interpretation.json.ofMembers [] members, r) := by
      rw [← List.cons_append, ← hmembers]
      refine readMembers?_chars members ⟨[], List.forall_mem_nil _⟩ [] ?_
      rw [Tree.chars, List.length_cons, List.length_append] at hfuel
      omega
    rw [readValue?_map hskip hinner, hread]
    rfl

theorem readItems?_chars (items : Items) (g : Gap) {r : List Char} {fuel : Nat}
    (hfuel : 2 * (items.chars Gap.chars).length ≤ fuel) :
    readItems? fuel (g.chars ++ (items.chars Gap.chars ++ r)) =
      some (Interpretation.json.ofItems items, r) := by
  obtain ⟨c, s, hhead, -⟩ := items.exists_head Gap.chars
  obtain ⟨fuel, rfl⟩ : ∃ k, fuel = k + 1 := by
    rw [hhead, List.length_cons] at hfuel
    exact ⟨fuel - 1, by omega⟩
  match items with
  | .last t gap =>
    rw [Items.chars] at hfuel ⊢
    have hread := readValue?_chars t g (endsNumber_gap gap (endsNumber_bracket r))
      (show 2 * (t.chars Gap.chars).length ≤ fuel by simp at hfuel; omega)
    rw [readItems?, List.append_assoc, List.append_assoc, List.singleton_append, hread]
    dsimp only
    rw [skipSpace_gap gap (by decide)]
    rfl
  | .more t gap next rest =>
    rw [Items.chars] at hfuel ⊢
    simp only [List.length_append, List.length_cons] at hfuel
    have hread := readValue?_chars t g
      (endsNumber_gap gap (endsNumber_comma (next.chars ++ (rest.chars Gap.chars ++ r))))
      (show 2 * (t.chars Gap.chars).length ≤ fuel by omega)
    have hrest := readItems?_chars rest next (r := r)
      (show 2 * (rest.chars Gap.chars).length ≤ fuel by omega)
    simp only [List.append_assoc, List.cons_append]
    simp only [readItems?, hread, skipSpace_gap gap (show isSpace ',' = false by decide), hrest]
    rfl

theorem readMembers?_chars (members : Members) (g : Gap) (entries : List (Value × Value))
    {r : List Char} {fuel : Nat} (hfuel : 2 * (members.chars Gap.chars).length ≤ fuel) :
    readMembers? fuel entries (g.chars ++ (members.chars Gap.chars ++ r)) =
      some (Interpretation.json.ofMembers entries members, r) := by
  obtain ⟨s, hhead⟩ := members.exists_head Gap.chars
  obtain ⟨fuel, rfl⟩ : ∃ k, fuel = k + 1 := by
    rw [hhead, List.length_cons] at hfuel
    exact ⟨fuel - 1, by omega⟩
  match members with
  | .last label t gap =>
    rw [Members.chars, Label.chars] at hfuel ⊢
    simp only [List.length_append, List.length_cons] at hfuel
    have hread := readValue?_chars t label.before (endsNumber_gap gap (endsNumber_brace r))
      (show 2 * (t.chars Gap.chars).length ≤ fuel by omega)
    simp only [quoted, List.append_assoc, List.cons_append, List.nil_append]
    simp only [readMembers?, skipSpace_gap g (show isSpace '"' = false by decide), readText?_spell,
      skipSpace_gap label.colon (show isSpace ':' = false by decide), hread,
      skipSpace_gap gap (show isSpace '\x7d' = false by decide)]
    rfl
  | .more label t gap next rest =>
    rw [Members.chars, Label.chars] at hfuel ⊢
    simp only [List.length_append, List.length_cons] at hfuel
    have hread := readValue?_chars t label.before
      (endsNumber_gap gap (endsNumber_comma (next.chars ++ (rest.chars Gap.chars ++ r))))
      (show 2 * (t.chars Gap.chars).length ≤ fuel by omega)
    have hrest := readMembers?_chars rest next
      (putMember (String.ofList (joined none label.name)) (Interpretation.json.ofTree t) entries)
      (r := r) (show 2 * (rest.chars Gap.chars).length ≤ fuel by omega)
    simp only [quoted, List.append_assoc, List.cons_append, List.nil_append]
    simp only [readMembers?, skipSpace_gap g (show isSpace '"' = false by decide), readText?_spell,
      skipSpace_gap label.colon (show isSpace ':' = false by decide), hread,
      skipSpace_gap gap (show isSpace ',' = false by decide), hrest]
    rfl

end

/-- **The spelling of a tree is read as what it stands for.** -/
theorem read?_chars (d : Document) :
    read? (String.ofList (d.chars Gap.chars)) = some (Interpretation.json.ofTree d.root) := by
  have hlength : (d.root.chars Gap.chars).length ≤ (d.chars Gap.chars).length := by
    simp only [Document.chars, List.length_append]
    omega
  have hafter : EndsNumber d.after.chars := by
    have h := endsNumber_gap d.after (s := []) nofun
    rwa [List.append_nil] at h
  have hread : readValue? (2 * (d.chars Gap.chars).length + 2) (d.chars Gap.chars) = _ :=
    readValue?_chars d.root d.before hafter (by omega)
  have hend : skipSpace d.after.chars = [] := List.dropWhile_eq_nil_iff.2 d.after.blank
  simp only [read?, String.toList_ofList, hread, hend, if_true]

theorem read?_of_chars {text : String} {d : Document} (h : text.toList = d.chars Gap.chars) :
    read? text = some (Interpretation.json.ofTree d.root) := by
  rw [← String.ofList_toList (s := text), h, read?_chars]

end Recurrence.Json
