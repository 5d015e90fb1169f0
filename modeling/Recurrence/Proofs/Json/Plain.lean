import Recurrence.Proofs.Json.Grammar
import Recurrence.Proofs.Text.Boundary
import Recurrence.Proofs.Text.Strip
import Recurrence.Yaml.Scalar

/-!
# The numbers of a JSON text as plain scalars

The tag of a plain scalar is told by its spelling.  A number of JSON without a fraction and an exponent is
an integer there too; any other one is a floating-point number only if it has a point, and a sign in
front of its exponent (`ofPlain_chars`).  Both have the value that JSON gives them (`integerValue_chars`,
`floatValue_chars`), but an integer of too many digits has none.
-/

namespace Recurrence.Json

open Text Yaml

theorem Exponent.point_not_mem_chars (e : Exponent) : '.' ∉ e.chars := by
  rw [Exponent.chars, List.mem_cons, List.mem_append, not_or, not_or]
  refine ⟨?_, ?_, fun h => absurd (List.all_eq_true.1 e.ascii _ h) (by decide)⟩
  · rcases e.isMark with h | h <;> rw [h] <;> decide
  · match e.sign with
    | none | some false | some true => decide

namespace Numeral

/-- Neither a fraction nor an exponent. -/
def isWhole (n : Numeral) : Bool := n.fraction.isEmpty && n.exponent.isNone

/-- No exponent, or one with a sign behind a fraction. -/
def isKept (n : Numeral) : Bool :=
  match n.exponent with
  | none => true
  | some e => !n.fraction.isEmpty && e.sign.isSome

/-! ## Parts -/

theorem of_mem_chars {p : Char → Bool} (hp : numeralChars.all p = true) {n : Numeral} {c : Char}
    (hc : c ∈ n.chars) : p c = true :=
  List.all_eq_true.1 hp c (Numeral.mem_chars hc)

theorem of_mem_unsignedChars {p : Char → Bool} (hp : numeralChars.all p = true) {n : Numeral}
    {c : Char} (hc : c ∈ n.unsignedChars) : p c = true :=
  List.all_eq_true.1 hp c (Numeral.mem_unsignedChars hc)

theorem not_mem_unsignedChars {c : Char} (hc : (!numeralChars.contains c) = true) (n : Numeral) :
    c ∉ n.unsignedChars := by
  intro hmem
  rw [Bool.not_eq_true', ← Bool.not_eq_true, List.contains_iff_mem] at hc
  exact hc (Numeral.mem_unsignedChars hmem)

theorem takeSign_digit {d : Char} (hd : isAsciiDigit d = true) (s : List Char) :
    takeSign (d :: s) = (false, d :: s) := by
  unfold takeSign
  split
  case h_1 h => exact absurd (List.cons.inj h).1 (ne_of_digit hd (by decide))
  case h_2 h => exact absurd (List.cons.inj h).1 (ne_of_digit hd (by decide))
  case h_3 => rfl

/-- The sign that is left out is the one that is taken off. -/
theorem unsigned_eq_takeSign (s : List Char) : Yaml.unsigned s = (takeSign s).2 := by
  unfold Yaml.unsigned takeSign
  split
  case h_1 => rfl
  case h_2 => rfl
  case h_3 hplus hminus =>
    split
    case h_1 => exact absurd rfl (hminus _)
    case h_2 => exact absurd rfl (hplus _)
    case h_3 => rfl

theorem unsigned_digit {d : Char} (hd : isAsciiDigit d = true) (s : List Char) :
    Yaml.unsigned (d :: s) = d :: s := by rw [unsigned_eq_takeSign, takeSign_digit hd]

variable (n : Numeral)

theorem chars_ne_nil : n.chars ≠ [] := by
  obtain ⟨c, s, hs, -⟩ := n.exists_head
  rw [hs]
  exact nofun

theorem takeSign_chars : takeSign n.chars = (n.negative, n.unsignedChars) := by
  obtain ⟨d, s, hs, hd⟩ := n.exists_digit
  rw [Numeral.chars, hs]
  cases n.negative with
  | true => rfl
  | false => exact takeSign_digit hd s

theorem unsigned_chars : Yaml.unsigned n.chars = n.unsignedChars := by
  rw [unsigned_eq_takeSign, n.takeSign_chars]

theorem takeSign_unsignedChars : takeSign n.unsignedChars = (false, n.unsignedChars) := by
  obtain ⟨d, s, hs, hd⟩ := n.exists_digit
  rw [hs, takeSign_digit hd]

/-- What stands behind the digits before the point. -/
theorem head?_behind :
    ∀ c ∈ (fractionChars n.fraction ++ exponentChars n.exponent).head?, c = '.' ∨ c = 'e' ∨ c = 'E' := by
  cases n.fraction with
  | cons d ds =>
    rintro _ ⟨⟩
    exact .inl rfl
  | nil =>
    cases n.exponent with
    | none => nofun
    | some e =>
      rintro _ ⟨⟩
      exact .inr e.isMark

theorem dropWhile_unsignedChars :
    n.unsignedChars.dropWhile isAsciiDigit = fractionChars n.fraction ++ exponentChars n.exponent := by
  refine dropWhile_run (List.all_eq_true.1 n.wholeAscii) fun c hc => ?_
  rcases n.head?_behind c hc with rfl | rfl | rfl <;> decide

/-- All of the number is digits if and only if it is an integer. -/
theorem all_isAsciiDigit : n.unsignedChars.all isAsciiDigit = n.isWhole := by
  cases hwhole : n.isWhole with
  | true =>
    simp only [isWhole, Bool.and_eq_true, List.isEmpty_iff, Option.isNone_iff_eq_none] at hwhole
    rw [unsignedChars, hwhole.1, hwhole.2]
    show (n.whole ++ []).all isAsciiDigit = true
    rw [List.append_nil, n.wholeAscii]
  | false =>
    refine Bool.eq_false_iff.2 fun hall => Bool.eq_false_iff.1 hwhole ?_
    have hnil := n.dropWhile_unsignedChars
    rw [List.dropWhile_eq_nil_iff.2 (List.all_eq_true.1 hall)] at hnil
    obtain ⟨hfraction, hexponent⟩ := List.append_eq_nil_iff.1 hnil.symm
    rw [isWhole, Bool.and_eq_true]
    refine ⟨?_, ?_⟩
    · cases hds : n.fraction with
      | nil => rfl
      | cons d ds =>
        rw [hds] at hfraction
        cases hfraction
    · cases he : n.exponent with
      | none => rfl
      | some e =>
        rw [he] at hexponent
        cases hexponent

/-! ## Tags -/

/-- Numbers have none of the spellings that words have. -/
theorem isSpelling_chars {words : List String}
    (hwords : words.all (fun w => (spellings w).all fun s => match s with
      | c :: _ => c != '-' && !isAsciiDigit c
      | [] => true) = true) : isSpelling words n.chars = false := by
  obtain ⟨c, s, hs, hc⟩ := n.exists_head
  refine Bool.eq_false_iff.2 fun h => ?_
  obtain ⟨w, hw, hmem⟩ := List.any_eq_true.1 h
  have hall := List.all_eq_true.1 (List.all_eq_true.1 hwords w hw) _ (List.contains_iff_mem.1 hmem)
  rw [hs] at hall
  simp only [Bool.and_eq_true, bne_iff_ne, ne_eq, Bool.not_eq_true'] at hall
  rcases hc with hc | hc
  · exact hall.1 hc
  · rw [hall.2] at hc
    cases hc

theorem isTime_chars : isTime n.chars = false := by
  have hnone : readTime? n.chars = none := by
    unfold readTime?
    split
    case h_1 a b c d r hs =>
      refine if_neg fun hall => ?_
      simp only [List.all_cons, List.all_nil, Bool.and_true, Bool.and_eq_true] at hall
      obtain ⟨ha, hb, hc, hd⟩ := hall
      have hunsigned : n.unsignedChars = a :: b :: c :: d :: '-' :: r := by
        rw [← n.unsigned_chars, hs, unsigned_digit ha]
      have hbehind := n.dropWhile_unsignedChars
      rw [hunsigned] at hbehind
      simp only [List.dropWhile_cons, ha, hb, hc, hd, if_true] at hbehind
      have hhead := n.head?_behind '-'
      rw [← hbehind] at hhead
      exact absurd (hhead rfl) (by decide)
    case h_2 => rfl
  rw [isTime, hnone]

theorem isInteger_chars : isInteger n.chars = n.isWhole := by
  have hcolon := n.not_mem_unsignedChars (c := ':') (by decide)
  have hsexagesimal : isSexagesimal (fun p => isDigits p && startsWithNonzero p) n.unsignedChars =
      false := by
    rw [isSexagesimal, splitOn_of_not_mem hcolon]
  have hdigits (c : Char) (hc : c ∈ n.unsignedChars) : isDigitOr_ c = isAsciiDigit c := by
    have h := of_mem_unsignedChars (p := fun c => isDigitOr_ c == isAsciiDigit c) (by decide) hc
    exact beq_iff_eq.1 h
  rw [isInteger, n.unsigned_chars, hsexagesimal, Bool.or_false, ← n.all_isAsciiDigit]
  obtain ⟨d, s, hs, hd⟩ := n.exists_digit
  split
  case h_1 h => rw [h]; decide
  case h_2 r h => exact absurd (h ▸ by simp) (n.not_mem_unsignedChars (c := 'b') (by decide))
  case h_3 r h => exact absurd (h ▸ by simp) (n.not_mem_unsignedChars (c := 'x') (by decide))
  case h_4 r hr _ _ h =>
    have hoctal : r.all (fun c => ('0' ≤ c && c ≤ '7') || c == '_') = true →
        n.unsignedChars.all isAsciiDigit = true := by
      intro hall
      rw [h, List.all_cons, Bool.and_eq_true]
      refine ⟨by decide, List.all_eq_true.2 fun c hc => ?_⟩
      have hmem : c ∈ n.unsignedChars := h ▸ List.mem_cons_of_mem _ hc
      have himp := of_mem_unsignedChars
        (p := fun c => !(('0' ≤ c && c ≤ '7') || c == '_') || isAsciiDigit c) (by decide) hmem
      rw [Bool.or_eq_true, Bool.not_eq_true'] at himp
      refine himp.resolve_left ?_
      rw [List.all_eq_true.1 hall c hc]
      exact Bool.noConfusion
    -- a zero has no digits behind it
    have hzero : n.unsignedChars.all isAsciiDigit = false := by
      refine Bool.eq_false_iff.2 fun hall => ?_
      rw [n.all_isAsciiDigit, isWhole, Bool.and_eq_true, List.isEmpty_iff,
        Option.isNone_iff_eq_none] at hall
      rw [unsignedChars, hall.1, hall.2] at h
      have hwhole : n.whole = '0' :: r := (List.append_nil _).symm.trans h
      have hlead := n.leading (by rw [hwhole]; rfl)
      rw [hwhole] at hlead
      exact hr (by cases hlead; rfl)
    rw [hzero, Bool.and_eq_false_iff]
    exact .inr (Bool.eq_false_iff.2 fun hall => Bool.eq_false_iff.1 hzero (hoctal hall))
  case h_5 =>
    rw [hs] at hdigits ⊢
    rw [isDigits, List.all_cons]
    refine congrArg _ ?_
    rw [Bool.eq_iff_iff, List.all_eq_true, List.all_eq_true]
    exact forall₂_congr fun c hc => by rw [hdigits c (List.mem_cons_of_mem d hc)]

/-- An exponent belongs to a floating-point number if it has a sign. -/
theorem isExponent_chars (e : Option Exponent) :
    isExponent (exponentChars e) = e.all fun e => e.sign.isSome := by
  cases e with
  | none => rfl
  | some e =>
    obtain ⟨d, ds, hds⟩ := List.exists_cons_of_ne_nil e.nonempty
    have hascii := e.ascii
    have hmark : (e.mark == 'e' || e.mark == 'E') = true := by
      rcases e.isMark with h | h <;> rw [h] <;> rfl
    rw [exponentChars, Exponent.chars, Option.all_some]
    rw [hds, List.all_cons, Bool.and_eq_true] at hascii
    match hsign : e.sign with
    | none =>
      have hplus := beq_eq_false_iff_ne.2 (ne_of_digit hascii.1 (d := '+') (by decide))
      have hminus := beq_eq_false_iff_ne.2 (ne_of_digit hascii.1 (d := '-') (by decide))
      rw [hds]
      simp [Exponent.signChars, isExponent, hplus, hminus]
    | some false | some true =>
      rw [hds]
      simpa [Exponent.signChars, isExponent, hmark, hascii.1] using List.all_eq_true.1 hascii.2

theorem isFraction_chars :
    isFraction (n.fraction ++ exponentChars n.exponent) =
      n.exponent.all fun e => e.sign.isSome := by
  have hrun : ∀ c ∈ n.fraction, isDigitOr_ c = true := by
    intro c hc
    rw [isDigitOr_, List.all_eq_true.1 n.fractionAscii c hc, Bool.true_or]
  have hrest : ∀ c ∈ (exponentChars n.exponent).head?, isDigitOr_ c = false := by
    cases n.exponent with
    | none => nofun
    | some e =>
      rintro _ ⟨⟩
      rcases e.isMark with h | h
      · rw [h]; decide
      · rw [h]; decide
  rw [isFraction, dropWhile_run hrun hrest, isExponent_chars]

/-- Without a fraction there is no point. -/
theorem cutAt_unsignedChars :
    cutAt '.' n.unsignedChars =
      if n.fraction.isEmpty then (n.unsignedChars, none)
      else (n.whole, some (n.fraction ++ exponentChars n.exponent)) := by
  have hwhole : '.' ∉ n.whole := fun h => absurd (List.all_eq_true.1 n.wholeAscii _ h) (by decide)
  cases hfraction : n.fraction with
  | nil =>
    refine cutAt_of_not_mem ?_
    rw [unsignedChars, hfraction]
    simp only [fractionChars, List.nil_append, List.mem_append, not_or]
    refine ⟨hwhole, ?_⟩
    cases n.exponent with
    | none => exact List.not_mem_nil
    | some e => exact e.point_not_mem_chars
  | cons d ds =>
    rw [unsignedChars, hfraction, fractionChars, List.cons_append, cutAt_append hwhole]
    · rfl
    · exact List.cons_ne_nil d ds

theorem isFloating_chars : isFloating n.chars = (!n.isWhole && n.isKept) := by
  have hsexagesimal : isSexagesimal isDigits n.whole = false := by
    have hcolon : ':' ∉ n.whole := fun h => absurd (List.all_eq_true.1 n.wholeAscii _ h) (by decide)
    rw [isSexagesimal, splitOn_of_not_mem hcolon]
  have hwhole : isDigits n.whole = true := by
    have hascii := n.wholeAscii
    obtain ⟨d, ds, hds⟩ := List.exists_cons_of_ne_nil n.nonempty
    rw [hds, List.all_cons, Bool.and_eq_true] at hascii
    rw [hds, isDigits, hascii.1, Bool.true_and, List.all_eq_true]
    intro c hc
    rw [isDigitOr_, List.all_eq_true.1 hascii.2 c hc, Bool.true_or]
  -- a number does not begin with a point
  have hpoint : ∀ r, n.chars ≠ '.' :: r := by
    obtain ⟨c, s, hs, hc⟩ := n.exists_head
    rw [hs]
    rintro r ⟨⟩
    rcases hc with hc | hc <;> revert hc <;> decide
  have hpoint' : ∀ r, n.unsignedChars ≠ '.' :: r := by
    obtain ⟨d, s, hs, hd⟩ := n.exists_digit
    rw [hs]
    rintro r ⟨⟩
    revert hd
    decide
  unfold isFloating
  rw [n.unsigned_chars]
  dsimp only
  rw [n.cutAt_unsignedChars]
  cases hfraction : n.fraction.isEmpty with
  | true =>
    rw [if_pos rfl]
    dsimp only
    split
    case h_1 h => exact absurd h (hpoint _)
    rw [isWhole, isKept, hfraction]
    cases n.exponent <;> rfl
  | false =>
    rw [if_neg Bool.false_ne_true]
    dsimp only
    rw [hwhole, n.isFraction_chars, hsexagesimal]
    split
    case h_1 h => exact absurd h (hpoint _)
    rw [isWhole, isKept, hfraction]
    cases n.exponent <;> simp

/-- **The tag of a number** that is not quoted. -/
theorem ofPlain_chars :
    Tag.ofPlain n.chars = if n.isWhole then .int else if n.isKept then .float else .text := by
  have hbreak : beforeFinalBreak n.chars = n.chars := by
    refine if_neg fun h => ?_
    have hmem := of_mem_chars (p := (· != '\n')) (by decide) (List.mem_of_getLast? h)
    exact absurd rfl (bne_iff_ne.1 hmem)
  have hword {c : Char} {w : List Char} (hc : c ≠ '-') (hc' : isAsciiDigit c = false) :
      n.chars ≠ c :: w := by
    obtain ⟨c', s, hs, hc''⟩ := n.exists_head
    rw [hs]
    rintro ⟨⟩
    rcases hc'' with rfl | hdigit
    · exact hc rfl
    · rw [hc'] at hdigit
      cases hdigit
  rw [Tag.ofPlain, if_neg n.chars_ne_nil, hbreak]
  dsimp only
  rw [isTruth, n.isSpelling_chars (by decide), isNull, n.isSpelling_chars (by decide), n.isTime_chars,
    n.isFloating_chars, n.isInteger_chars]
  have htilde : (n.chars == ['~']) = false := beq_eq_false_iff_ne.2 (hword (by decide) (by decide))
  rw [htilde, if_neg (hword (c := '<') (w := ['<']) (by decide) (by decide)),
    if_neg (hword (c := '=') (w := []) (by decide) (by decide)), if_neg (not_or.2
      ⟨hword (by decide) (by decide), not_or.2
        ⟨hword (by decide) (by decide), hword (by decide) (by decide)⟩⟩)]
  cases n.isWhole <;> cases n.isKept <;> rfl

/-! ## Values -/

theorem ofDigits_digits (ds : List Char) : ofDigits (ds.map (·.toNat - 48)) = asciiNumber ds := by
  rw [ofDigits, List.foldl_map]
  rfl

theorem bounds_of_isAsciiDigit {c : Char} (h : isAsciiDigit c = true) :
    48 ≤ c.toNat ∧ c.toNat ≤ 57 := by
  unfold isAsciiDigit asciiDigit? at h
  split at h
  case isTrue hc => exact hc
  case isFalse => cases h

/-- Digits are read as their number, unless there are too many of them. -/
theorem readInt?_digits {ds : List Char} (hne : ds ≠ []) (hds : ds.all isAsciiDigit = true) :
    readInt? ds = if ds.length ≤ maxDigits then some (asciiNumber ds : Int) else none := by
  have hbounds : ∀ c ∈ ds, 48 ≤ c.toNat ∧ c.toNat ≤ 57 := fun c hc =>
    bounds_of_isAsciiDigit (List.all_eq_true.1 hds c hc)
  have hsign : takeSign ds = (false, ds) := by
    obtain ⟨d, ds, rfl⟩ := List.exists_cons_of_ne_nil hne
    exact takeSign_digit (List.all_eq_true.1 hds d List.mem_cons_self) ds
  rw [readInt?, stripNumeral_of_steady (steady_of_digits hbounds), hsign]
  dsimp only
  rw [readNat?, digitRun?_of_digits hne hbounds]
  dsimp only
  rw [List.length_map, ofDigits_digits]
  split <;> rfl

theorem unsignedInteger_whole :
    unsignedInteger n.whole =
      if n.whole.length ≤ maxDigits then .ok (asciiNumber n.whole : Int) else .error .noSuchValue := by
  have hread := readInt?_digits n.nonempty n.wholeAscii
  have hcolon : n.whole.contains ':' = false := by
    refine Bool.eq_false_iff.2 fun h => ?_
    exact absurd (List.all_eq_true.1 n.wholeAscii _ (List.contains_iff_mem.1 h)) (by decide)
  unfold unsignedInteger
  split
  case h_1 h => exact absurd h n.nonempty
  case h_2 h => rw [h]; rfl
  case h_3 h | h_4 h =>
    have hlead := n.leading (by rw [h]; rfl)
    rw [h] at hlead
    cases hlead
  case h_5 hr _ _ h =>
    have hlead := n.leading (by rw [h]; rfl)
    rw [h] at hlead
    cases hlead
    exact absurd rfl hr
  case h_6 =>
    rw [hcolon, if_neg Bool.false_ne_true, hread]
    split <;> rfl

/-- **An integer has the value that it has in JSON**, unless it is too long. -/
theorem integerValue_chars (h : n.isWhole = true) :
    integerValue n.chars =
      if n.whole.length ≤ maxDigits then .ok n.value else .error .noSuchValue := by
  rw [isWhole, Bool.and_eq_true, List.isEmpty_iff, Option.isNone_iff_eq_none] at h
  have hunsigned : n.unsignedChars = n.whole := by
    rw [unsignedChars, h.1, h.2]
    exact List.append_nil _
  have hfilter : n.chars.filter (· != '_') = n.chars :=
    List.filter_eq_self.2 fun c hc => of_mem_chars (p := (· != '_')) (by decide) hc
  have hvalue :
      n.value = .int (if n.negative then -(asciiNumber n.whole : Int) else asciiNumber n.whole) := by
    rw [value, numberOf, h.1, h.2]
    rfl
  rw [integerValue, hfilter]
  split
  case h_1 hnil => exact absurd hnil n.chars_ne_nil
  case h_2 =>
    rw [n.takeSign_chars]
    dsimp only
    rw [hunsigned, unsignedInteger_whole, hvalue]
    by_cases hlength : n.whole.length ≤ maxDigits
    · rw [if_pos hlength, if_pos hlength]
      rfl
    · rw [if_neg hlength, if_neg hlength]
      rfl

/-! ## Floating-point numbers -/

theorem neg_ofRatio (num den : Nat) :
    (Binary64.ofRatio false num den).neg = Binary64.ofRatio true num den := by
  unfold Binary64.ofRatio
  split
  · rfl
  · dsimp only
    split <;>
    · dsimp only
      split <;> rfl

theorem neg_ofDecimal (digits : Nat) (exponent : Int) :
    (Binary64.ofDecimal false digits exponent).neg = Binary64.ofDecimal true digits exponent := by
  unfold Binary64.ofDecimal
  repeat'
    split
  · rfl
  · rfl
  · rfl
  · exact neg_ofRatio _ _
  · exact neg_ofRatio _ _

/-- The number with its exponent marked by a small letter. -/
def lower (n : Numeral) : Numeral :=
  { n with exponent := n.exponent.map fun e => { e with mark := 'e', isMark := .inl rfl } }

theorem map_toLower_digits {ds : List Char} (hds : ds.all isAsciiDigit = true) :
    ds.map Char.toLower = ds := by
  refine (List.map_congr_left fun c hc => ?_).trans (List.map_id ds)
  have hlower := forall_digit (p := fun c => c.toLower == c) (by decide) (List.all_eq_true.1 hds c hc)
  exact beq_iff_eq.1 hlower

theorem map_toLower_chars : n.chars.map Char.toLower = n.lower.chars := by
  have hsign : (signChars n.negative).map Char.toLower = signChars n.negative := by
    cases n.negative <;> rfl
  have hfraction : (fractionChars n.fraction).map Char.toLower = fractionChars n.fraction := by
    cases hds : n.fraction with
    | nil => rfl
    | cons d ds =>
      have hdigits := map_toLower_digits n.fractionAscii
      rw [hds] at hdigits
      exact congrArg ('.' :: ·) hdigits
  have hexponent : (exponentChars n.exponent).map Char.toLower = exponentChars n.lower.exponent := by
    rw [lower]
    cases n.exponent with
    | none => rfl
    | some e =>
      have hmark : e.mark.toLower = 'e' := by
        rcases e.isMark with h | h <;> rw [h] <;> rfl
      have hsign : (Exponent.signChars e.sign).map Char.toLower = Exponent.signChars e.sign := by
        match e.sign with
        | none | some false | some true => rfl
      simp only [exponentChars, Exponent.chars, List.map_cons, List.map_append, hmark, hsign,
        map_toLower_digits e.ascii, Option.map_some]
  simp only [chars, unsignedChars, List.map_append, hfraction, hexponent, hsign,
    map_toLower_digits n.wholeAscii]
  rfl

theorem value_lower : n.lower.value = n.value := by
  have hexponent : n.lower.exponent.map Exponent.value = n.exponent.map Exponent.value := by
    rw [lower, Option.map_map]
    rfl
  rw [value, value, hexponent]
  rfl

theorem filterMap_digitValue? {ds : List Char} (hds : ds.all isAsciiDigit = true) :
    ds.filterMap digitValue? = ds.map (·.toNat - 48) := by
  induction ds with
  | nil => rfl
  | cons d ds ih =>
    rw [List.all_cons, Bool.and_eq_true] at hds
    have hd := digitValue?_of_digit (bounds_of_isAsciiDigit hds.1)
    rw [List.filterMap_cons_some hd, ih hds.2, List.map_cons]

theorem isDigit_of_isAsciiDigit {c : Char} (h : isAsciiDigit c = true) : isDigit c = true := by
  rw [isDigit, digitValue?_of_digit (bounds_of_isAsciiDigit h)]
  rfl

theorem takeDigits_digits {ds r : List Char} (hds : ds.all isAsciiDigit = true)
    (hr : ∀ c ∈ r.head?, isDigit c = false) :
    Binary64.takeDigits (ds ++ r) = (ds.map (·.toNat - 48), r) := by
  have hrun : ∀ c ∈ ds, isDigit c = true := fun c hc =>
    isDigit_of_isAsciiDigit (List.all_eq_true.1 hds c hc)
  rw [Binary64.takeDigits, takeWhile_run hrun hr, dropWhile_run hrun hr, filterMap_digitValue? hds]

theorem exponent?_chars (e : Option Exponent) :
    Binary64.exponent? (exponentChars e) = some ((e.map Exponent.value).getD 0) := by
  cases e with
  | none => rfl
  | some e =>
    have hsign : takeSign (Exponent.signChars e.sign ++ e.digits) =
        (decide (e.sign = some true), e.digits) := by
      match hsign : e.sign with
      | some false => rfl
      | some true => rfl
      | none =>
        obtain ⟨d, ds, hds⟩ := List.exists_cons_of_ne_nil e.nonempty
        have hd : isAsciiDigit d = true := List.all_eq_true.1 e.ascii d (hds ▸ List.mem_cons_self)
        rw [hds]
        exact takeSign_digit hd ds
    have hdigits : Binary64.takeDigits e.digits = (e.digits.map (·.toNat - 48), []) := by
      have h := takeDigits_digits (r := []) e.ascii nofun
      rwa [List.append_nil] at h
    rw [exponentChars, Exponent.chars, Binary64.exponent?, if_pos e.isMark, hsign]
    dsimp only
    rw [hdigits]
    dsimp only
    have hne : e.digits.map (·.toNat - 48) ≠ [] := fun h => e.nonempty (List.map_eq_nil_iff.1 h)
    rw [ofDigits_digits, if_neg (by simp [e.nonempty])]
    by_cases hneg : e.sign = some true
    · rw [Option.map_some, Option.getD_some, Exponent.value, if_pos hneg, decide_eq_true hneg]
      rfl
    · rw [Option.map_some, Option.getD_some, Exponent.value, if_neg hneg, decide_eq_false hneg]
      rfl

/-- Behind the digits before the point no digit of any script follows. -/
theorem isDigit_of_behind {c : Char} (h : c = '.' ∨ c = 'e' ∨ c = 'E') : isDigit c = false := by
  rcases h with rfl | rfl | rfl <;> decide

theorem readDecimal?_unsignedChars :
    Binary64.readDecimal? false n.unsignedChars =
      some (Binary64.ofDecimal false (asciiNumber (n.whole ++ n.fraction))
        ((n.exponent.map Exponent.value).getD 0 - n.fraction.length)) := by
  have hwhole : Binary64.takeDigits n.unsignedChars =
      (n.whole.map (·.toNat - 48), fractionChars n.fraction ++ exponentChars n.exponent) :=
    takeDigits_digits n.wholeAscii fun c hc => isDigit_of_behind (n.head?_behind c hc)
  have hexponent : ∀ c ∈ (exponentChars n.exponent).head?, c = 'e' ∨ c = 'E' := by
    cases n.exponent with
    | none => nofun
    | some e =>
      rintro _ ⟨⟩
      exact e.isMark
  -- what is read behind the digits before the point
  have behind {p : List Nat × List Char}
      (hp : p = (n.fraction.map (·.toNat - 48), exponentChars n.exponent)) :
      (if n.whole.map (·.toNat - 48) = [] && p.1 = [] then none
        else (Binary64.exponent? p.2).map fun e =>
          Binary64.ofDecimal false (ofDigits (n.whole.map (·.toNat - 48) ++ p.1)) (e - p.1.length)) =
      some (Binary64.ofDecimal false (asciiNumber (n.whole ++ n.fraction))
        ((n.exponent.map Exponent.value).getD 0 - n.fraction.length)) := by
    rw [hp]
    dsimp only
    rw [if_neg (by simp [n.nonempty]), exponent?_chars, ← List.map_append, ofDigits_digits,
      List.length_map]
    rfl
  rw [Binary64.readDecimal?, hwhole]
  dsimp only
  split
  case h_1 r hr =>
    refine behind ?_
    cases hds : n.fraction with
    | nil =>
      rw [hds] at hr
      have hhead := hexponent '.' (congrArg List.head? hr)
      exact absurd hhead (by decide)
    | cons d ds =>
      rw [hds] at hr
      cases hr
      rw [← hds]
      exact takeDigits_digits n.fractionAscii fun c hc =>
        isDigit_of_behind (.inr (hexponent c hc))
  case h_2 hr =>
    refine behind ?_
    cases hds : n.fraction with
    | nil => rfl
    | cons d ds =>
      rw [hds] at hr
      exact absurd rfl (hr _)

/-- A number is not spelled like a word. -/
theorem lower_unsignedChars_ne {w : String}
    (hw : w.toList.head?.all (fun c => !isAsciiDigit c) = true) :
    String.ofList (n.unsignedChars.map Char.toLower) ≠ w := by
  obtain ⟨d, s, hs, hd⟩ := n.exists_digit
  have hlower := forall_digit (p := fun c => c.toLower == c) (by decide) hd
  rintro rfl
  rw [String.toList_ofList, hs, List.map_cons, List.head?_cons, Option.all_some,
    beq_iff_eq.1 hlower, hd] at hw
  cases hw

theorem read?_unsignedChars :
    Binary64.read? n.unsignedChars = Binary64.readDecimal? false n.unsignedChars := by
  have hunblank : ∀ c ∈ n.unsignedChars, isNumeralBlank c = false := fun c hc => by
    have h := of_mem_unsignedChars (p := fun c => !isNumeralBlank c) (by decide) hc
    rwa [Bool.not_eq_true'] at h
  rw [Binary64.read?, stripNumeral_of_unblank hunblank, n.takeSign_unsignedChars]
  dsimp only
  rw [if_neg (not_or.2 ⟨n.lower_unsignedChars_ne (by decide), n.lower_unsignedChars_ne (by decide)⟩),
    if_neg (n.lower_unsignedChars_ne (by decide))]

theorem unsignedFloat_chars :
    unsignedFloat n.unsignedChars =
      .ok (Binary64.ofDecimal false (asciiNumber (n.whole ++ n.fraction))
        ((n.exponent.map Exponent.value).getD 0 - n.fraction.length)) := by
  have hpoint (w : List Char) : n.unsignedChars ≠ '.' :: w := by
    obtain ⟨d, s, hs, hd⟩ := n.exists_digit
    rw [hs]
    rintro ⟨⟩
    revert hd
    decide
  have hcolon : n.unsignedChars.contains ':' = false := by
    rw [← Bool.not_eq_true, List.contains_iff_mem]
    exact n.not_mem_unsignedChars (by decide)
  rw [unsignedFloat, if_neg (show n.unsignedChars ≠ ".inf".toList from hpoint _),
    if_neg (show n.unsignedChars ≠ ".nan".toList from hpoint _), hcolon, if_neg Bool.false_ne_true,
    read?_unsignedChars, readDecimal?_unsignedChars]
  rfl

/-- **A floating-point number has the value that it has in JSON.** -/
theorem floatValue_chars (hw : n.isWhole = false) : floatValue n.chars = .ok n.value := by
  have hfilter : n.chars.filter (· != '_') = n.chars :=
    List.filter_eq_self.2 fun c hc => of_mem_chars (p := (· != '_')) (by decide) hc
  have hvalue : n.lower.value =
      .float (Binary64.ofDecimal n.lower.negative (asciiNumber (n.lower.whole ++ n.lower.fraction))
        ((n.lower.exponent.map Exponent.value).getD 0 - n.lower.fraction.length)) := by
    refine if_neg fun h => ?_
    rw [lower, Option.map_map, Option.map_eq_none_iff] at h
    rw [isWhole, h.1, h.2] at hw
    cases hw
  rw [floatValue, hfilter, map_toLower_chars, ← value_lower, hvalue]
  split
  case h_1 hnil => exact absurd hnil n.lower.chars_ne_nil
  case h_2 =>
    rw [n.lower.takeSign_chars]
    dsimp only
    rw [unsignedFloat_chars]
    cases n.lower.negative with
    | true => exact congrArg (fun x => Except.ok (Value.float x)) (neg_ofDecimal _ _)
    | false => rfl

end Numeral

end Recurrence.Json
