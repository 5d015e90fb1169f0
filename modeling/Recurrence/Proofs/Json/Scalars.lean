import Recurrence.Proofs.Json.Grammar
import Recurrence.Proofs.Yaml.Passing
import Recurrence.Proofs.Yaml.Reader
import Recurrence.Yaml.Scalar

/-!
# The scalars of a JSON text as a document

A string of JSON is a quoted scalar that is read character by character, escapes of a unit each on its
own (`readQuoted_quoted`).
-/

namespace Recurrence.Json

open Text Yaml Yaml.Cursor

/-! ## Strings -/

/-- The character that a part of a string stands for on its own. -/
def Piece.char : Piece → Char
  | plain c _ => c
  | escape _ e _ => e
  | unit _ _ _ _ n _ => unitChar n

theorem yamlEscaped?_of_escaped? {c e : Char} (h : escaped? c = some e) :
    Yaml.escaped? c = some e ∧ 32 ≤ c.toNat ∧ c.toNat < 128 := by
  unfold escaped? at h
  split at h
  case h_9 => cases h
  all_goals
    cases h
    exact ⟨rfl, by decide, by decide⟩

theorem bounds_of_hexDigit? {c : Char} {d : Nat} (h : hexDigit? c = some d) :
    32 ≤ c.toNat ∧ c.toNat < 128 := by
  unfold hexDigit? at h
  dsimp only at h
  split at h
  · omega
  · split at h
    · omega
    · split at h
      · omega
      · cases h

theorem digits_of_hexUnit? {a b c d : Char} {n : Nat} (h : hexUnit? a b c d = some n) :
    ∃ w x y z, hexDigit? a = some w ∧ hexDigit? b = some x ∧ hexDigit? c = some y ∧
      hexDigit? d = some z ∧ n = w * 4096 + x * 256 + y * 16 + z := by
  unfold hexUnit? at h
  split at h
  case h_1 w x y z hw hx hy hz =>
    cases h
    exact ⟨w, x, y, z, hw, hx, hy, hz, rfl⟩
  case h_2 => cases h

/-- A string has no line ends and no tabs in it. -/
theorem bounds_of_mem_spell {ps : List Piece} {x : Char} (hx : x ∈ spell ps) :
    32 ≤ x.toNat ∧ x.toNat < 128 := by
  obtain ⟨p, -, hp⟩ := List.mem_flatMap.1 hx
  cases p with
  | plain c hc =>
    cases List.mem_singleton.1 hp
    simp only [isOrdinary, Bool.and_eq_true, decide_eq_true_eq] at hc
    exact hc.1.1
  | escape c e he =>
    simp only [Piece.chars, List.mem_cons, List.not_mem_nil, or_false] at hp
    rcases hp with rfl | rfl
    · decide
    · exact (yamlEscaped?_of_escaped? he).2
  | unit a b c d n hn =>
    obtain ⟨_, _, _, _, ha, hb, hc, hd, -⟩ := digits_of_hexUnit? hn
    simp only [Piece.chars, List.mem_cons, List.not_mem_nil, or_false] at hp
    rcases hp with rfl | rfl | rfl | rfl | rfl | rfl
    · decide
    · decide
    · exact bounds_of_hexDigit? ha
    · exact bounds_of_hexDigit? hb
    · exact bounds_of_hexDigit? hc
    · exact bounds_of_hexDigit? hd

theorem isBreak_of_bounds {x : Char} (h : 32 ≤ x.toNat ∧ x.toNat < 128) : isBreak x = false := by
  refine Bool.eq_false_iff.2 fun hx => ?_
  simp only [isBreak, Bool.or_eq_true, beq_iff_eq] at hx
  rcases hx with (rfl | rfl) | rfl <;> revert h <;> decide

/-- What stands behind the blanks in a string does not end the line. -/
theorem isBreak_head?_dropWhile (ps : List Piece) (r : List Char) :
    ∀ x ∈ ((spell ps ++ '"' :: r).dropWhile Yaml.isSpace).head?, isBreak x = false := by
  have hsplit : (spell ps ++ '"' :: r).dropWhile Yaml.isSpace =
      (spell ps).dropWhile Yaml.isSpace ++ '"' :: r := by
    rw [List.dropWhile_append]
    split
    case isTrue h => rw [List.isEmpty_iff.1 h]; rfl
    case isFalse => rfl
  rw [hsplit]
  intro x hx
  cases hrest : (spell ps).dropWhile Yaml.isSpace with
  | nil =>
    rw [hrest] at hx
    cases hx
    decide
  | cons y s =>
    rw [hrest] at hx
    cases hx
    have hmem : x ∈ (spell ps).dropWhile Yaml.isSpace := hrest ▸ List.mem_cons_self
    exact isBreak_of_bounds (bounds_of_mem_spell ((List.dropWhile_suffix _).subset hmem))

theorem readFolded_blanks {c : Cursor}
    (h : ∀ x ∈ (c.rest.dropWhile Yaml.isSpace).head?, isBreak x = false) :
    readFolded c =
      .ok (c.rest.takeWhile Yaml.isSpace, c.skip (c.rest.takeWhile Yaml.isSpace).length) := by
  have hrest : (c.skip (c.rest.takeWhile Yaml.isSpace).length).rest =
      c.rest.dropWhile Yaml.isSpace :=
    (passes_takeWhile Yaml.isSpace c).rest_eq List.takeWhile_append_dropWhile.symm
  unfold readFolded
  rw [Cursor.takeWhile]
  dsimp only
  rw [lineBreak?_of_stops (by rw [hrest]; exact h)]

section Steps

/- What comes next in a quoted scalar is read, and then the rest of it. -/
variable {fuel : Nat} {c : Cursor} {r : List Char}

/-- The rest of a quoted scalar behind a part of it. -/
def behind (fuel : Nat) (part : Except Yaml.Fault (List Char × Cursor)) :
    Except Yaml.Fault (List Char × Cursor) :=
  part.bind fun p => (readQuotedFrom true fuel p.2).map fun s => (p.1 ++ s.1, s.2)

theorem behind_cons (x : Char) (part : List Char) (c : Cursor) :
    behind fuel (.ok (x :: part, c)) = (behind fuel (.ok (part, c))).map fun s => (x :: s.1, s.2) := by
  show (readQuotedFrom true fuel c).map _ = ((readQuotedFrom true fuel c).map _).map _
  cases readQuotedFrom true fuel c <;> rfl

theorem behind_single {x : Char} {cs : List Char} {c' : Cursor}
    (h : readQuotedFrom true fuel c = .ok (cs, c')) :
    behind fuel (.ok ([x], c)) = .ok (x :: cs, c') := by
  show (readQuotedFrom true fuel c).map _ = _
  rw [h]
  rfl

theorem readQuotedFrom_gap {x : Char} (hc : c.rest = x :: r) (hx : isGap x = true) :
    readQuotedFrom true (fuel + 1) c = behind fuel (readFolded c) := by
  unfold readQuotedFrom
  rw [hc]
  exact if_pos hx

theorem readQuotedFrom_end (hc : c.rest = '"' :: r) :
    readQuotedFrom true (fuel + 1) c = .ok ([], c.next) := by
  unfold readQuotedFrom
  rw [hc]
  rfl

theorem readQuotedFrom_escape (hc : c.rest = '\\' :: r) :
    readQuotedFrom true (fuel + 1) c = behind fuel (readEscape c.next) := by
  unfold readQuotedFrom
  rw [hc]
  rfl

theorem readQuotedFrom_plain {x : Char} (hc : c.rest = x :: r) (hx : isGap x = false)
    (hquote : x ≠ '"') (hback : x ≠ '\\') :
    readQuotedFrom true (fuel + 1) c = behind fuel (.ok ([x], c.next)) := by
  unfold readQuotedFrom
  rw [hc]
  dsimp only
  rw [if_neg (Bool.eq_false_iff.1 hx), if_pos rfl, if_neg hquote, if_neg hback]
  rfl

/-- Blanks are taken as a whole, which comes to the same as one by one. -/
theorem readQuotedFrom_blank {c' : Cursor} {cs : List Char} (hc : c.rest = ' ' :: r)
    (hr : ∀ x ∈ (r.dropWhile Yaml.isSpace).head?, isBreak x = false)
    (h : ∀ k, fuel ≤ k → readQuotedFrom true k c.next = .ok (cs, c')) :
    readQuotedFrom true (fuel + 1) c = .ok (' ' :: cs, c') := by
  have hnext : c.next.rest = r := (passes_next hc).rest_eq hc
  have hfolded : readFolded c = .ok (' ' :: r.takeWhile Yaml.isSpace,
      c.next.skip (r.takeWhile Yaml.isSpace).length) := by
    have hblank : Yaml.isSpace ' ' = true := by decide
    have h := readFolded_blanks (c := c) (by
      rw [hc, List.dropWhile_cons_of_pos hblank]
      exact hr)
    rwa [hc, List.takeWhile_cons_of_pos hblank] at h
  rw [readQuotedFrom_gap hc (by decide), hfolded]
  cases hblanks : r.takeWhile Yaml.isSpace with
  | nil =>
    exact behind_single (h fuel (Nat.le_refl _))
  | cons y blanks =>
    -- the rest of the blanks is what would be taken next
    obtain ⟨s, hs⟩ : ∃ s, r = y :: s :=
      ⟨blanks ++ r.dropWhile Yaml.isSpace, by
        rw [← List.cons_append, ← hblanks, List.takeWhile_append_dropWhile]⟩
    have hy : isGap y = true := by
      have := List.all_eq_true.1 List.all_takeWhile y (hblanks ▸ List.mem_cons_self)
      rw [isGap, this, Bool.true_or]
    have hmore := h (fuel + 1) (Nat.le_succ _)
    rw [readQuotedFrom_gap (hnext.trans hs) hy, readFolded_blanks (by rw [hnext]; exact hr), hnext,
      hblanks] at hmore
    rw [behind_cons, hmore]
    rfl

end Steps

/-- A unit of four digits is the code of a character. -/
theorem character_unit {a b c d : Char} {n : Nat} (h : hexUnit? a b c d = some n) (r : List Char) :
    hexNumber? 4 0 (a :: b :: c :: d :: r) = some n ∧ character n = .ok (unitChar n) := by
  obtain ⟨w, x, y, z, ha, hb, hc, hd, rfl⟩ := digits_of_hexUnit? h
  have hw := hexDigit?_lt ha
  have hx := hexDigit?_lt hb
  have hy := hexDigit?_lt hc
  have hz := hexDigit?_lt hd
  refine ⟨?_, ?_⟩
  · simp only [hexNumber?, ha, hb, hc, hd, Option.bind_some]
    exact congrArg some (by omega)
  · rw [character, if_neg (by omega), if_neg (by omega)]
    unfold unitChar
    split <;> rfl

/-- The part of a string that comes next is read as its character. -/
theorem readQuotedFrom_piece {fuel : Nat} {c c' : Cursor} {r cs : List Char} (p : Piece)
    (hc : c.rest = p.chars ++ r) (hr : ∀ x ∈ (r.dropWhile Yaml.isSpace).head?, isBreak x = false)
    (h : ∀ k, fuel ≤ k → readQuotedFrom true k (c.skip p.chars.length) = .ok (cs, c')) :
    readQuotedFrom true (fuel + 1) c = .ok (p.char :: cs, c') := by
  cases p with
  | plain x hx =>
    by_cases hblank : x = ' '
    · subst hblank
      exact readQuotedFrom_blank hc hr h
    · have hmem : x ∈ spell [.plain x hx] := List.mem_cons_self
      have hbounds := bounds_of_mem_spell hmem
      have hgap : isGap x = false := by
        have hspace : Yaml.isSpace x = false := by
          refine Bool.eq_false_iff.2 fun hs => ?_
          simp only [Yaml.isSpace, Bool.or_eq_true, beq_iff_eq, hblank, false_or] at hs
          rw [hs] at hbounds
          exact absurd hbounds.1 (by decide)
        rw [isGap, hspace, isBreak_of_bounds hbounds, Bool.or_self]
      simp only [isOrdinary, Bool.and_eq_true, bne_iff_ne, ne_eq] at hx
      rw [readQuotedFrom_plain hc hgap hx.1.2 hx.2]
      exact behind_single (h fuel (Nat.le_refl _))
  | escape x e he =>
    obtain ⟨hyaml, hbounds⟩ := yamlEscaped?_of_escaped? he
    have hnext : c.next.rest = x :: r := (passes_next hc).rest_eq hc
    have hescape : readEscape c.next = .ok ([e], c.next.next) := by
      unfold readEscape
      rw [hnext]
      dsimp only
      rw [if_neg (Bool.eq_false_iff.1 (isBreak_of_bounds hbounds)), hyaml]
    rw [readQuotedFrom_escape hc, hescape]
    exact behind_single (h fuel (Nat.le_refl _))
  | unit a b d e n hn =>
    obtain ⟨hcode, hchar⟩ := character_unit hn r
    have hnext : c.next.rest = 'u' :: a :: b :: d :: e :: r := (passes_next hc).rest_eq hc
    have hescape : readEscape c.next = .ok ([unitChar n], c.next.skip 5) := by
      have hu : Yaml.escaped? 'u' = none ∧ escapeLength? 'u' = some 4 := ⟨rfl, rfl⟩
      unfold readEscape
      rw [hnext]
      dsimp only
      rw [if_neg (by decide), hu.1, hu.2]
      dsimp only
      rw [hcode]
      dsimp only
      rw [hchar]
      rfl
    rw [readQuotedFrom_escape hc, hescape]
    exact behind_single (h fuel (Nat.le_refl _))

theorem Piece.chars_length_pos (p : Piece) : 0 < p.chars.length := by
  cases p <;> exact Nat.succ_pos _

/-- **A string is read as a quoted scalar of the characters of its parts.** -/
theorem readQuotedFrom_spell (ps : List Piece) {fuel : Nat} {c : Cursor} {r : List Char}
    (hc : c.rest = spell ps ++ '"' :: r) (hfuel : (spell ps).length < fuel) :
    ∃ c', readQuotedFrom true fuel c = .ok (ps.map Piece.char, c') ∧
      c.Passes (spell ps ++ ['"']) c' := by
  refine ⟨c.skip (spell ps ++ ['"']).length, ?_, passes_skip (r := r) ?_⟩
  case refine_2 => rw [hc, List.append_assoc]; rfl
  induction ps generalizing c fuel with
  | nil =>
    obtain ⟨fuel, rfl⟩ : ∃ k, fuel = k + 1 := ⟨fuel - 1, by omega⟩
    exact readQuotedFrom_end hc
  | cons p ps ih =>
    have hspell : (spell (p :: ps)).length = p.chars.length + (spell ps).length := by
      rw [spell, List.flatMap_cons, List.length_append]
      rfl
    have hpos := p.chars_length_pos
    obtain ⟨fuel, rfl⟩ : ∃ k, fuel = k + 1 := ⟨fuel - 1, by omega⟩
    rw [spell_cons] at hc
    have hpass := passes_skip hc
    refine readQuotedFrom_piece p hc (isBreak_head?_dropWhile ps r) fun k hk => ?_
    rw [ih (hpass.rest_eq hc) (by omega), skip_add, List.length_append, List.length_append, hspell,
      Nat.add_assoc]

theorem readQuoted_quoted (ps : List Piece) {c : Cursor} {r : List Char}
    (hc : c.rest = quoted ps ++ r) :
    ∃ c', readQuoted true c = .ok (ps.map Piece.char, c') ∧ c.Passes (quoted ps) c' := by
  have hopen : c.rest = '"' :: (spell ps ++ '"' :: r) := by
    rw [hc, quoted, List.cons_append, List.append_assoc]
    rfl
  have hpass := passes_next hopen
  have hfuel : (spell ps).length < c.rest.length := by
    rw [hopen, List.length_cons, List.length_append, List.length_cons]
    omega
  obtain ⟨c', hread, hrest⟩ := readQuotedFrom_spell ps (hpass.rest_eq hopen) hfuel
  exact ⟨c', hread, hpass.trans hrest⟩

/-! ## Words -/

/-- A number is a plain scalar. -/
theorem Numeral.isWordChar (n : Numeral) : ∀ x ∈ n.chars, isWordChar x = true := by
  intro x hx
  have hall : numeralChars.all Yaml.isWordChar = true := by decide
  exact List.all_eq_true.1 hall x (Numeral.mem_chars hx)

end Recurrence.Json
