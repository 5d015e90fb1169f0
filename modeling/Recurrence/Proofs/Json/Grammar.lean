import Recurrence.Json.Reader

/-!
# The grammar of JSON

A JSON text in ASCII is the spelling of a tree that keeps all that a text may choose freely: the white
space between its signs, how a character of a string is escaped and how a number is written.  What a
tree stands for depends on how its numbers and strings are taken, and JSON has one way to take them.

* `Gap`, `Piece`, `Numeral`, `Label`: the parts of a text
* `Tree`, `Items`, `Members`, `Document`: whole texts, with their spellings `Tree.chars` and so on
* `Interpretation`, `Interpretation.json`: what a text stands for
* `Tree.exists_head`: the first sign of a value
-/

namespace Recurrence.Json

open Text

/-! ## The parts of a text -/

/-- White space between two signs. -/
structure Gap where
  chars : List Char
  blank : ∀ c ∈ chars, isSpace c = true

/-- A character that stands for itself in a string. -/
def isOrdinary (c : Char) : Bool := 32 ≤ c.toNat && c.toNat < 128 && c != '"' && c != '\\'

/-- A part of a string: a character, an escape of one character or one of a unit of 16 bits. -/
inductive Piece where
  | plain (c : Char) (h : isOrdinary c = true)
  | escape (c e : Char) (h : escaped? c = some e)
  | unit (a b c d : Char) (n : Nat) (h : hexUnit? a b c d = some n)

def Piece.chars : Piece → List Char
  | plain c _ => [c]
  | escape c _ _ => ['\\', c]
  | unit a b c d _ _ => ['\\', 'u', a, b, c, d]

/-- The spelling of a string between its quotes. -/
def spell (ps : List Piece) : List Char := ps.flatMap Piece.chars

/-- A string with its quotes. -/
def quoted (ps : List Piece) : List Char := '"' :: (spell ps ++ ['"'])

structure Exponent where
  mark : Char
  /-- whether it is negative, if it has a sign -/
  sign : Option Bool
  digits : List Char
  isMark : mark = 'e' ∨ mark = 'E'
  nonempty : digits ≠ []
  ascii : digits.all isAsciiDigit = true

namespace Exponent

def signChars : Option Bool → List Char
  | none => []
  | some false => ['+']
  | some true => ['-']

def chars (e : Exponent) : List Char := e.mark :: (signChars e.sign ++ e.digits)

def value (e : Exponent) : Int :=
  if e.sign = some true then -(asciiNumber e.digits : Int) else asciiNumber e.digits

end Exponent

/-- A number as it is written; without a point there are no digits of a fraction. -/
structure Numeral where
  negative : Bool
  whole : List Char
  fraction : List Char
  exponent : Option Exponent
  nonempty : whole ≠ []
  leading : whole.head? = some '0' → whole = ['0']
  wholeAscii : whole.all isAsciiDigit = true
  fractionAscii : fraction.all isAsciiDigit = true

namespace Numeral

def signChars (negative : Bool) : List Char := if negative then ['-'] else []

def fractionChars : List Char → List Char
  | [] => []
  | ds => '.' :: ds

def exponentChars : Option Exponent → List Char
  | none => []
  | some e => e.chars

/-- The number without its sign. -/
def unsignedChars (n : Numeral) : List Char :=
  n.whole ++ (fractionChars n.fraction ++ exponentChars n.exponent)

def chars (n : Numeral) : List Char := signChars n.negative ++ n.unsignedChars

def value (n : Numeral) : Value :=
  numberOf n.negative n.whole n.fraction (n.exponent.map Exponent.value)

end Numeral

/-! ## Texts -/

/-- The name of a member, with the gaps before and behind the colon. -/
structure Label where
  name : List Piece
  colon : Gap
  before : Gap

mutual

/-- A value as it is written. -/
inductive Tree where
  | null
  | bool (b : Bool)
  | number (n : Numeral)
  | text (ps : List Piece)
  | emptyList (gap : Gap)
  | list (gap : Gap) (items : Items)
  | emptyMap (gap : Gap)
  | map (gap : Gap) (members : Members)

/-- The items of a list, up to the bracket that closes it. -/
inductive Items where
  | last (t : Tree) (gap : Gap)
  | more (t : Tree) (gap next : Gap) (rest : Items)

/-- The members of an object, up to the brace that closes it. -/
inductive Members where
  | last (label : Label) (t : Tree) (gap : Gap)
  | more (label : Label) (t : Tree) (gap next : Gap) (rest : Members)

end

/-- A text that holds one value. -/
structure Document where
  before : Gap
  root : Tree
  after : Gap

/-! ## Spelling -/

section Spelling

/- How the gaps are spelled is left open: it is one thing in the text, and another one when its line
ends are unified. -/
variable (w : Gap → List Char)

def Label.chars (l : Label) : List Char := quoted l.name ++ (w l.colon ++ ':' :: w l.before)

mutual

def Tree.chars : Tree → List Char
  | .null => "null".toList
  | .bool true => "true".toList
  | .bool false => "false".toList
  | .number n => n.chars
  | .text ps => quoted ps
  | .emptyList gap => '[' :: (w gap ++ [']'])
  | .list gap items => '[' :: (w gap ++ items.chars)
  | .emptyMap gap => '\x7b' :: (w gap ++ ['\x7d'])
  | .map gap members => '\x7b' :: (w gap ++ members.chars)

def Items.chars : Items → List Char
  | .last t gap => t.chars ++ (w gap ++ [']'])
  | .more t gap next rest => t.chars ++ (w gap ++ ',' :: (w next ++ rest.chars))

def Members.chars : Members → List Char
  | .last label t gap => label.chars w ++ (t.chars ++ (w gap ++ ['\x7d']))
  | .more label t gap next rest =>
    label.chars w ++ (t.chars ++ (w gap ++ ',' :: (w next ++ rest.chars)))

end

def Document.chars (d : Document) : List Char := w d.before ++ (d.root.chars w ++ w d.after)

end Spelling

/-! ## Values -/

/-- What the numbers and the strings of a text stand for. -/
structure Interpretation where
  number : Numeral → Value
  text : List Piece → List Char

namespace Interpretation

variable (i : Interpretation)

mutual

def ofTree : Tree → Value
  | .null => .null
  | .bool b => .bool b
  | .number n => i.number n
  | .text ps => .text (String.ofList (i.text ps))
  | .emptyList _ => .list []
  | .list _ items => .list (ofItems items)
  | .emptyMap _ => .map []
  | .map _ members => .map (ofMembers [] members)

def ofItems : Items → List Value
  | .last t _ => [ofTree t]
  | .more t _ _ rest => ofTree t :: ofItems rest

/-- The entries of an object behind other ones.  Of several members with one name the last counts. -/
def ofMembers (entries : List (Value × Value)) : Members → List (Value × Value)
  | .last l t _ => putMember (String.ofList (i.text l.name)) (ofTree t) entries
  | .more l t _ _ rest =>
    ofMembers (putMember (String.ofList (i.text l.name)) (ofTree t) entries) rest

end

end Interpretation

/-! ## Strings -/

/-- The first half of a pair of units. -/
def isHigh (n : Nat) : Bool := 0xD800 ≤ n ∧ n ≤ 0xDBFF

/-- The second half of a pair of units. -/
def isLow (n : Nat) : Bool := 0xDC00 ≤ n ∧ n ≤ 0xDFFF

/-- The character of a pair of units. -/
def pairChar (h n : Nat) : Char := Char.ofNat (0x10000 + (h - 0xD800) * 0x400 + (n - 0xDC00))

/-- What stands for the first half of a pair that lacks the second one. -/
def halved (high : Option Nat) : List Char := if high.isSome then ['\ufffd'] else []

/-- The text of a string, behind the first half of a pair if there is one. -/
def joined : (high : Option Nat) → List Piece → List Char
  | high, [] => halved high
  | high, .plain c _ :: ps => halved high ++ c :: joined none ps
  | high, .escape _ e _ :: ps => halved high ++ e :: joined none ps
  | some h, .unit _ _ _ _ n _ :: ps =>
    if isLow n then pairChar h n :: joined none ps
    else if isHigh n then '\ufffd' :: joined (some n) ps
    else '\ufffd' :: unitChar n :: joined none ps
  | none, .unit _ _ _ _ n _ :: ps =>
    if isHigh n then joined (some n) ps else unitChar n :: joined none ps

/-- What the numbers and strings of a JSON text stand for. -/
def Interpretation.json : Interpretation where
  number := Numeral.value
  text := joined none

theorem spell_cons (p : Piece) (ps : List Piece) (r : List Char) :
    spell (p :: ps) ++ r = p.chars ++ (spell ps ++ r) := by
  rw [spell, spell, List.flatMap_cons, List.append_assoc]

/-! ## Digits -/

theorem mem_of_isAsciiDigit {c : Char} (h : isAsciiDigit c = true) : c ∈ "0123456789".toList := by
  unfold isAsciiDigit asciiDigit? at h
  split at h
  case isFalse => cases h
  case isTrue hc =>
    have hcases : c.toNat = 48 ∨ c.toNat = 49 ∨ c.toNat = 50 ∨ c.toNat = 51 ∨ c.toNat = 52 ∨
        c.toNat = 53 ∨ c.toNat = 54 ∨ c.toNat = 55 ∨ c.toNat = 56 ∨ c.toNat = 57 := by omega
    rw [← c.ofNat_toNat]
    rcases hcases with h | h | h | h | h | h | h | h | h | h
    all_goals
      rw [h]
      decide

/-- What holds of the ten digits. -/
theorem forall_digit {p : Char → Bool} (hp : "0123456789".toList.all p = true) {c : Char}
    (h : isAsciiDigit c = true) : p c = true :=
  List.all_eq_true.1 hp c (mem_of_isAsciiDigit h)

/-- The characters of numbers. -/
def numeralChars : List Char := "0123456789-+.eE".toList

theorem mem_numeralChars_of_isAsciiDigit {c : Char} (h : isAsciiDigit c = true) : c ∈ numeralChars :=
  List.contains_iff_mem.1 (forall_digit (p := numeralChars.contains) (by decide) h)

theorem Exponent.mem_chars {e : Exponent} {c : Char} (hc : c ∈ e.chars) : c ∈ numeralChars := by
  rcases List.mem_cons.1 hc with rfl | hc
  · rcases e.isMark with h | h
    · rw [h]
      decide
    · rw [h]
      decide
  · rcases List.mem_append.1 hc with hc | hc
    · have hsign : ∀ sign, (signChars sign).all numeralChars.contains = true := by
        rintro (_ | _ | _) <;> decide
      exact List.contains_iff_mem.1 (List.all_eq_true.1 (hsign e.sign) c hc)
    · exact mem_numeralChars_of_isAsciiDigit (List.all_eq_true.1 e.ascii c hc)

theorem Numeral.mem_unsignedChars {n : Numeral} {c : Char} (hc : c ∈ n.unsignedChars) :
    c ∈ numeralChars := by
  rcases List.mem_append.1 hc with hc | hc
  · exact mem_numeralChars_of_isAsciiDigit (List.all_eq_true.1 n.wholeAscii c hc)
  · rcases List.mem_append.1 hc with hc | hc
    · cases hfraction : n.fraction with
      | nil =>
        rw [hfraction] at hc
        cases hc
      | cons d ds =>
        have hdigits := List.all_eq_true.1 n.fractionAscii
        rw [hfraction] at hc hdigits
        rcases List.mem_cons.1 hc with rfl | hc
        · decide
        · exact mem_numeralChars_of_isAsciiDigit (hdigits c hc)
    · cases hexponent : n.exponent with
      | none =>
        rw [hexponent] at hc
        cases hc
      | some e =>
        rw [hexponent] at hc
        exact Exponent.mem_chars hc

theorem Numeral.mem_chars {n : Numeral} {c : Char} (hc : c ∈ n.chars) : c ∈ numeralChars := by
  rcases List.mem_append.1 hc with hc | hc
  · have hsign : ∀ negative, (signChars negative).all numeralChars.contains = true := by
      rintro (_ | _) <;> decide
    exact List.contains_iff_mem.1 (List.all_eq_true.1 (hsign n.negative) c hc)
  · exact Numeral.mem_unsignedChars hc

/-! ## First signs -/

/-- The first of some digits. -/
theorem digit_of_head? {ds r : List Char} (hds : ds.all isAsciiDigit = true) (hne : ds ≠ []) :
    ∀ c ∈ (ds ++ r).head?, isAsciiDigit c = true := by
  cases ds with
  | nil => exact absurd rfl hne
  | cons d ds =>
    rintro _ ⟨⟩
    exact List.all_eq_true.1 hds d List.mem_cons_self

theorem ne_of_digit {c d : Char} (hc : isAsciiDigit c = true) (hd : isAsciiDigit d = false) :
    c ≠ d := by
  rintro rfl
  rw [hc] at hd
  cases hd

theorem Numeral.exists_digit (n : Numeral) :
    ∃ d s, n.unsignedChars = d :: s ∧ isAsciiDigit d = true := by
  obtain ⟨d, ds, hds⟩ := List.exists_cons_of_ne_nil n.nonempty
  refine ⟨d, ds ++ (fractionChars n.fraction ++ exponentChars n.exponent), ?_,
    List.all_eq_true.1 n.wholeAscii d (hds ▸ List.mem_cons_self)⟩
  rw [Numeral.unsignedChars, hds]
  rfl

theorem Numeral.exists_head (n : Numeral) :
    ∃ c s, n.chars = c :: s ∧ (c = '-' ∨ isAsciiDigit c = true) := by
  obtain ⟨d, s, hs, hd⟩ := n.exists_digit
  rw [Numeral.chars, hs]
  cases n.negative with
  | true => exact ⟨'-', d :: s, rfl, .inl rfl⟩
  | false => exact ⟨d, s, rfl, .inr hd⟩

/-- A value begins with a sign that is no white space, and does not end a list. -/
theorem Tree.exists_head (w : Gap → List Char) (t : Tree) :
    ∃ c s, t.chars w = c :: s ∧ isSpace c = false ∧ c ≠ ']' := by
  match t with
  | .null => exact ⟨_, _, rfl, by decide, by decide⟩
  | .bool true => exact ⟨_, _, rfl, by decide, by decide⟩
  | .bool false => exact ⟨_, _, rfl, by decide, by decide⟩
  | .number n =>
    obtain ⟨c, s, hn, hc⟩ := n.exists_head
    refine ⟨c, s, hn, ?_⟩
    rcases hc with rfl | hc
    · decide
    · refine ⟨Bool.eq_false_iff.2 fun hspace => ?_, ne_of_digit hc (by decide)⟩
      simp only [isSpace, Bool.or_eq_true, beq_iff_eq] at hspace
      rcases hspace with ((rfl | rfl) | rfl) | rfl <;> revert hc <;> decide
  | .text ps => exact ⟨_, _, rfl, by decide, by decide⟩
  | .emptyList gap => exact ⟨_, _, rfl, by decide, by decide⟩
  | .list gap items => exact ⟨_, _, rfl, by decide, by decide⟩
  | .emptyMap gap => exact ⟨_, _, rfl, by decide, by decide⟩
  | .map gap members => exact ⟨_, _, rfl, by decide, by decide⟩

theorem Items.exists_head (w : Gap → List Char) (items : Items) :
    ∃ c s, items.chars w = c :: s ∧ isSpace c = false ∧ c ≠ ']' := by
  have behind (t : Tree) (s : List Char) :
      ∃ c s', t.chars w ++ s = c :: s' ∧ isSpace c = false ∧ c ≠ ']' := by
    obtain ⟨c, s', ht, hc⟩ := t.exists_head w
    exact ⟨c, s' ++ s, by rw [ht, List.cons_append], hc⟩
  match items with
  | .last t gap => exact behind t _
  | .more t gap next rest => exact behind t _

theorem Members.exists_head (w : Gap → List Char) (members : Members) :
    ∃ s, members.chars w = '"' :: s := by
  match members with
  | .last label t gap => exact ⟨_, rfl⟩
  | .more label t gap next rest => exact ⟨_, rfl⟩

end Recurrence.Json
