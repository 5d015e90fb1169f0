import Mathlib.Algebra.Group.Nat.Defs
import Recurrence.Yaml.Layout

/-!
# Reading stays within the text

A text is read from left to right.  What a reader leaves is an end of what it was given, so every
place that it comes to is an end of the text (`Cursor.Within`).  If it fails, then the text breaks the
rules of documents, or one of two things stands in it that only look like a part of a document: an
escape with the code of no character, or a number of a version with too many digits
(`Fault.FoundIn`).

* `Meets`: a result with a property, or a fault with one
* `Yields`: a known result under a test, and a fault otherwise
* `Reads`: **what is read leaves a place in the text, or the text accounts for the fault**
* `reads_readAnchor`, `reads_readTag`, `reads_readDirective`: names and directives
* `reads_readQuoted`, `reads_readBlock`, `within_readPlain`: scalars
-/

namespace Recurrence.Yaml

open Text

/-! ## Results with a property -/

/-- The result has `Q`, or the fault has `P`. -/
def Meets {ε α : Type} (P : ε → Prop) (Q : α → Prop) : Except ε α → Prop
  | .ok a => Q a
  | .error e => P e

namespace Meets

variable {ε α β : Type} {P : ε → Prop} {Q : α → Prop} {R : β → Prop}

theorem bind {x : Except ε α} {f : α → Except ε β} (hx : Meets P Q x)
    (hf : ∀ a, Q a → Meets P R (f a)) : Meets P R (x >>= f) := by
  cases x with
  | error e => exact hx
  | ok a => exact hf a hx

theorem map {x : Except ε α} {f : α → β} (hx : Meets P Q x) (hf : ∀ a, Q a → R (f a)) :
    Meets P R (x.map f) := by
  cases x with
  | error e => exact hx
  | ok a => exact hf a hx

theorem ite {p : Prop} [Decidable p] {x y : Except ε α} (hx : Meets P Q x) (hy : Meets P Q y) :
    Meets P Q (if p then x else y) := by
  split
  · exact hx
  · exact hy

/-- A test between two ways to go on. -/
theorem ite_bind {p : Prop} [Decidable p] {x y : Except ε α} {f : α → Except ε β}
    (hxy : Meets P Q (if p then x else y)) (hf : ∀ a, Q a → Meets P R (f a)) :
    Meets P R (if p then x >>= f else y >>= f) := by
  by_cases hp : p
  · rw [if_pos hp] at hxy ⊢
    exact hxy.bind hf
  · rw [if_neg hp] at hxy ⊢
    exact hxy.bind hf

theorem mono {P' : ε → Prop} {Q' : α → Prop} {x : Except ε α} (hx : Meets P Q x)
    (hp : ∀ e, P e → P' e) (hq : ∀ a, Q a → Q' a) : Meets P' Q' x := by
  cases x with
  | error e => exact hp e hx
  | ok a => exact hq a hx

theorem mapM {f : α → Except ε β} {l : List α} (hf : ∀ a ∈ l, Meets P R (f a)) :
    Meets P (fun bs => ∀ b ∈ bs, R b) (l.mapM f) := by
  induction l with
  | nil => exact List.forall_mem_nil R
  | cons a l ih =>
    rw [List.mapM_cons]
    refine (hf a List.mem_cons_self).bind fun b hb => ?_
    refine (ih fun x hx => hf x (List.mem_cons_of_mem a hx)).bind fun bs hbs => ?_
    exact List.forall_mem_cons.mpr ⟨hb, hbs⟩

end Meets

/-- If the test is passed then the result is `a`, and if not then it is a fault. -/
def Yields {ε α : Type} (ok : Bool) (a : α) (r : Except ε α) : Prop :=
  if ok then r = .ok a else ∃ e, r = .error e

section Yields

variable {ε α β : Type} {ok ok' : Bool} {a : α} {b : β} {r : Except ε α}

theorem yields_of_ok (h : r = .ok a) : Yields true a r := h

theorem yields_of_error (h : ∃ e, r = .error e) (hok : ok = false) : Yields ok a r := by
  rw [hok]
  exact h

theorem Yields.congr (h : Yields ok a r) (hok : ok = ok') : Yields ok' a r := by
  rw [← hok]
  exact h

theorem Yields.map (h : Yields ok a r) (f : α → β) : Yields ok (f a) (r.map f) := by
  cases ok with
  | true =>
    rw [show r = .ok a from h]
    exact rfl
  | false =>
    obtain ⟨e, rfl⟩ := h
    exact ⟨e, rfl⟩

/-- What goes on behind a result is tested on its own. -/
theorem Yields.bind (h : Yields ok a r) {f : α → Except ε β} (hf : Yields ok' b (f a)) :
    Yields (ok && ok') b (r.bind f) := by
  cases ok with
  | true =>
    rw [show r = .ok a from h, Bool.true_and]
    exact hf
  | false =>
    obtain ⟨e, rfl⟩ := h
    exact ⟨e, rfl⟩

end Yields

/-! ## Faults of a text -/

/-- The text accounts for the fault: its form is broken, an escape in it has the code of no
character, or a number in it has too many digits. -/
inductive Fault.FoundIn (text : List Char) : Fault → Prop
  | form : FoundIn text .malformed
  | escape {f : Fault} {code : Nat} (rest : List Char) : '\\' :: 'U' :: rest <:+ text →
      hexNumber? 8 0 rest = some code → character code = .error f → FoundIn text f
  | digits (ds rest : List Char) : ds ++ rest <:+ text → ds.all isAsciiDigit →
      maxDigits < ds.length → FoundIn text .noSuchValue

/-! ## Cursors -/

/-- The place lies in the text. -/
def Cursor.Within (text : List Char) (c : Cursor) : Prop := c.rest <:+ text

namespace Cursor

variable {text : List Char} {c : Cursor}

theorem within_next (h : c.Within text) : c.next.Within text := by
  rw [Within, rest_next]
  exact (List.tail_suffix _).trans h

theorem within_skip (n : Nat) (h : c.Within text) : (c.skip n).Within text := by
  rw [Within, rest_skip]
  exact (List.drop_suffix _ _).trans h

theorem within_takeWhile {p : Char → Bool} {s : List Char} {c' : Cursor} (h : c.Within text)
    (ht : c.takeWhile p = (s, c')) : c'.Within text := by
  cases ht
  exact within_skip _ h

theorem within_dropWhile (p : Char → Bool) (h : c.Within text) : (c.dropWhile p).Within text :=
  within_skip _ h

theorem within_lineBreak? {x : Char} {c' : Cursor} (h : c.Within text)
    (hb : c.lineBreak? = some (x, c')) : c'.Within text := by
  unfold lineBreak? at hb
  split at hb
  · cases hb
  · split at hb
    · cases hb
      exact within_next h
    · cases hb

theorem within_skipComment (h : c.Within text) : c.skipComment.Within text := by
  have hd := within_dropWhile (· == ' ') h
  unfold skipComment
  dsimp only
  split
  · exact within_dropWhile _ hd
  · exact hd

end Cursor

open Cursor

/-! ## Readers -/

/-- What is read leaves a place in the text, or the text accounts for the fault. -/
def Reads {α : Type} (text : List Char) (r : Except Fault (α × Cursor)) : Prop :=
  Meets (Fault.FoundIn text) (fun a => a.2.Within text) r

variable {text : List Char} {c : Cursor}

/-! ## Names and directives -/

theorem reads_readAnchor (h : c.Within text) : Reads text (readAnchor c) := by
  unfold readAnchor
  rcases hn : c.next.takeWhile isNameChar with ⟨name, c'⟩
  dsimp only
  split
  · exact .form
  · exact within_takeWhile (within_next h) hn

theorem reads_readUri (h : c.Within text) : Reads text (readUri c) := by
  unfold readUri
  rcases hn : c.takeWhile isUriChar with ⟨name, c'⟩
  dsimp only
  split
  · exact .form
  · split
    · exact within_takeWhile h hn
    · exact .form

theorem reads_readHandle (h : c.Within text) : Reads text (readHandle c) := by
  unfold readHandle
  split
  · exact within_next h
  · dsimp only
    split
    · exact within_skip _ h
    · exact .form
  · exact .form

theorem reads_readTagName (h : c.Within text) : Reads text (readTagName c) := by
  unfold readTagName
  split
  · refine (reads_readUri (within_skip 2 h)).bind ?_
    rintro ⟨name, c⟩ hc
    dsimp only
    split
    · exact within_next hc
    · exact .form
  · split
    · exact within_next h
    · dsimp only
      split
      · refine (reads_readHandle h).bind ?_
        rintro ⟨handle, c⟩ hc
        exact (reads_readUri hc).bind fun _ hs => hs
      · exact (reads_readUri (within_next h)).bind fun _ hs => hs
  · exact .form

theorem reads_readTag (h : c.Within text) : Reads text (readTag c) := by
  refine (reads_readTagName h).bind ?_
  rintro ⟨tag, c⟩ hc
  dsimp only
  split
  · exact hc
  · exact .form

theorem reads_readVersionPart (h : c.Within text) : Reads text (readVersionPart c) := by
  unfold readVersionPart
  rcases hn : c.takeWhile isAsciiDigit with ⟨digits, c'⟩
  dsimp only
  split
  · exact .form
  · split
    case isTrue hl =>
      cases hn
      refine .digits _ (c.rest.dropWhile isAsciiDigit) ?_ List.all_takeWhile hl
      rw [List.takeWhile_append_dropWhile]
      exact h
    case isFalse => exact within_takeWhile h hn

theorem reads_readVersion (h : c.Within text) : Reads text (readVersion c) := by
  refine (reads_readVersionPart (within_dropWhile _ h)).bind ?_
  rintro ⟨major, c⟩ hc
  dsimp only
  split
  · refine (reads_readVersionPart (within_next hc)).bind ?_
    rintro ⟨minor, c⟩ hc
    dsimp only
    split
    · exact hc
    · exact .form
  · exact .form

theorem reads_readHandleDirective (h : c.Within text) : Reads text (readHandleDirective c) := by
  refine (reads_readHandle (within_dropWhile _ h)).bind ?_
  rintro ⟨name, c⟩ hc
  dsimp only
  split
  · refine (reads_readUri (within_dropWhile _ hc)).bind ?_
    rintro ⟨lead, c⟩ hc
    dsimp only
    split
    · exact hc
    · exact .form
  · exact .form

/-- What is read before the end of a line, which has to follow. -/
def endLine {α : Type} (a : α) (c : Cursor) : Except Fault (α × Cursor) :=
  match c.skipComment.lineBreak? with
  | some (_, c) => .ok (a, c)
  | none => if c.skipComment.rest = [] then .ok (a, c.skipComment) else .error .malformed

theorem reads_endLine {α : Type} (a : α) (h : c.Within text) : Reads text (endLine a c) := by
  unfold endLine
  split
  case h_1 hb => exact within_lineBreak? (within_skipComment h) hb
  case h_2 =>
    split
    · exact within_skipComment h
    · exact .form

theorem reads_readDirective (h : c.Within text) : Reads text (readDirective c) := by
  unfold readDirective
  rcases hn : c.next.takeWhile isNameChar with ⟨name, c'⟩
  have hc := within_takeWhile (within_next h) hn
  dsimp only
  split
  · exact .form
  · split
    · exact (reads_readVersion hc).bind fun a ha => reads_endLine a.1 ha
    · split
      · exact (reads_readHandleDirective hc).bind fun a ha => reads_endLine a.1 ha
      · exact reads_endLine _ (within_dropWhile _ hc)

/-! ## Quoted scalars -/

theorem reads_readBreaks (fuel : Nat) (h : c.Within text) : Reads text (readBreaks fuel c) := by
  induction fuel generalizing c with
  | zero => exact .form
  | succ fuel ih =>
    unfold readBreaks
    split
    · exact .form
    · dsimp only
      split
      · exact within_dropWhile _ h
      case h_2 hb =>
        exact (ih (within_lineBreak? (within_dropWhile _ h) hb)).map fun _ ha => ha

theorem reads_readFolded (h : c.Within text) : Reads text (readFolded c) := by
  unfold readFolded
  rcases hn : c.takeWhile isSpace with ⟨spaces, c'⟩
  have hc := within_takeWhile h hn
  dsimp only
  split
  · exact hc
  case h_2 hb => exact (reads_readBreaks _ (within_lineBreak? hc hb)).map fun _ ha => ha

theorem hexDigit?_lt {x : Char} {d : Nat} (h : hexDigit? x = some d) : d < 16 := by
  simp only [hexDigit?] at h
  split at h
  · cases h
    omega
  · split at h
    · cases h
      omega
    · split at h
      · cases h
        omega
      · cases h

theorem hexNumber?_lt (n value : Nat) (s : List Char) {code : Nat}
    (h : hexNumber? n value s = some code) : code < (value + 1) * 16 ^ n := by
  induction n generalizing value s with
  | zero =>
    cases h
    simp
  | succ n ih =>
    cases s with
    | nil => cases h
    | cons x s =>
      obtain ⟨d, hd, h⟩ := Option.bind_eq_some_iff.mp h
      have hc := ih _ s h
      have hlt := hexDigit?_lt hd
      calc code < (16 * value + d + 1) * 16 ^ n := hc
        _ ≤ ((value + 1) * 16) * 16 ^ n := Nat.mul_le_mul_right _ (by omega)
        _ = (value + 1) * 16 ^ (n + 1) := by rw [Nat.pow_succ']; ac_rfl

/-- Only an escape of eight digits can have the code of no character. -/
theorem eq_of_character_eq_error {x : Char} {n code : Nat} {s : List Char} {f : Fault}
    (hx : escapeLength? x = some n) (hn : hexNumber? n 0 s = some code)
    (hf : character code = .error f) : x = 'U' ∧ n = 8 := by
  have hlt := hexNumber?_lt n 0 s hn
  have hlarge : 0x10FFFF < code := by
    refine Nat.lt_of_not_le fun hle => ?_
    rw [character, if_neg (by omega), if_neg (by omega)] at hf
    split at hf <;> cases hf
  unfold escapeLength? at hx
  split at hx
  · cases hx
    omega
  · cases hx
    omega
  · cases hx
    exact ⟨rfl, rfl⟩
  · cases hx

theorem reads_readEscape (h : '\\' :: c.rest <:+ text) : Reads text (readEscape c) := by
  have hc : c.Within text := (List.suffix_cons _ _).trans h
  unfold readEscape
  split
  · exact .form
  case h_2 x rest hr =>
    split
    · exact reads_readBreaks _ (within_next hc)
    · split
      · exact within_next hc
      · split
        · exact .form
        case h_2 hl _ code hcode =>
          cases hf : character code with
          | error f =>
            obtain ⟨rfl, rfl⟩ := eq_of_character_eq_error hl hcode hf
            exact .escape rest (hr ▸ h) hcode hf
          | ok y => exact within_skip _ hc
      · exact .form

theorem reads_readQuotedFrom (double : Bool) (fuel : Nat) (h : c.Within text) :
    Reads text (readQuotedFrom double fuel c) := by
  induction fuel generalizing c with
  | zero => exact .form
  | succ fuel ih =>
    have more (a : List Char × Cursor) (ha : a.2.Within text) :
        Reads text ((readQuotedFrom double fuel a.2).map fun s => (a.1 ++ s.1, s.2)) :=
      (ih ha).map fun _ hb => hb
    unfold readQuotedFrom
    dsimp only
    split
    · exact .form
    case h_2 x rest hr =>
      split
      · exact (reads_readFolded h).bind more
      · split
        · split
          · exact within_next h
          · split
            case isTrue hx =>
              refine (reads_readEscape ?_).bind more
              rw [rest_next, hr, ← hx]
              exact hr ▸ h
            case isFalse => exact more _ (within_next h)
        · split
          · split
            · exact more _ (within_skip 2 h)
            · exact within_next h
          · exact more _ (within_next h)

theorem reads_readQuoted (double : Bool) (h : c.Within text) : Reads text (readQuoted double c) :=
  reads_readQuotedFrom double _ (within_next h)

/-! ## Block scalars -/

theorem within_readEnding {e : Ending} {c' : Cursor} (h : c.Within text)
    (hr : readEnding c = some (e, c')) : c'.Within text := by
  unfold readEnding at hr
  split at hr
  · cases hr
  · obtain ⟨e, -, he⟩ := Option.map_eq_some_iff.mp hr
    cases he
    exact within_next h

theorem reads_readIncrement (h : c.Within text) : Reads text (readIncrement c) := by
  unfold readIncrement
  split
  · exact h
  · split
    · exact h
    · exact .form
    · exact within_next h

theorem reads_readHeader (h : c.Within text) : Reads text (readHeader c) := by
  have lineEnd (header : Ending × Option Nat) {c : Cursor} (hc : c.Within text) :
      Reads text (if !endsName c.rest then .error .malformed else endLine header c) := by
    split
    · exact .form
    · exact reads_endLine header hc
  unfold readHeader
  split
  case h_1 he =>
    refine Meets.bind (Q := fun a : (Ending × Option Nat) × Cursor => a.2.Within text)
      ((reads_readIncrement (within_readEnding h he)).map ?_) fun a ha => lineEnd a.1 ha
    exact fun _ ha => ha
  case h_2 =>
    refine Meets.bind (Q := fun a : (Ending × Option Nat) × Cursor => a.2.Within text)
      ((reads_readIncrement h).map ?_) fun a ha => lineEnd a.1 ha
    rintro ⟨n, c⟩ hc
    split
    case h_1 heq =>
      cases heq
      exact hc
    case h_2 _ heq =>
      cases heq
      split
      case h_1 he => exact within_readEnding hc he
      case h_2 => exact hc

theorem within_skipIndent (indent : Nat) (h : c.Within text) : (skipIndent indent c).Within text :=
  within_skip _ h

theorem within_blockBreaks (indent fuel : Nat) (h : c.Within text) :
    (blockBreaks indent fuel c).2.Within text := by
  induction fuel generalizing c with
  | zero => exact h
  | succ fuel ih =>
    simp only [blockBreaks]
    split
    · exact within_skipIndent indent h
    case h_2 hb => exact ih (within_lineBreak? (within_skipIndent indent h) hb)

theorem within_blockLead (fuel : Nat) (h : c.Within text) :
    (blockLead fuel c).2.2.Within text := by
  induction fuel generalizing c with
  | zero => exact h
  | succ fuel ih =>
    simp only [blockLead]
    split
    · exact within_dropWhile _ h
    case h_2 hb => exact ih (within_lineBreak? (within_dropWhile _ h) hb)

theorem within_readLines (folded : Bool) (ending : Ending) (indent fuel : Nat) (lead : List Char)
    (h : c.Within text) : (readLines folded ending indent fuel lead c).2.Within text := by
  induction fuel generalizing c lead with
  | zero => exact h
  | succ fuel ih =>
    unfold readLines
    split
    case h_1 line c₁ h₁ =>
      replace h₁ := within_takeWhile h h₁
      split
      case h_1 last c₂ h₂ =>
        replace h₂ : c₂.Within text := by
          split at h₂
          case h_1 hb =>
            cases h₂
            exact within_lineBreak? h₁ hb
          case h_2 =>
            cases h₂
            exact h₁
        split
        case h_1 more c₃ h₃ =>
          replace h₃ : c₃.Within text := by
            have := within_blockBreaks indent (c₂.rest.length + 1) h₂
            rwa [h₃] at this
          split
          · exact ih more h₃
          · exact h₃

theorem reads_readBlock (folded : Bool) (margin : Nat) (h : c.Within text) :
    Reads text (readBlock folded margin c) := by
  unfold readBlock
  refine (reads_readHeader (within_next h)).bind ?_
  rintro ⟨⟨ending, increment⟩, c⟩ (hc : c.Within text)
  have lines {lead : List Char} {indent : Nat} {c' : Cursor} (hc' : c'.Within text) :
      Reads text (if c'.column = indent && c'.rest ≠ [] then
        .ok (readLines folded ending indent (c'.rest.length + 1) lead c')
      else .ok (ending.apply [] lead, c')) := by
    split
    · exact within_readLines folded ending indent _ lead hc'
    · exact hc'
  cases increment with
  | none => exact lines (within_blockLead (c.rest.length + 1) hc)
  | some n => exact lines (within_blockBreaks _ (c.rest.length + 1) hc)

/-! ## Plain scalars -/

theorem within_plainBreaks (fuel : Nat) (h : c.Within text) :
    (plainBreaks fuel c).2.Within text := by
  induction fuel generalizing c with
  | zero => exact h
  | succ fuel ih =>
    simp only [plainBreaks]
    split
    · exact within_dropWhile _ h
    case h_2 hb =>
      have hc := within_lineBreak? (within_dropWhile _ h) hb
      split
      · exact hc
      · exact ih hc

theorem within_plainGap (h : c.Within text) : (plainGap c).2.2.Within text := by
  unfold plainGap
  rcases hn : c.takeWhile (· == ' ') with ⟨blanks, c₁⟩
  have h₁ := within_takeWhile h hn
  dsimp only
  split
  · exact h₁
  case h_2 hb =>
    have h₂ := within_lineBreak? h₁ hb
    split
    · exact h₂
    · split
      case h_1 hp => exact congrArg Prod.snd hp ▸ within_plainBreaks _ h₂
      case h_2 hp => exact congrArg Prod.snd hp ▸ within_plainBreaks _ h₂

theorem within_readPlainFrom (flow : Bool) (margin fuel : Nat) (gap : List Char) (broke : Bool)
    (h : c.Within text) : (readPlainFrom flow margin fuel gap broke c).2.2.Within text := by
  induction fuel generalizing c gap broke with
  | zero => exact h
  | succ fuel ih =>
    have hc := within_plainGap (within_skip (plainRun flow c.rest).length h)
    unfold readPlainFrom
    dsimp only
    split
    · exact h
    · split
      · exact hc
      · exact ih _ _ hc

theorem within_readPlain (flow : Bool) (margin : Nat) (h : c.Within text) :
    (readPlain flow margin c).2.2.Within text :=
  within_readPlainFrom flow margin _ [] false h

end Recurrence.Yaml
