import Recurrence.Proofs.Json.Style
import Recurrence.Proofs.Json.Unified

/-!
# The tokens of a JSON text as a document

A JSON text is read token by token, each value of it between its brackets (`Tree.scans`), unless there is
a tab between two of its signs: reading breaks off there.  A label that is near its colon is told to be
a key, and one that is not near is not (`Label.tokens`).

* `Tree.tokens`: the tokens of a value
* **`Document.ofText_eq`, `Document.finish_not_mem`**: the tokens of a text, or how it breaks off
-/

namespace Recurrence.Json

open Text Yaml Yaml.Cursor Yaml.Layout

/-! ## Tokens -/

/-- The tokens of a label: it is a key only if it is near its colon. -/
def Label.tokens (l : Label) : List Yaml.Token :=
  labelTokens (isNear (quoted l.name).length l.colon.chars) (.scalar false (l.name.map Piece.char))

mutual

def Tree.tokens : Tree → List Yaml.Token
  | .null => [.scalar true "null".toList]
  | .bool true => [.scalar true "true".toList]
  | .bool false => [.scalar true "false".toList]
  | .number n => [.scalar true n.chars]
  | .text ps => [.scalar false (ps.map Piece.char)]
  | .emptyList _ => [.flowListStart, .flowListEnd]
  | .list _ items => .flowListStart :: items.tokens
  | .emptyMap _ => [.flowMapStart, .flowMapEnd]
  | .map _ members => .flowMapStart :: members.tokens

def Items.tokens : Items → List Yaml.Token
  | .last t _ => t.tokens ++ [.flowListEnd]
  | .more t _ _ rest => t.tokens ++ .flowEntry :: rest.tokens

def Members.tokens : Members → List Yaml.Token
  | .last l t _ => l.tokens ++ (t.tokens ++ [.flowMapEnd])
  | .more l t _ _ rest => l.tokens ++ (t.tokens ++ .flowEntry :: rest.tokens)

end

/-- No gap has a tab in it. -/
def Style.tabless : Style where
  gap g := !g.chars.contains '\t'

/-! ## Reading on -/

section Reading

variable {s : Layout} {depth : Nat} {ts : List Yaml.Token} {r : List Char}

theorem scans_gap (g : Gap) (hs : s.At depth ts (g.unified ++ r)) :
    Scans (Style.tabless.gap g) (fun s' => s' = s ∧ s'.At depth ts r) s := by
  have h := Layout.scans_gap hs g.pad_or_tab
  rwa [g.all_isPad] at h

/-- **A label is read**, with the colon and the gap behind it. -/
theorem Label.scans (l : Label) (hs : s.At (depth + 1) ts (l.chars Gap.unified ++ r))
    (hallowed : s.keyAllowed = true) :
    Scans (l.keeps Style.tabless) (fun s' => s'.At (depth + 1) (ts ++ l.tokens) r) s := by
  have hs' : s.At (depth + 1) ts
      (quoted l.name ++ (l.colon.unified ++ ':' :: (l.before.unified ++ r))) := by
    simpa only [Label.chars, List.append_assoc, List.cons_append] using hs
  have hlabel := scans_label hs' hallowed (fun c hc => readQuoted_quoted l.name hc)
    (fun x hx => isBreak_of_bounds (mem_quoted hx)) l.colon.pad_or_tab
  rw [l.colon.all_isPad, l.colon.isNear_unified] at hlabel
  exact hlabel.bind fun s₁ h₁ => (scans_gap l.before h₁).mono fun _ h₂ => h₂.2

/-- What begins with a letter begins a plain scalar. -/
theorem beginsWord_letter {x : Char} (hx : x ∈ ['n', 't', 'f']) : x ≠ '\ufeff' ∧ BeginsWord x r := by
  simp only [List.mem_cons, List.not_mem_nil, or_false] at hx
  rcases hx with rfl | rfl | rfl
  all_goals exact ⟨by decide, .inl (by decide)⟩

theorem beginsWord_digit {x : Char} (hx : isAsciiDigit x = true) :
    x ≠ '\ufeff' ∧ isGap x = false ∧ isIndicator x = false ∧ x ≠ '.' := by
  have hall := forall_digit (p := fun x => x != '\ufeff' && !isGap x && !isIndicator x && x != '.')
    (by decide) hx
  simpa [and_assoc] using hall

theorem Numeral.beginsWord (n : Numeral) (r : List Char) :
    ∃ x w, n.chars = x :: w ∧ x ≠ '\ufeff' ∧ BeginsWord x (w ++ r) := by
  obtain ⟨d, s, hs, hd⟩ := n.exists_digit
  obtain ⟨hmark, hgap, hind, hdot⟩ := beginsWord_digit hd
  rw [Numeral.chars, hs]
  cases n.negative with
  | true =>
    exact ⟨'-', d :: s, rfl, by decide, .inr ⟨rfl, d, s ++ r, rfl, ne_of_digit hd (by decide), hgap⟩⟩
  | false => exact ⟨d, s, rfl, hmark, .inl ⟨hgap, hind, hdot⟩⟩

/-- A word is read. -/
theorem scans_word {w : List Char} (hs : s.At depth ts (w ++ r))
    (hw : w.all isWordChar = true)
    (hbegins : ∃ x w', w = x :: w' ∧ x ≠ '\ufeff' ∧ BeginsWord x (w' ++ r))
    (hr : 0 < depth ∧ ClosesWord (dropPads r)) :
    Scans true (fun s' => s'.At depth (ts ++ [.scalar true w]) r) s := by
  obtain ⟨x, w', rfl, hmark, hbegins⟩ := hbegins
  obtain ⟨depth, rfl⟩ : ∃ d, depth = d + 1 := ⟨depth - 1, by omega⟩
  obtain ⟨s', hstep, hs'⟩ := exists_step_word hs hbegins (List.all_eq_true.1 hw) hmark hr.2
  exact hstep.scans (scans_of hs')

/-- A scalar that is not quoted. -/
def Tree.isWord : Tree → Bool
  | .null => true
  | .bool _ => true
  | .number _ => true
  | _ => false

/-- A sign behind a gap ends a word between brackets. -/
theorem closes_gap (g : Gap) {x : Char} (hx : x ∈ [',', ']', '\x7d']) :
    0 < depth + 1 ∧ ClosesWord (dropPads (g.unified ++ x :: r)) :=
  ⟨Nat.succ_pos depth, closesWord_gap g.pad_or_tab hx⟩

theorem scans_closing {t : Yaml.Token} {x : Char} (g : Gap)
    (hs : s.At (depth + 1) ts (g.unified ++ x :: r)) (hstops : Stops (x :: r))
    (hx : ∀ s₁ : Layout, s₁.fetchAt x r = s₁.fetchClosing t) (ht : t ≠ .finish) :
    Scans (Style.tabless.gap g) (fun s' => s'.At depth (ts ++ [t]) r) s :=
  (scans_gap g hs).step fun _ h => exists_step_closing h.2 hstops hx ht

theorem scans_comma (g next : Gap) (hs : s.At depth ts (g.unified ++ ',' :: (next.unified ++ r))) :
    Scans (Style.tabless.gap g && Style.tabless.gap next)
      (fun s' => s'.At depth (ts ++ [.flowEntry]) r ∧ s'.keyAllowed = true) s := by
  have hcomma := (scans_gap g hs).step fun _ h => exists_step_comma h.2
  refine hcomma.bind fun s₁ h₁ => (scans_gap next h₁.1).mono fun s₂ h₂ => ⟨h₂.2, ?_⟩
  rw [h₂.1]
  exact h₁.2

mutual

/-- **A value is read** as its tokens; a word has to stand between brackets, with a sign behind it. -/
theorem Tree.scans {s : Layout} {depth : Nat} {ts : List Yaml.Token} {r : List Char} :
    (t : Tree) → s.At depth ts (t.chars Gap.unified ++ r) →
      (t.isWord = true → 0 < depth ∧ ClosesWord (dropPads r)) →
      Scans (t.keeps Style.tabless) (fun s' => s'.At depth (ts ++ t.tokens) r) s
  | .null, hs, hword =>
    scans_word hs (by decide) ⟨'n', _, rfl, beginsWord_letter (by decide)⟩ (hword rfl)
  | .bool true, hs, hword =>
    scans_word hs (by decide) ⟨'t', _, rfl, beginsWord_letter (by decide)⟩ (hword rfl)
  | .bool false, hs, hword =>
    scans_word hs (by decide) ⟨'f', _, rfl, beginsWord_letter (by decide)⟩ (hword rfl)
  | .number n, hs, hword => scans_word hs (List.all_eq_true.2 n.isWordChar) (n.beginsWord r) (hword rfl)
  | .text ps, hs, _ => by
    obtain ⟨s', -, hstep, hs', -⟩ := exists_step_quoted hs fun c hc => readQuoted_quoted ps hc
    exact hstep.scans (scans_of hs')
  | .emptyList gap, hs, _ => by
    simp only [Tree.chars, List.cons_append, List.append_assoc, List.nil_append] at hs
    obtain ⟨s₁, hstep, h₁, -⟩ := exists_step_opening hs (by rintro _ ⟨⟩; decide) (fun _ => rfl) nofun
    have hclose := scans_closing gap h₁ (by rintro _ ⟨⟩; decide) (fun _ => rfl) nofun
    exact hstep.scans (hclose.mono fun _ h => h.congr (List.append_assoc ..))
  | .list gap items, hs, _ => by
    simp only [Tree.chars, List.cons_append, List.append_assoc] at hs
    obtain ⟨s₁, hstep, h₁, -⟩ := exists_step_opening hs (by rintro _ ⟨⟩; decide) (fun _ => rfl) nofun
    have hitems := (scans_gap gap h₁).bind fun _ h₂ => items.scans h₂.2
    exact hstep.scans (hitems.mono fun _ h => h.congr (List.append_assoc ..))
  | .emptyMap gap, hs, _ => by
    simp only [Tree.chars, List.cons_append, List.append_assoc, List.nil_append] at hs
    obtain ⟨s₁, hstep, h₁, -⟩ := exists_step_opening hs (by rintro _ ⟨⟩; decide) (fun _ => rfl) nofun
    have hclose := scans_closing gap h₁ (by rintro _ ⟨⟩; decide) (fun _ => rfl) nofun
    exact hstep.scans (hclose.mono fun _ h => h.congr (List.append_assoc ..))
  | .map gap members, hs, _ => by
    simp only [Tree.chars, List.cons_append, List.append_assoc] at hs
    obtain ⟨s₁, hstep, h₁, hallowed⟩ :=
      exists_step_opening hs (by rintro _ ⟨⟩; decide) (fun _ => rfl) nofun
    have hmembers := (scans_gap gap h₁).bind fun _ h₂ =>
      members.scans h₂.2 (by rw [h₂.1]; exact hallowed)
    exact hstep.scans (hmembers.mono fun _ h => h.congr (List.append_assoc ..))

theorem Items.scans {s : Layout} {depth : Nat} {ts : List Yaml.Token} {r : List Char} :
    (items : Items) → s.At (depth + 1) ts (items.chars Gap.unified ++ r) →
      Scans (items.keeps Style.tabless) (fun s' => s'.At depth (ts ++ items.tokens) r) s
  | .last t gap, hs => by
    simp only [Items.chars, List.append_assoc, List.cons_append, List.nil_append] at hs
    have ht := t.scans hs fun _ => closes_gap gap (by decide)
    have hclose := ht.bind fun _ h =>
      scans_closing gap h (by rintro _ ⟨⟩; decide) (fun _ => rfl) nofun
    exact hclose.mono fun _ h => h.congr (List.append_assoc ..)
  | .more t gap next rest, hs => by
    simp only [Items.chars, List.append_assoc, List.cons_append] at hs
    have ht := t.scans hs fun _ => closes_gap gap (by decide)
    have hrest := ht.bind fun _ h => (scans_comma gap next h).bind fun _ h => rest.scans h.1
    rw [Bool.and_assoc] at hrest
    exact hrest.mono fun _ h => h.congr (by simp only [Items.tokens, List.append_assoc]; rfl)

theorem Members.scans {s : Layout} {depth : Nat} {ts : List Yaml.Token} {r : List Char} :
    (members : Members) → s.At (depth + 1) ts (members.chars Gap.unified ++ r) →
      s.keyAllowed = true →
      Scans (members.keeps Style.tabless) (fun s' => s'.At depth (ts ++ members.tokens) r) s
  | .last l t gap, hs, hallowed => by
    simp only [Members.chars, List.append_assoc, List.cons_append, List.nil_append] at hs
    have ht := (l.scans hs hallowed).bind fun _ h =>
      t.scans h fun _ => closes_gap gap (by decide)
    have hclose := ht.bind fun _ h =>
      scans_closing gap h (by rintro _ ⟨⟩; decide) (fun _ => rfl) nofun
    rw [Bool.and_assoc] at hclose
    exact hclose.mono fun _ h => h.congr (by simp only [Members.tokens, List.append_assoc])
  | .more l t gap next rest, hs, hallowed => by
    simp only [Members.chars, List.append_assoc, List.cons_append] at hs
    have ht := (l.scans hs hallowed).bind fun _ h =>
      t.scans h fun _ => closes_gap gap (by decide)
    have hrest := ht.bind fun _ h =>
      (scans_comma gap next h).bind fun _ h => rest.scans h.1 h.2
    rw [Bool.and_assoc, Bool.and_assoc] at hrest
    exact hrest.mono fun _ h => h.congr (by simp only [Members.tokens, List.append_assoc]; rfl)

end

end Reading

/-! ## Whole texts -/

/-- The document of a text whose value is quoted or between brackets. -/
theorem Document.scans (d : Document) (hroot : d.root.isWord = false) :
    Scans (d.keeps Style.tabless) (fun s' => s'.At 0 d.root.tokens [])
      { cursor := { rest := d.chars Gap.unified } } := by
  have hstart : Layout.At { cursor := { rest := d.chars Gap.unified } } 0 []
      (d.before.unified ++ (d.root.chars Gap.unified ++ d.after.unified)) :=
    ⟨rfl, rfl, free_none, nofun, rfl, rfl, nofun, rfl⟩
  have hword : d.root.isWord = true → 0 < 0 ∧ ClosesWord (dropPads d.after.unified) := by
    rw [hroot]
    nofun
  refine (scans_gap d.before hstart).bind fun _ h => (d.root.scans h.2 hword).bind fun _ h => ?_
  rw [← List.append_nil d.after.unified] at h
  exact (scans_gap d.after h).mono fun _ h => h.2

/-- **The tokens of a text** without tabs between its signs. -/
theorem Document.ofText_eq {d : Document} (hroot : d.root.isWord = false)
    (hallowed : (d.chars Gap.chars).all isAllowed = true) (hd : d.keeps Style.tabless = true) :
    Yaml.Token.ofText (d.chars Gap.chars) = d.root.tokens ++ [.finish] := by
  have hscans := d.scans hroot
  rw [hd] at hscans
  obtain ⟨s, hleads, hs⟩ := hscans
  rw [Yaml.Token.ofText, if_pos hallowed, d.unifyBreaks_chars]
  exact completes_of_leads hleads (completes_end hs) _ (Nat.lt_succ_self _)

/-- A text with a tab between its signs, or with a character that no document holds, breaks off. -/
theorem Document.finish_not_mem {d : Document} (hroot : d.root.isWord = false)
    (hd : ¬((d.chars Gap.chars).all isAllowed = true ∧ d.keeps Style.tabless = true)) :
    .finish ∉ Yaml.Token.ofText (d.chars Gap.chars) := by
  rw [Yaml.Token.ofText]
  split
  case isTrue hallowed =>
    have hscans := d.scans hroot
    rw [Bool.eq_false_iff.2 fun h => hd ⟨hallowed, h⟩] at hscans
    rw [d.unifyBreaks_chars]
    exact hscans _
  case isFalse => simp

end Recurrence.Json
