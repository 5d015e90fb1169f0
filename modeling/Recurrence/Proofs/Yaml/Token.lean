import Recurrence.Proofs.Yaml.Reader

/-!
# Tokens that cannot be read

While a text is read into tokens, the place in it stays within the text and all tokens so far are
readable (`Layout.Within`).  Every step keeps this or has its fault from the text
(`Layout.steps_fetch`), so the token at which the reading of a text breaks off has its fault from the
text (**`Token.foundIn_ofText`**).
-/

namespace Recurrence.Yaml

open Cursor

namespace Layout

/-- The place lies in the text, and all tokens so far are readable. -/
structure Within (text : List Char) (s : Layout) : Prop where
  cursor : s.cursor.Within text
  readable : ∀ f, .broken f ∉ s.tokens

/-- A step of reading stays within the text, or the text accounts for its fault. -/
def Steps (text : List Char) (r : Except Fault Layout) : Prop :=
  Meets (Fault.FoundIn text) (Within text) r

variable {text : List Char} {s : Layout}

/-! ## Tokens -/

theorem Within.emit (t : Token) (ht : ∀ f, t ≠ .broken f) (h : s.Within text) :
    (s.emit t).Within text where
  cursor := h.cursor
  readable f hf := by
    rcases List.mem_cons.mp hf with hf | hf
    · exact ht f hf.symm
    · exact h.readable f hf

theorem Within.take (n : Nat) (t : Token) (ht : ∀ f, t ≠ .broken f) (h : s.Within text) :
    (s.take n t).Within text :=
  ⟨within_skip n h.cursor, (h.emit t ht).readable⟩

theorem Within.insertAt {n : Nat} {ts : List Token} (h : s.Within text)
    (ht : ∀ f, .broken f ∉ ts) : (s.insertAt n ts).Within text where
  cursor := h.cursor
  readable f hf := by
    simp only [Layout.insertAt, List.mem_append, List.mem_reverse] at hf
    rcases hf with (hf | hf) | hf
    · exact h.readable f (List.mem_of_mem_take hf)
    · exact ht f hf
    · exact h.readable f (List.mem_of_mem_drop hf)

/-! ## Keys -/

theorem meets_giveUp (k : Option KeyPlace) :
    Meets (Fault.FoundIn text) (fun _ => True) (giveUp k) := by
  unfold giveUp
  split
  · split
    · exact .form
    · trivial
  · trivial

theorem meets_giveUpOver (c : Cursor) (k : Option KeyPlace) :
    Meets (Fault.FoundIn text) (fun _ => True) (giveUpOver c k) := by
  unfold giveUpOver
  split
  · exact meets_giveUp k
  · trivial

theorem steps_expire (h : s.Within text) : Steps text s.expire := by
  refine (meets_giveUpOver _ _).bind fun key _ => ?_
  refine Meets.bind (Q := fun _ => True) ?_ fun keys _ => ⟨h.cursor, h.readable⟩
  exact (Meets.mapM fun k _ => meets_giveUpOver s.cursor k).mono (fun _ he => he) fun _ _ => trivial

theorem steps_dropKey (h : s.Within text) : Steps text s.dropKey :=
  (meets_giveUp s.key).bind fun _ _ => ⟨h.cursor, h.readable⟩

theorem steps_saveKey (h : s.Within text) : Steps text s.saveKey := by
  unfold saveKey
  split
  · exact (steps_dropKey h).bind fun s hs => ⟨hs.cursor, hs.readable⟩
  · exact h

/-! ## Blocks -/

theorem readable_closeBlocks (margin : Nat) (outer : List Nat) (m : Nat) {ts : List Token}
    (h : ∀ f, .broken f ∉ ts) (f : Fault) : .broken f ∉ (closeBlocks margin outer m ts).2.2 := by
  have close {ts : List Token} (h : ∀ f, .broken f ∉ ts) (f : Fault) :
      .broken f ∉ Token.blockEnd :: ts := by simp [h f]
  induction outer generalizing m ts with
  | nil =>
    unfold closeBlocks
    split
    · exact close h f
    · exact h f
  | cons o outer ih =>
    unfold closeBlocks
    split
    · exact ih o (close h)
    · exact h f

theorem Within.unwind (margin : Nat) (h : s.Within text) : (s.unwind margin).Within text := by
  unfold Layout.unwind
  split
  · exact h
  · exact ⟨h.cursor, readable_closeBlocks margin s.outer s.margin h.readable⟩

theorem Within.openBlock (column : Nat) (h : s.Within text) : (s.openBlock column).Within text :=
  ⟨h.cursor, h.readable⟩

theorem Within.openHere (t : Token) (ht : ∀ f, t ≠ .broken f) (h : s.Within text) :
    (s.openHere t).Within text := by
  unfold Layout.openHere
  split
  · exact (h.openBlock _).emit t ht
  · exact h

/-! ## Gaps -/

theorem within_skipGap (fuel : Nat) {c : Cursor} (h : c.Within text) :
    (skipGap fuel c).2.Within text := by
  induction fuel generalizing c with
  | zero => exact h
  | succ fuel ih =>
    simp only [skipGap]
    split
    · exact within_skipComment h
    case h_2 hb => exact ih (within_lineBreak? (within_skipComment h) hb)

theorem Within.toToken (h : s.Within text) : s.toToken.Within text := by
  unfold Layout.toToken
  refine ⟨within_skipGap _ ?_, h.readable⟩
  split
  · exact within_next h.cursor
  · exact h.cursor

/-! ## One more token -/

theorem steps_outermost (h : s.Within text) : Steps text s.outermost :=
  (steps_dropKey (h.unwind 0)).bind fun _ hs => ⟨hs.cursor, hs.readable⟩

theorem steps_fetchDirective (h : s.Within text) : Steps text s.fetchDirective := by
  refine (steps_outermost h).bind fun s hs => ?_
  refine (reads_readDirective hs.cursor).bind fun a ha => ?_
  exact ⟨ha, (hs.emit (.directive a.1) nofun).readable⟩

theorem steps_fetchMarker {t : Token} (ht : ∀ f, t ≠ .broken f) (h : s.Within text) :
    Steps text (s.fetchMarker t) :=
  (steps_outermost h).bind fun _ hs => hs.take 3 t ht

theorem steps_fetchOpening {t : Token} (ht : ∀ f, t ≠ .broken f) (h : s.Within text) :
    Steps text (s.fetchOpening t) :=
  (steps_saveKey h).bind fun _ hs => Within.take 1 t ht ⟨hs.cursor, hs.readable⟩

theorem steps_fetchClosing {t : Token} (ht : ∀ f, t ≠ .broken f) (h : s.Within text) :
    Steps text (s.fetchClosing t) := by
  refine (steps_dropKey h).bind fun s hs => ?_
  split
  · exact .form
  · exact Within.take 1 t ht ⟨hs.cursor, hs.readable⟩

theorem steps_fetchFlowEntry (h : s.Within text) : Steps text s.fetchFlowEntry :=
  (steps_dropKey h).bind fun _ hs => Within.take 1 .flowEntry nofun ⟨hs.cursor, hs.readable⟩

theorem steps_fetchBlockEntry (h : s.Within text) : Steps text s.fetchBlockEntry := by
  have entry {s : Layout} (hs : s.Within text) :
      Steps text (do
        let s ← s.dropKey
        pure ({ s with keyAllowed := true }.take 1 .blockEntry)) :=
    (steps_dropKey hs).bind fun _ hs => Within.take 1 .blockEntry nofun ⟨hs.cursor, hs.readable⟩
  unfold fetchBlockEntry
  split
  · exact entry h
  · split
    · exact entry (h.openHere .blockListStart nofun)
    · exact .form

theorem steps_fetchSign {t : Token} (ht : ∀ f, t ≠ .broken f) (h : s.Within text) :
    Steps text (s.fetchSign t) := by
  have sign {s : Layout} (hs : s.Within text) :
      Steps text (do
        let s ← dropKey { s with keyAllowed := !s.inFlow }
        pure (s.take 1 t)) := by
    refine (steps_dropKey (s := { s with keyAllowed := !s.inFlow }) ⟨hs.cursor, hs.readable⟩).bind ?_
    exact fun _ hs => hs.take 1 t ht
  unfold fetchSign
  split
  · exact sign h
  · split
    · exact sign (h.openHere .blockMapStart nofun)
    · exact .form

theorem steps_fetchValue (h : s.Within text) : Steps text s.fetchValue := by
  unfold fetchValue
  split
  · exact steps_fetchSign nofun h
  case h_2 k _ =>
    have hk : Within text { s with key := none, keyAllowed := false } := ⟨h.cursor, h.readable⟩
    dsimp only
    split
    · exact ((hk.openBlock _).insertAt (by simp)).take 1 .value nofun
    · exact (hk.insertAt (by simp)).take 1 .value nofun

theorem steps_fetchWord {α : Type} {read : Cursor → Except Fault (α × Cursor)} {t : α → Token}
    (hr : ∀ c : Cursor, c.Within text → Reads text (read c)) (ht : ∀ a f, t a ≠ .broken f)
    (h : s.Within text) : Steps text (s.fetchWord (reading read t)) := by
  refine (steps_saveKey h).bind fun s hs => ?_
  have hread : Meets (Fault.FoundIn text) (fun a => a.2.Within text ∧ ∀ f, a.1 ≠ .broken f)
      (reading read t s.cursor) := (hr s.cursor hs.cursor).map fun a ha => ⟨ha, ht a.1⟩
  exact hread.bind fun a ha => ⟨ha.1, (hs.emit a.1 ha.2).readable⟩

theorem steps_fetchBlock (folded : Bool) (h : s.Within text) : Steps text (s.fetchBlock folded) := by
  refine (steps_dropKey h).bind fun s hs => ?_
  refine (reads_readBlock folded s.margin hs.cursor).bind fun a ha => ?_
  exact ⟨ha, (hs.emit (.scalar false a.1) nofun).readable⟩

theorem steps_fetchPlain (h : s.Within text) : Steps text s.fetchPlain := by
  refine (steps_saveKey h).bind fun s hs => ?_
  exact ⟨within_readPlain _ _ hs.cursor, (hs.emit (.scalar true _) nofun).readable⟩

theorem steps_fetchAt (x : Char) (rest : List Char) (h : s.Within text) :
    Steps text (s.fetchAt x rest) := by
  refine Meets.ite (steps_fetchDirective h) ?_
  refine Meets.ite (steps_fetchMarker nofun h) ?_
  refine Meets.ite (steps_fetchMarker nofun h) ?_
  refine Meets.ite (steps_fetchOpening nofun h) ?_
  refine Meets.ite (steps_fetchOpening nofun h) ?_
  refine Meets.ite (steps_fetchClosing nofun h) ?_
  refine Meets.ite (steps_fetchClosing nofun h) ?_
  refine Meets.ite (steps_fetchFlowEntry h) ?_
  refine Meets.ite (steps_fetchBlockEntry h) ?_
  refine Meets.ite (steps_fetchSign nofun h) ?_
  refine Meets.ite (steps_fetchValue h) ?_
  refine Meets.ite (steps_fetchWord (fun _ => reads_readAnchor) nofun h) ?_
  refine Meets.ite (steps_fetchWord (fun _ => reads_readAnchor) nofun h) ?_
  refine Meets.ite (steps_fetchWord (fun _ => reads_readTag) nofun h) ?_
  refine Meets.ite (steps_fetchBlock false h) ?_
  refine Meets.ite (steps_fetchBlock true h) ?_
  refine Meets.ite (steps_fetchWord (fun _ => reads_readQuoted false) nofun h) ?_
  refine Meets.ite (steps_fetchWord (fun _ => reads_readQuoted true) nofun h) ?_
  exact Meets.ite (steps_fetchPlain h) .form

/-- **A step stays within the text, or the text accounts for its fault.** -/
theorem steps_fetch (h : s.Within text) : Steps text s.fetch := by
  refine (steps_expire h.toToken).bind fun s hs => ?_
  have hu := hs.unwind (s.cursor.column + 1)
  dsimp only
  split
  · exact (steps_outermost hu).bind fun _ hs => hs.emit .finish nofun
  · exact steps_fetchAt _ _ hu

/-! ## All tokens -/

theorem foundIn_breakOff {f g : Fault} (h : s.Within text) (hg : g.FoundIn text)
    (hf : .broken f ∈ s.breakOff g) : f.FoundIn text := by
  rw [breakOff, List.mem_reverse] at hf
  rcases List.mem_cons.mp hf with hf | hf
  · cases hf
    exact hg
  · exact absurd (List.mem_of_mem_drop hf) (h.readable f)

theorem foundIn_run {f : Fault} (fuel : Nat) (h : s.Within text)
    (hf : .broken f ∈ run fuel s) : f.FoundIn text := by
  induction fuel generalizing s with
  | zero => exact foundIn_breakOff h .form hf
  | succ fuel ih =>
    unfold run at hf
    have he := steps_expire h
    split at hf
    case h_1 e =>
      rw [e] at he
      exact foundIn_breakOff h he hf
    case h_2 s₁ e =>
      rw [e] at he
      have hs := steps_fetch (show s₁.Within text from he)
      split at hf
      case h_1 e =>
        rw [e] at hs
        exact foundIn_breakOff he hs hf
      case h_2 s₂ e =>
        rw [e] at hs
        split at hf
        · exact absurd (List.mem_reverse.mp hf) (Within.readable hs f)
        · exact ih hs hf

end Layout

/-- **A text that cannot be read on accounts for the fault.** -/
theorem Token.foundIn_ofText {s : List Char} {f : Fault} (h : .broken f ∈ Token.ofText s) :
    f.FoundIn (unifyBreaks s) := by
  unfold Token.ofText at h
  split at h
  · refine Layout.foundIn_run _ ?_ h
    exact ⟨List.suffix_refl (unifyBreaks s), fun _ => List.not_mem_nil⟩
  · cases List.mem_singleton.mp h
    exact .form

end Recurrence.Yaml
