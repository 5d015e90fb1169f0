import Recurrence.Proofs.Text.Boundary
import Recurrence.Yaml.Layout

/-!
# What is passed over

A cursor that goes on passes over the front of the text behind it (`Cursor.Passes`), and how far it came
can be told from that: its index grows by every character, and its line by every line end.

Blanks and line feeds are white space wherever they stand (`isPad`).  What ends at a place that is not
white space is read up to there: a gap between tokens (`passes_skipGap`), a plain scalar between brackets
together with the gap behind it (`readPlain_word`).
-/

namespace Recurrence.Yaml

/-! ## Passing over text -/

namespace Cursor

/-- The second place lies behind `front`, and `front` is what follows the first one. -/
def Passes (c : Cursor) (front : List Char) (c' : Cursor) : Prop :=
  c.rest = front ++ c'.rest ∧ c' = c.skip front.length

variable {c c' c'' : Cursor} {front more : List Char}

theorem skip_add (m n : Nat) (c : Cursor) : (c.skip m).skip n = c.skip (m + n) := by
  induction m generalizing c with
  | zero => rw [skip, Nat.zero_add]
  | succ m ih => rw [skip, ih, Nat.add_right_comm, skip]

theorem Passes.trans (h : c.Passes front c') (h' : c'.Passes more c'') :
    c.Passes (front ++ more) c'' := by
  refine ⟨?_, ?_⟩
  · rw [h.1, h'.1, List.append_assoc]
  · rw [h'.2, h.2, skip_add, List.length_append]

theorem passes_skip {r : List Char} (h : c.rest = front ++ r) : c.Passes front (c.skip front.length) := by
  refine ⟨?_, rfl⟩
  rw [rest_skip, h, List.drop_left]

theorem passes_next {x : Char} {r : List Char} (h : c.rest = x :: r) : c.Passes [x] c.next :=
  passes_skip (show c.rest = [x] ++ r from h)

theorem Passes.rest_eq (h : c.Passes front c') {r : List Char} (hr : c.rest = front ++ r) :
    c'.rest = r :=
  List.append_cancel_left (h.1.symm.trans hr)

theorem passes_takeWhile (p : Char → Bool) (c : Cursor) :
    c.Passes (c.rest.takeWhile p) (c.takeWhile p).2 :=
  passes_skip List.takeWhile_append_dropWhile.symm

theorem index_next {x : Char} {r : List Char} (h : c.rest = x :: r) : c.next.index = c.index + 1 := by
  unfold next
  rw [h]
  dsimp only
  split
  · rfl
  · split <;> rfl

theorem line_next {x : Char} {r : List Char} (h : c.rest = x :: r) :
    c.next.line = c.line + [x].countP isBreak := by
  unfold next
  rw [h]
  dsimp only
  rw [List.countP_singleton]
  split
  · rfl
  · split <;> rfl

theorem Passes.tail {x : Char} (h : c.Passes (x :: front) c') : c.next.Passes front c' := by
  refine ⟨?_, h.2⟩
  rw [rest_next, h.1]
  rfl

/-- Every character counts. -/
theorem Passes.index_eq (h : c.Passes front c') : c'.index = c.index + front.length := by
  induction front generalizing c with
  | nil => rw [h.2]; rfl
  | cons x front ih =>
    rw [ih h.tail, index_next h.1, List.length_cons]
    omega

/-- Every line end begins a line. -/
theorem Passes.line_eq (h : c.Passes front c') : c'.line = c.line + front.countP isBreak := by
  induction front generalizing c with
  | nil => rw [h.2]; rfl
  | cons x front ih =>
    rw [ih h.tail, line_next h.1, Nat.add_assoc, ← List.countP_append]
    rfl

end Cursor

open Cursor

/-! ## Line ends -/

section Unified

variable {r : List Char}

theorem unifyBreaks_cons {c : Char} (hc : c ≠ '\r') (hc' : c ≠ '\x85') (r : List Char) :
    unifyBreaks (c :: r) = c :: unifyBreaks r := by
  rw [unifyBreaks]
  · rintro rest rfl -
    exact hc rfl
  · exact hc
  · exact hc'

theorem unifyBreaks_word {w : List Char} (hw : ∀ c ∈ w, c ≠ '\r' ∧ c ≠ '\x85') (r : List Char) :
    unifyBreaks (w ++ r) = w ++ unifyBreaks r := by
  induction w with
  | nil => rfl
  | cons c w ih =>
    obtain ⟨hc, hc'⟩ := hw c List.mem_cons_self
    rw [List.cons_append, unifyBreaks_cons hc hc', ih fun c hc => hw c (List.mem_cons_of_mem _ hc)]
    rfl

/-- Line ends are unified on either side of a place that no line end lies across. -/
theorem unifyBreaks_append (s : List Char) (hr : r.head? ≠ some '\n') :
    unifyBreaks (s ++ r) = unifyBreaks s ++ unifyBreaks r := by
  fun_induction unifyBreaks s with
  | case1 => rfl
  | case2 rest ih => exact congrArg ('\n' :: ·) ih
  | case3 rest hrest ih =>
    have hfeed : ∀ more, rest ++ r ≠ '\n' :: more := by
      rintro more h
      cases rest with
      | nil => exact hr (congrArg List.head? h)
      | cons c rest =>
        cases h
        exact hrest _ rfl
    rw [List.cons_append, unifyBreaks, ih]
    · rfl
    · exact hfeed
  | case4 rest ih => exact congrArg ('\n' :: ·) ih
  | case5 c rest h₁ h₂ h₃ ih =>
    rw [List.cons_append, unifyBreaks_cons h₂ h₃, ih]
    rfl

theorem mem_of_mem_unifyBreaks {x : Char} {s : List Char} (hx : x ∈ unifyBreaks s) :
    x = '\n' ∨ (x ∈ s ∧ x ≠ '\r') := by
  fun_induction unifyBreaks s with
  | case1 => cases hx
  | case2 rest ih =>
    rcases List.mem_cons.1 hx with rfl | hx
    · exact .inl rfl
    · exact (ih hx).imp_right fun h =>
        ⟨List.mem_cons_of_mem _ (List.mem_cons_of_mem _ h.1), h.2⟩
  | case3 rest _ ih | case4 rest ih =>
    rcases List.mem_cons.1 hx with rfl | hx
    · exact .inl rfl
    · exact (ih hx).imp_right fun h => ⟨List.mem_cons_of_mem _ h.1, h.2⟩
  | case5 c rest _ hc _ ih =>
    rcases List.mem_cons.1 hx with rfl | hx
    · exact .inr ⟨List.mem_cons_self, hc⟩
    · exact (ih hx).imp_right fun h => ⟨List.mem_cons_of_mem _ h.1, h.2⟩

/-- A character is kept, or it is a line end and there is a line feed for it. -/
theorem mem_unifyBreaks {x : Char} {s : List Char} (hx : x ∈ s) :
    x ∈ unifyBreaks s ∨ ((x = '\r' ∨ x = '\x85') ∧ '\n' ∈ unifyBreaks s) := by
  fun_induction unifyBreaks s with
  | case1 => cases hx
  | case2 rest ih =>
    simp only [List.mem_cons] at hx ⊢
    rcases hx with rfl | rfl | hx
    · exact .inr ⟨.inl rfl, .inl trivial⟩
    · exact .inl (.inl rfl)
    · exact (ih hx).imp .inr fun h => ⟨h.1, .inr h.2⟩
  | case3 rest _ ih | case4 rest ih =>
    simp only [List.mem_cons] at hx ⊢
    rcases hx with rfl | hx
    · exact .inr ⟨by decide, .inl trivial⟩
    · exact (ih hx).imp .inr fun h => ⟨h.1, .inr h.2⟩
  | case5 c rest _ _ _ ih =>
    simp only [List.mem_cons] at hx ⊢
    rcases hx with rfl | hx
    · exact .inl (.inl rfl)
    · exact (ih hx).imp .inr fun h => ⟨h.1, .inr h.2⟩

end Unified

/-! ## White space -/

/-- White space wherever it stands. -/
def isPad (c : Char) : Bool := c == ' ' || c == '\n'

/-- A token may begin here: no white space, line end, comment or mark of byte order comes next. -/
def Stops (r : List Char) : Prop :=
  ∀ x ∈ r.head?, x ≠ ' ' ∧ isBreak x = false ∧ x ≠ '#' ∧ x ≠ '\ufeff'

theorem eq_feed_of_isPad {x : Char} (h : isPad x = true) (hx : x ≠ ' ') : x = '\n' := by
  simp only [isPad, Bool.or_eq_true, beq_iff_eq] at h
  exact h.resolve_left hx

/-- White space is blanks, and then nothing or a line feed and white space. -/
theorem pads_cases {pads : List Char} (h : ∀ x ∈ pads, isPad x = true) :
    ∃ blanks, (∀ x ∈ blanks, (x == ' ') = true) ∧
      (pads = blanks ∨ ∃ more, pads = blanks ++ '\n' :: more ∧ ∀ x ∈ more, isPad x = true) := by
  refine ⟨pads.takeWhile (· == ' '), List.all_eq_true.1 List.all_takeWhile, ?_⟩
  have happend := pads.takeWhile_append_dropWhile (p := (· == ' '))
  cases hrest : pads.dropWhile (· == ' ') with
  | nil =>
    rw [hrest, List.append_nil] at happend
    exact .inl happend.symm
  | cons x more =>
    rw [hrest] at happend
    have hmem : ∀ y ∈ x :: more, isPad y = true := fun y hy =>
      h y (happend ▸ List.mem_append_right _ hy)
    have hx : ¬(x == ' ') = true := by
      have := List.head_dropWhile_not (· == ' ') (l := pads) (by rw [hrest]; exact nofun)
      simpa [hrest] using this
    have hfeed := eq_feed_of_isPad (hmem x List.mem_cons_self) fun h => hx (beq_iff_eq.2 h)
    rw [hfeed] at happend
    exact .inr ⟨more, happend.symm, fun y hy => hmem y (List.mem_cons_of_mem x hy)⟩

section Gaps

variable {c : Cursor} {r : List Char}

/-- Blanks up to something else are taken as a whole. -/
theorem takeWhile_blanks {blanks : List Char} (hblanks : ∀ x ∈ blanks, (x == ' ') = true)
    (hr : ∀ x ∈ r.head?, x ≠ ' ') (hc : c.rest = blanks ++ r) :
    c.takeWhile (· == ' ') = (blanks, c.skip blanks.length) := by
  have htaken : c.rest.takeWhile (· == ' ') = blanks := by
    rw [hc]
    exact Text.takeWhile_run hblanks fun x hx => beq_eq_false_iff_ne.2 (hr x hx)
  rw [takeWhile, htaken]

theorem lineBreak?_feed (h : c.rest = '\n' :: r) : c.lineBreak? = some ('\n', c.next) := by
  rw [lineBreak?, h]
  rfl

theorem lineBreak?_of_stops (h : ∀ x ∈ c.rest.head?, isBreak x = false) : c.lineBreak? = none := by
  unfold lineBreak?
  cases hrest : c.rest with
  | nil => rfl
  | cons x r =>
    rw [hrest] at h
    simp only [h x rfl, Bool.false_eq_true, if_false]

theorem skipComment_blanks {blanks : List Char} (hblanks : ∀ x ∈ blanks, (x == ' ') = true)
    (hr : ∀ x ∈ r.head?, x ≠ ' ' ∧ x ≠ '#') (hc : c.rest = blanks ++ r) :
    c.skipComment = c.skip blanks.length := by
  have hdrop : c.dropWhile (· == ' ') = c.skip blanks.length := by
    rw [Cursor.dropWhile, takeWhile_blanks hblanks (fun x hx => (hr x hx).1) hc]
  have hrest : (c.skip blanks.length).rest = r := by
    rw [rest_skip, hc, List.drop_left]
  unfold skipComment
  rw [hdrop]
  dsimp only
  split
  case h_1 h =>
    rw [hrest] at h
    exact absurd rfl (hr '#' (by rw [h]; rfl)).2
  case h_2 => rfl

/-- **A gap between tokens is passed over.** -/
theorem passes_skipGap {pads : List Char} {fuel : Nat} (hpads : ∀ x ∈ pads, isPad x = true)
    (hr : Stops r) (hc : c.rest = pads ++ r) (hfuel : pads.length < fuel) :
    c.Passes pads (Layout.skipGap fuel c).2 := by
  induction fuel generalizing c pads with
  | zero => exact absurd hfuel (Nat.not_lt_zero _)
  | succ fuel ih =>
    obtain ⟨blanks, hblanks, rfl | ⟨more, rfl, hmore⟩⟩ := pads_cases hpads
    · -- nothing but blanks, behind which no line ends
      have hcomment := skipComment_blanks hblanks (fun x hx => ⟨(hr x hx).1, (hr x hx).2.2.1⟩) hc
      have hpass := passes_skip hc
      have hbreak : (c.skip pads.length).lineBreak? = none := by
        refine lineBreak?_of_stops ?_
        rw [hpass.rest_eq hc]
        exact fun x hx => (hr x hx).2.1
      rw [Layout.skipGap, hcomment, hbreak]
      exact hpass
    · rw [List.append_assoc, List.cons_append] at hc
      have hcomment := skipComment_blanks (r := '\n' :: (more ++ r)) hblanks
        (by rintro _ ⟨⟩; decide) hc
      have hpass := passes_skip hc
      have hrest := hpass.rest_eq hc
      have hnext := passes_next hrest
      have hgo := ih hmore (hnext.rest_eq hrest) (by
        simp only [List.length_append, List.length_cons] at hfuel
        omega)
      rw [Layout.skipGap, hcomment, lineBreak?_feed hrest]
      have hall := (hpass.trans hnext).trans hgo
      rwa [List.append_assoc] at hall

/-- The next token is looked for behind the gap.  Out of brackets a line end there allows for a key. -/
theorem exists_toToken {s : Layout} {pads : List Char} (hpads : ∀ x ∈ pads, isPad x = true)
    (hr : Stops r) (hc : s.cursor.rest = pads ++ r) :
    ∃ c' allowed, s.cursor.Passes pads c' ∧
      s.toToken = { s with cursor := c', keyAllowed := s.keyAllowed || allowed } := by
  have hmark : ∀ rest, s.cursor.rest ≠ '\ufeff' :: rest := by
    intro rest h
    rw [hc] at h
    cases pads with
    | nil => exact (hr '\ufeff' (by rw [show r = _ from h]; rfl)).2.2.2 rfl
    | cons x pads =>
      have hx := hpads x List.mem_cons_self
      rw [(List.cons.inj h).1] at hx
      exact absurd hx (by decide)
  have hpass : s.cursor.Passes pads (Layout.skipGap (s.cursor.rest.length + 1) s.cursor).2 := by
    refine passes_skipGap hpads hr hc ?_
    rw [hc, List.length_append]
    omega
  refine ⟨_, (Layout.skipGap (s.cursor.rest.length + 1) s.cursor).1 && !s.inFlow, hpass, ?_⟩
  unfold Layout.toToken
  split
  case h_1 h => exact absurd h (hmark _)
  case h_2 => rfl

/-! ## Plain scalars between brackets -/

/-- What may follow the gap behind a plain scalar: a sign that ends it, or a tab. -/
def ClosesWord (r : List Char) : Prop := ∀ x ∈ r.head?, x ∈ [',', ']', '\x7d', '\t']

theorem ClosesWord.stops (h : ClosesWord r) : Stops r := by
  intro x hx
  have hmem := h x hx
  revert x
  simp only [List.mem_cons, List.not_mem_nil, or_false]
  rintro x - (rfl | rfl | rfl | rfl) <;> decide

theorem atMarker_eq_false {s : List Char} (h : ∀ x ∈ s.head?, x ≠ '-' ∧ x ≠ '.') :
    atMarker s = false := by
  unfold atMarker
  split
  case h_1 => exact absurd rfl (h '-' rfl).1
  case h_2 => exact absurd rfl (h '.' rfl).2
  case h_3 => rfl

/-- The first character behind a plain scalar, with a gap or without one. -/
theorem ClosesWord.head_of_all {pads : List Char} {p : Char → Bool}
    (hp : [' ', '\n', ',', ']', '\x7d', '\t'].all p = true) (hpads : ∀ x ∈ pads, isPad x = true)
    (hr : ClosesWord r) : ∀ x ∈ (pads ++ r).head?, p x = true := by
  intro x hx
  apply List.all_eq_true.1 hp
  cases pads with
  | nil => exact List.mem_append_right [' ', '\n'] (hr x hx)
  | cons y pads =>
    cases hx
    have hpad := hpads x List.mem_cons_self
    simp only [isPad, Bool.or_eq_true, beq_iff_eq] at hpad
    rcases hpad with rfl | rfl <;> decide

theorem not_marker {pads : List Char} (hpads : ∀ x ∈ pads, isPad x = true) (hr : ClosesWord r) :
    atMarker (pads ++ r) = false := by
  refine atMarker_eq_false fun x hx => ?_
  have hhead := hr.head_of_all (p := fun x => x != '-' && x != '.') (by decide) hpads x hx
  rwa [Bool.and_eq_true, bne_iff_ne, bne_iff_ne] at hhead

theorem passes_plainBreaks {pads : List Char} {fuel : Nat} (hpads : ∀ x ∈ pads, isPad x = true)
    (hr : ClosesWord r) (hc : c.rest = pads ++ r) (hfuel : pads.length < fuel) :
    ∃ breaks, (plainBreaks fuel c).1 = some breaks ∧ c.Passes pads (plainBreaks fuel c).2 := by
  induction fuel generalizing c pads with
  | zero => exact absurd hfuel (Nat.not_lt_zero _)
  | succ fuel ih =>
    obtain ⟨blanks, hblanks, rfl | ⟨more, rfl, hmore⟩⟩ := pads_cases hpads
    · have hdrop : c.dropWhile (· == ' ') = c.skip pads.length := by
        rw [Cursor.dropWhile, takeWhile_blanks hblanks (fun x hx => (hr.stops x hx).1) hc]
      have hpass := passes_skip hc
      have hbreak : (c.skip pads.length).lineBreak? = none := by
        refine lineBreak?_of_stops ?_
        rw [hpass.rest_eq hc]
        exact fun x hx => (hr.stops x hx).2.1
      rw [plainBreaks, hdrop]
      dsimp only
      rw [hbreak]
      exact ⟨[], rfl, hpass⟩
    · rw [List.append_assoc, List.cons_append] at hc
      have hdrop : c.dropWhile (· == ' ') = c.skip blanks.length := by
        rw [Cursor.dropWhile, takeWhile_blanks hblanks (by rintro _ ⟨⟩; decide) hc]
      have hpass := passes_skip hc
      have hrest := hpass.rest_eq hc
      have hnext := passes_next hrest
      have hmarker : atMarker (c.skip blanks.length).next.rest = false := by
        rw [hnext.rest_eq hrest]
        exact not_marker hmore hr
      obtain ⟨breaks, hbreaks, hgo⟩ := ih hmore (hnext.rest_eq hrest) (by
        simp only [List.length_append, List.length_cons] at hfuel
        omega)
      have hall := (hpass.trans hnext).trans hgo
      rw [List.append_assoc] at hall
      rw [plainBreaks, hdrop]
      dsimp only
      rw [lineBreak?_feed hrest]
      dsimp only
      rw [hmarker]
      exact ⟨'\n' :: breaks, congrArg (Option.map _) hbreaks, hall⟩

theorem passes_plainGap {pads : List Char} (hpads : ∀ x ∈ pads, isPad x = true)
    (hr : ClosesWord r) (hc : c.rest = pads ++ r) : c.Passes pads (plainGap c).2.2 := by
  obtain ⟨blanks, hblanks, rfl | ⟨more, rfl, hmore⟩⟩ := pads_cases hpads
  · have hpass := passes_skip hc
    have hbreak : (c.skip pads.length).lineBreak? = none := by
      refine lineBreak?_of_stops ?_
      rw [hpass.rest_eq hc]
      exact fun x hx => (hr.stops x hx).2.1
    rw [plainGap, takeWhile_blanks hblanks (fun x hx => (hr.stops x hx).1) hc]
    dsimp only
    rw [hbreak]
    exact hpass
  · rw [List.append_assoc, List.cons_append] at hc
    have hpass := passes_skip hc
    have hrest := hpass.rest_eq hc
    have hnext := passes_next hrest
    have hmarker : atMarker (c.skip blanks.length).next.rest = false := by
      rw [hnext.rest_eq hrest]
      exact not_marker hmore hr
    have hlength : more.length < (c.skip blanks.length).next.rest.length + 1 := by
      rw [hnext.rest_eq (r := more ++ r) hrest, List.length_append]
      omega
    obtain ⟨breaks, hbreaks, hgo⟩ := passes_plainBreaks hmore hr (hnext.rest_eq hrest) hlength
    have hall := (hpass.trans hnext).trans hgo
    rw [List.append_assoc] at hall
    rw [plainGap, takeWhile_blanks hblanks (by rintro _ ⟨⟩; decide) hc]
    dsimp only
    rw [lineBreak?_feed hrest]
    dsimp only
    rw [hmarker, if_neg Bool.false_ne_true]
    split
    case h_1 c' h =>
      rw [h] at hall
      exact hall
    case h_2 more' c' h =>
      rw [h] at hall
      exact hall

/-- A character of a plain scalar that ends it nowhere. -/
def isWordChar (x : Char) : Bool := !isGap x && x != ':' && !isFlowSign x

theorem plainRun_word {w s : List Char} (hw : ∀ x ∈ w, isWordChar x = true)
    (hs : ∀ x ∈ s.head?, isGap x = true ∨ isFlowSign x = true) : plainRun true (w ++ s) = w := by
  induction w with
  | nil =>
    cases s with
    | nil => rfl
    | cons x s =>
      rw [List.nil_append, plainRun]
      refine if_pos ?_
      rcases hs x rfl with h | h <;> simp [h]
  | cons x w ih =>
    have hx := hw x List.mem_cons_self
    simp only [isWordChar, Bool.and_eq_true, Bool.not_eq_true', bne_iff_ne, ne_eq] at hx
    obtain ⟨⟨hgap, hcolon⟩, hflow⟩ := hx
    rw [List.cons_append, plainRun, ih fun y hy => hw y (List.mem_cons_of_mem x hy)]
    refine if_neg ?_
    simp [hgap, hcolon, hflow]

theorem ClosesWord.ends {pads : List Char} (hpads : ∀ x ∈ pads, isPad x = true) (hr : ClosesWord r) :
    ∀ x ∈ (pads ++ r).head?, isGap x = true ∨ isFlowSign x = true := by
  intro x hx
  have hhead := hr.head_of_all (p := fun x => isGap x || isFlowSign x) (by decide) hpads x hx
  rwa [Bool.or_eq_true] at hhead

/-- **A plain scalar is read together with the gap behind it.** -/
theorem readPlain_word {w pads : List Char} (hw : ∀ x ∈ w, isWordChar x = true)
    (hhead : ∃ x s, w = x :: s ∧ x ≠ '#') (hpads : ∀ x ∈ pads, isPad x = true) (hr : ClosesWord r)
    (hc : c.rest = w ++ (pads ++ r)) (margin : Nat) :
    ∃ broke c', readPlain true margin c = (w, broke, c') ∧ c.Passes (w ++ pads) c' := by
  obtain ⟨x, s, rfl, hx⟩ := hhead
  have hrun : plainRun true c.rest = x :: s := by
    rw [hc]
    exact plainRun_word hw (hr.ends hpads)
  have hpass := passes_skip hc
  have hgap := passes_plainGap hpads hr (hpass.rest_eq hc)
  -- behind the gap no more of the scalar follows
  have hnone : plainRun true (plainGap (c.skip (x :: s).length)).2.2.rest = [] := by
    rw [hgap.rest_eq (hpass.rest_eq hc)]
    exact plainRun_word (List.forall_mem_nil _) (ClosesWord.ends (List.forall_mem_nil _) hr)
  have hover (fuel : Nat) (gap : List Char) (broke : Bool) :
      readPlainFrom true margin fuel gap broke (plainGap (c.skip (x :: s).length)).2.2 =
        ([], broke, (plainGap (c.skip (x :: s).length)).2.2) := by
    cases fuel with
    | zero => rfl
    | succ fuel =>
      rw [readPlainFrom, hnone]
      rfl
  have hlength : c.rest.length = (s ++ (pads ++ r)).length + 1 := congrArg List.length hc
  have hstart : ¬((x :: s = [] || (x :: s).head? = some '#') = true) := by
    simp [hx]
  refine ⟨(plainGap (c.skip (x :: s).length)).2.1, _, ?_, hpass.trans hgap⟩
  rw [readPlain, hlength, readPlainFrom, hrun]
  dsimp only
  rw [if_neg hstart]
  split
  · rfl
  · rw [hover]
    simp

end Gaps

end Recurrence.Yaml
