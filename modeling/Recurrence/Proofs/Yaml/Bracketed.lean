import Recurrence.Proofs.Yaml.Flow

/-!
# Each token between brackets

What is read next between brackets, for every sign that a value may begin with and those between values.
A token is read behind a gap of blanks and line feeds; a tab in the gap breaks reading off
(`scans_gap`).

* `exists_step_opening`, `exists_step_closing`, `exists_step_comma`: the signs
* `exists_step_quoted`, `exists_step_word`: scalars
* `exists_step_colon`: the sign of a value, which makes a scalar near it a key
* `completes_end`: the end of the text
-/

namespace Recurrence.Yaml

open Cursor

namespace Layout

variable {s s' s₁ : Layout} {depth : Nat} {ts : List Token} {r : List Char} {x : Char}

/-! ## Steps -/

theorem At.finish_not_mem (h : s.At depth ts r) : .finish ∉ s.tokens := by
  rw [h.tokens, List.mem_reverse]
  exact h.unfinished

theorem Settles.length_lt (h : s.Settles depth ts (x :: r) s₁) :
    r.length < s.cursor.rest.length := by
  obtain ⟨pads, -, hpass⟩ := h.passes
  rw [hpass.1, h.rest, List.length_append, List.length_cons]
  omega

/-- What is read where a gap has ended is a step. -/
theorem Settles.step {depth' : Nat} {ts' : List Token} {r' r'' : List Char} (hs : s.At depth ts r')
    (h : s.Settles depth ts (x :: r) s₁) (hfetch : s₁.fetchAt x r = .ok s')
    (hs' : s'.At depth' ts' r'') (hrest : s'.cursor.rest.length ≤ r.length) : Step s s' where
  advance := h.advance.trans hfetch
  shorter := Nat.lt_of_le_of_lt hrest h.length_lt
  before := hs.finish_not_mem
  after := hs'.finish_not_mem

theorem stuck_of_fetchAt {r' : List Char} (hs : s.At depth ts r') {f : Fault}
    (h : s.Settles depth ts (x :: r) s₁) (hfetch : s₁.fetchAt x r = .error f) : Stuck s :=
  stuck_of_error hs.finish_not_mem (h.advance.trans hfetch)

theorem At.inFlow (h : s.At (depth + 1) ts r) : s.inFlow = true := by
  cases hkeys : s.outerKeys with
  | nil =>
    have hdepth := h.depth
    rw [hkeys] at hdepth
    cases hdepth
  | cons key keys =>
    rw [Layout.inFlow, hkeys]
    rfl

theorem dropKey_of_free (h : Free s.key) : s.dropKey = .ok { s with key := none } := by
  rw [dropKey, giveUp_of_free h]
  rfl

/-- A place where a key may begin is noted if one is allowed for. -/
theorem At.exists_saveKey (h : s.At depth ts r) :
    ∃ key, Free key ∧ s.saveKey = .ok { s with key } ∧
      (s.keyAllowed = true → key = some ⟨ts.length, false, s.cursor⟩) := by
  have hlength : s.tokens.length = ts.length := by rw [h.tokens, List.length_reverse]
  by_cases hallowed : s.keyAllowed = true
  · refine ⟨some ⟨ts.length, false, s.cursor⟩, ?_, ?_, fun _ => rfl⟩
    · rintro _ ⟨⟩
      rfl
    · have hrequired : (!s.inFlow && s.margin == s.cursor.column + 1) = false := by
        rw [h.margin, Bool.and_eq_false_iff]
        exact .inr (beq_eq_false_iff_ne.2 (Nat.succ_ne_zero _).symm)
      rw [saveKey, if_pos hallowed, dropKey_of_free h.key]
      show Except.ok { s with
        key := some ⟨s.tokens.length, !s.inFlow && s.margin == s.cursor.column + 1, s.cursor⟩ } = _
      rw [hrequired, hlength]
  · exact ⟨s.key, h.key, if_neg hallowed, fun h => absurd h hallowed⟩

theorem tokens_concat {t : Token} (h : s.tokens = ts.reverse) : t :: s.tokens = (ts ++ [t]).reverse := by
  rw [h, List.reverse_append]
  rfl

theorem unfinished_concat {t : Token} (h : .finish ∉ ts) (ht : t ≠ .finish) : .finish ∉ ts ++ [t] := by
  rw [List.mem_append, List.mem_singleton]
  rintro (hmem | heq)
  · exact h hmem
  · exact ht heq.symm

/-! ## Signs -/

/-- An opening bracket is one level deeper, and a key may follow. -/
theorem exists_step_opening {t : Token} (hs : s.At depth ts (x :: r)) (hstops : Stops (x :: r))
    (hx : ∀ s₁ : Layout, s₁.fetchAt x r = s₁.fetchOpening t) (ht : t ≠ .finish) :
    ∃ s', Step s s' ∧ s'.At (depth + 1) (ts ++ [t]) r ∧ s'.keyAllowed = true := by
  obtain ⟨s₁, h⟩ := hs.exists_settles hstops
  obtain ⟨key, hkey, hsave, -⟩ := h.place.exists_saveKey
  have hnext := passes_next h.rest
  have hrest := hnext.rest_eq h.rest
  let s' : Layout := { s₁ with
    cursor := s₁.cursor.next, keyAllowed := true, key := none, outerKeys := key :: s₁.outerKeys,
    tokens := t :: s₁.tokens }
  have hfetch : s₁.fetchAt x r = .ok s' := by
    rw [hx, fetchOpening, hsave]
    rfl
  have hs' : s'.At (depth + 1) (ts ++ [t]) r := by
    refine ⟨h.place.margin, h.place.outer, free_none, ?_, ?_, tokens_concat h.place.tokens,
      unfinished_concat h.place.unfinished ht, congrArg dropPads hrest⟩
    · exact List.forall_mem_cons.2 ⟨hkey, h.place.outerKeys⟩
    · exact congrArg (· + 1) h.place.depth
  exact ⟨s', h.step hs hfetch hs' (Nat.le_of_eq (congrArg List.length hrest)), hs', rfl⟩

/-- A closing bracket ends a level. -/
theorem exists_step_closing {t : Token} (hs : s.At (depth + 1) ts (x :: r))
    (hstops : Stops (x :: r)) (hx : ∀ s₁ : Layout, s₁.fetchAt x r = s₁.fetchClosing t)
    (ht : t ≠ .finish) : ∃ s', Step s s' ∧ s'.At depth (ts ++ [t]) r := by
  obtain ⟨s₁, h⟩ := hs.exists_settles hstops
  obtain ⟨key, keys, hkeys⟩ : ∃ key keys, s₁.outerKeys = key :: keys := by
    cases hkeys : s₁.outerKeys with
    | nil =>
      have hdepth := h.place.depth
      rw [hkeys] at hdepth
      cases hdepth
    | cons key keys => exact ⟨key, keys, rfl⟩
  have hfree := h.place.outerKeys
  have hdepth := h.place.depth
  rw [hkeys] at hfree hdepth
  have hnext := passes_next h.rest
  have hrest := hnext.rest_eq h.rest
  let s' : Layout := { s₁ with
    cursor := s₁.cursor.next, keyAllowed := false, key, outerKeys := keys, tokens := t :: s₁.tokens }
  have hfetch : s₁.fetchAt x r = .ok s' := by
    rw [hx, fetchClosing, dropKey_of_free h.place.key]
    simp only [bind, Except.bind, hkeys]
    rfl
  have hs' : s'.At depth (ts ++ [t]) r := by
    refine ⟨h.place.margin, h.place.outer, hfree key List.mem_cons_self, ?_, Nat.succ.inj hdepth,
      tokens_concat h.place.tokens, unfinished_concat h.place.unfinished ht, congrArg dropPads hrest⟩
    exact fun k hk => hfree k (List.mem_cons_of_mem key hk)
  exact ⟨s', h.step hs hfetch hs' (Nat.le_of_eq (congrArg List.length hrest)), hs'⟩

/-- A comma allows for a key. -/
theorem exists_step_comma (hs : s.At depth ts (',' :: r)) :
    ∃ s', Step s s' ∧ s'.At depth (ts ++ [.flowEntry]) r ∧ s'.keyAllowed = true := by
  obtain ⟨s₁, h⟩ := hs.exists_settles (by rintro _ ⟨⟩; decide)
  have hnext := passes_next h.rest
  have hrest := hnext.rest_eq h.rest
  let s' : Layout := { s₁ with
    cursor := s₁.cursor.next, keyAllowed := true, key := none, tokens := .flowEntry :: s₁.tokens }
  have hfetch : s₁.fetchAt ',' r = .ok s' := by
    show s₁.fetchFlowEntry = _
    rw [fetchFlowEntry, dropKey_of_free h.place.key]
    rfl
  have hs' : s'.At depth (ts ++ [.flowEntry]) r :=
    ⟨h.place.margin, h.place.outer, free_none, h.place.outerKeys, h.place.depth,
      tokens_concat h.place.tokens, unfinished_concat h.place.unfinished nofun,
      congrArg dropPads hrest⟩
  exact ⟨s', h.step hs hfetch hs' (Nat.le_of_eq (congrArg List.length hrest)), hs', rfl⟩

/-! ## Scalars -/

/-- A quoted scalar; the place where it begins is noted if a key may begin there. -/
theorem exists_step_quoted {front text : List Char} (hs : s.At depth ts ('"' :: front ++ r))
    (hread : ∀ c : Cursor, c.rest = '"' :: front ++ r →
      ∃ c', readQuoted true c = .ok (text, c') ∧ c.Passes ('"' :: front) c') :
    ∃ s' c, Step s s' ∧ s'.At depth (ts ++ [.scalar false text]) r ∧
      c.Passes ('"' :: front) s'.cursor ∧ s'.cursor.rest = r ∧
      (s.keyAllowed = true → s'.key = some ⟨ts.length, false, c⟩) := by
  obtain ⟨s₁, h⟩ := hs.exists_settles (by rintro _ ⟨⟩; decide)
  obtain ⟨c', hread, hpass⟩ := hread s₁.cursor h.rest
  obtain ⟨key, hkey, hsave, hplace⟩ := h.place.exists_saveKey
  have hrest : c'.rest = r := hpass.rest_eq h.rest
  let s' : Layout := { s₁ with
    cursor := c', keyAllowed := false, key, tokens := .scalar false text :: s₁.tokens }
  have hfetch : s₁.fetchAt '"' (front ++ r) = .ok s' := by
    show s₁.fetchWord (reading (readQuoted true) (.scalar false)) = _
    rw [fetchWord, hsave]
    show (reading (readQuoted true) (.scalar false) s₁.cursor).bind _ = _
    rw [reading, hread]
    rfl
  have hs' : s'.At depth (ts ++ [.scalar false text]) r :=
    ⟨h.place.margin, h.place.outer, hkey, h.place.outerKeys, h.place.depth,
      tokens_concat h.place.tokens, unfinished_concat h.place.unfinished nofun,
      congrArg dropPads hrest⟩
  refine ⟨s', s₁.cursor, h.step hs hfetch hs' ?_, hs', hpass, hrest,
    fun hallowed => hplace (h.allowed hallowed)⟩
  show c'.rest.length ≤ (front ++ r).length
  rw [hrest, List.length_append]
  exact Nat.le_add_left _ _

/-- A plain scalar begins here. -/
def BeginsWord (x : Char) (r : List Char) : Prop :=
  (isGap x = false ∧ isIndicator x = false ∧ x ≠ '.') ∨
    (x = '-' ∧ ∃ y s, r = y :: s ∧ y ≠ '-' ∧ isGap y = false)

theorem fetchAt_word (h : BeginsWord x r) : s.fetchAt x r = s.fetchPlain := by
  rcases h with ⟨hgap, hind, hdot⟩ | ⟨rfl, y, r, rfl, hy, hgap⟩
  · have ne {c : Char} (hc : isIndicator c = true) : x ≠ c := by
      rintro rfl
      rw [hc] at hind
      cases hind
    have hstart : startsPlain s.inFlow (x :: r) = true := by
      simp [startsPlain, hgap, hind]
    simp [fetchAt, hstart, hdot, @ne '%' (by decide), @ne '-' (by decide), @ne '[' (by decide),
      @ne '\x7b' (by decide), @ne ']' (by decide), @ne '\x7d' (by decide), @ne ',' (by decide),
      @ne '?' (by decide), @ne ':' (by decide), @ne '*' (by decide), @ne '&' (by decide),
      @ne '!' (by decide), @ne '|' (by decide), @ne '>' (by decide), @ne '\'' (by decide),
      @ne '"' (by decide)]
  · have hmarker : atMarker ('-' :: y :: r) = false := by
      unfold atMarker
      split
      case h_1 h =>
        cases h
        exact absurd rfl hy
      case h_2 h => cases h
      case h_3 => rfl
    have hend : endsWord (y :: r) = false := hgap
    have hstart : startsPlain s.inFlow ('-' :: y :: r) = true := by
      simp [startsPlain, hend]
    simp [fetchAt, hstart, hmarker, hend]

theorem BeginsWord.stops (h : BeginsWord x r) (hx : isWordChar x = true)
    (hmark : x ≠ '\ufeff') : Stops (x :: r) := by
  simp only [isWordChar, isGap, Yaml.isSpace, Bool.and_eq_true, Bool.not_eq_true',
    Bool.or_eq_false_iff, beq_eq_false_iff_ne] at hx
  rintro _ ⟨⟩
  refine ⟨hx.1.1.1.1, hx.1.1.2, ?_, hmark⟩
  rcases h with ⟨-, hind, -⟩ | ⟨rfl, -⟩
  · rintro rfl
    exact absurd hind (by decide)
  · decide

/-- A plain scalar, and the gap behind it. -/
theorem exists_step_word {w : List Char} (hs : s.At (depth + 1) ts (x :: w ++ r))
    (hbegins : BeginsWord x (w ++ r)) (hw : ∀ y ∈ x :: w, isWordChar y = true) (hmark : x ≠ '\ufeff')
    (hr : ClosesWord (dropPads r)) :
    ∃ s', Step s s' ∧ s'.At (depth + 1) (ts ++ [.scalar true (x :: w)]) r := by
  have hstops := hbegins.stops (hw x List.mem_cons_self) hmark
  obtain ⟨s₁, h⟩ := hs.exists_settles hstops
  obtain ⟨key, hkey, hsave, -⟩ := h.place.exists_saveKey
  have hsplit : r.takeWhile isPad ++ dropPads r = r := List.takeWhile_append_dropWhile
  have hpads : ∀ x ∈ r.takeWhile isPad, isPad x = true := List.all_eq_true.1 List.all_takeWhile
  have hc : s₁.cursor.rest = x :: w ++ (r.takeWhile isPad ++ dropPads r) := by rw [hsplit, h.rest]
  obtain ⟨broke, c', hread, hpass⟩ :=
    readPlain_word hw ⟨x, w, rfl, (hstops x rfl).2.2.1⟩ hpads hr hc s₁.margin
  have hrest : c'.rest = dropPads r := hpass.rest_eq (by rw [hc, List.append_assoc])
  let s' : Layout := { s₁ with
    cursor := c', keyAllowed := broke, key, tokens := .scalar true (x :: w) :: s₁.tokens }
  have hfetch : s₁.fetchAt x (w ++ r) = .ok s' := by
    have hflow : ({ s₁ with key } : Layout).inFlow = true := h.place.inFlow
    rw [fetchAt_word hbegins, fetchPlain, hsave]
    simp only [bind, Except.bind, hflow, hread]
    rfl
  have hs' : s'.At (depth + 1) (ts ++ [.scalar true (x :: w)]) r := by
    refine ⟨h.place.margin, h.place.outer, hkey, h.place.outerKeys, h.place.depth,
      tokens_concat h.place.tokens, unfinished_concat h.place.unfinished nofun, ?_⟩
    show dropPads c'.rest = dropPads r
    rw [hrest, dropPads_of_stops hr.stops]
  refine ⟨s', h.step hs hfetch hs' ?_, hs'⟩
  show c'.rest.length ≤ (w ++ r).length
  rw [hrest, List.length_append]
  exact Nat.le_add_left_of_le (List.dropWhile_suffix isPad).length_le

/-! ## Gaps -/

theorem fetchAt_tab : s.fetchAt '\t' r = .error .malformed := by
  have hstart : startsPlain s.inFlow ('\t' :: r) = false := by
    have hgap : isGap '\t' = true := by decide
    simp [startsPlain, hgap]
  simp [fetchAt, hstart]

/-- A tab in a gap breaks reading off, and any other gap makes no difference. -/
theorem scans_gap {gap : List Char} (hs : s.At depth ts (gap ++ r))
    (hgap : ∀ x ∈ gap, isPad x = true ∨ x = '\t') :
    Scans (gap.all isPad) (fun s' => s' = s ∧ s'.At depth ts r) s := by
  cases hall : gap.all isPad with
  | true => exact scans_of ⟨rfl, hs.behind_pads (List.all_eq_true.1 hall)⟩
  | false =>
    obtain ⟨x, more, hmore⟩ : ∃ x more, gap.dropWhile isPad = x :: more := by
      refine List.exists_cons_of_ne_nil fun hnil => ?_
      rw [List.dropWhile_eq_nil_iff] at hnil
      rw [List.all_eq_true.2 hnil] at hall
      cases hall
    have hpad : isPad x = false := by
      have hhead := List.head_dropWhile_not isPad (l := gap) (by rw [hmore]; exact nofun)
      simpa [hmore] using hhead
    have hx : x = '\t' := by
      have hmem : x ∈ gap := (List.dropWhile_suffix isPad).subset (hmore ▸ List.mem_cons_self)
      refine (hgap x hmem).resolve_left ?_
      rw [hpad]
      exact Bool.false_ne_true
    rw [hx] at hmore
    have hplace : s.At depth ts ('\t' :: (more ++ r)) := by
      have hsplit := gap.takeWhile_append_dropWhile (p := isPad)
      rw [← hsplit, hmore, List.append_assoc] at hs
      exact hs.behind_pads (List.all_eq_true.1 List.all_takeWhile)
    obtain ⟨s₁, hsettles⟩ := hplace.exists_settles (by rintro _ ⟨⟩; decide)
    exact stuck_of_fetchAt hs hsettles fetchAt_tab

/-- A sign behind a gap ends a plain scalar, and so does a tab in the gap. -/
theorem closesWord_gap {gap : List Char} (hgap : ∀ y ∈ gap, isPad y = true ∨ y = '\t')
    (hx : x ∈ [',', ']', '\x7d']) : ClosesWord (dropPads (gap ++ x :: r)) := by
  induction gap with
  | nil =>
    have hpad : ¬isPad x = true := by
      simp only [List.mem_cons, List.not_mem_nil, or_false] at hx
      rcases hx with rfl | rfl | rfl <;> decide
    rw [List.nil_append, dropPads, List.dropWhile_cons_of_neg hpad]
    rintro _ ⟨⟩
    exact List.mem_append_left ['\t'] hx
  | cons y gap ih =>
    by_cases hy : isPad y = true
    · rw [List.cons_append, dropPads, List.dropWhile_cons_of_pos hy]
      exact ih fun y hy => hgap y (List.mem_cons_of_mem _ hy)
    · rw [List.cons_append, dropPads, List.dropWhile_cons_of_neg hy,
        (hgap y List.mem_cons_self).resolve_left hy]
      rintro _ ⟨⟩
      decide

/-! ## Keys -/

/-- The signs of a scalar and of its value, which is told to be a key if it is near. -/
def labelTokens (near : Bool) (t : Token) : List Token := (if near then [.key] else []) ++ [t, .value]

/-- A scalar of this length is near a colon behind the gap: on its line, and not too far. -/
def isNear (length : Nat) (gap : List Char) : Bool :=
  gap.all (· == ' ') && length + gap.length ≤ 1024

/-- The place where a key begins that is no longer than this and lies on its line. -/
theorem kept_passes {c₀ c₁ c₂ : Cursor} {front pads : List Char} (h₁ : c₀.Passes front c₁)
    (h₂ : c₁.Passes pads c₂) (hfront : ∀ x ∈ front, isBreak x = false)
    (hpads : ∀ x ∈ pads, isPad x = true) (n : Nat) (required : Bool) :
    kept c₂ (kept c₁ (some ⟨n, required, c₀⟩)) =
      if isNear front.length pads then some ⟨n, required, c₀⟩ else none := by
  have hline₁ : c₁.line = c₀.line := by
    rw [h₁.line_eq, List.countP_eq_zero.2 fun x hx => Bool.eq_false_iff.1 (hfront x hx)]
    rfl
  have hline₂ : c₂.line = c₀.line ↔ pads.all (· == ' ') = true := by
    rw [h₂.line_eq, hline₁, Nat.add_eq_left, List.countP_eq_zero, List.all_eq_true]
    refine forall₂_congr fun x hx => ?_
    have hpad := hpads x hx
    simp only [isPad, Bool.or_eq_true, beq_iff_eq] at hpad
    rcases hpad with rfl | rfl <;> decide
  have hover₁ : isOver c₁ ⟨n, required, c₀⟩ = decide (1024 < front.length) := by
    simp only [isOver, hline₁, bne_self_eq_false, Bool.false_or, h₁.index_eq]
    rw [decide_eq_decide]
    omega
  have hover₂ : isOver c₂ ⟨n, required, c₀⟩ =
      (!pads.all (· == ' ') || decide (1024 < front.length + pads.length)) := by
    have hne : (c₀.line != c₂.line) = !pads.all (· == ' ') := by
      rw [Bool.eq_iff_iff, bne_iff_ne, Bool.not_eq_true', ← Bool.not_eq_true, ← hline₂]
      exact not_congr eq_comm
    simp only [isOver, hne, h₂.index_eq, h₁.index_eq]
    congr 1
    rw [decide_eq_decide]
    omega
  unfold kept isNear
  generalize pads.all (· == ' ') = blank at hover₂ ⊢
  by_cases h : 1024 < front.length
  · have hlong : ¬front.length + pads.length ≤ 1024 := by omega
    simp [Option.filter, hover₁, h, hlong]
  · rw [decide_eq_false h] at hover₁
    cases blank <;> simp [Option.filter, hover₁, hover₂]

/-- A sign in front of the last token. -/
theorem insertAt_last {t t' : Token} (h : s.tokens = t :: ts.reverse) :
    s.insertAt ts.length [t'] = { s with tokens := t :: t' :: ts.reverse } := by
  have hlater : s.tokens.length - ts.length = 1 := by
    rw [h, List.length_cons, List.length_reverse]
    omega
  rw [insertAt, hlater, h]
  rfl

theorem fetchValue_near {k : KeyPlace} (hflow : s.inFlow = true) (hkey : s.key = some k) :
    s.fetchValue =
      .ok ((insertAt k.number [.key] { s with key := none, keyAllowed := false }).take 1 .value) := by
  rw [fetchValue, hkey]
  refine if_neg ?_
  rw [show Layout.inFlow { s with key := none, keyAllowed := false } = true from hflow]
  exact Bool.false_ne_true

theorem fetchValue_far (hflow : s.inFlow = true) (hkey : s.key = none) :
    s.fetchValue = .ok (take 1 .value { s with key := none, keyAllowed := false }) := by
  have hfree : Free { s with keyAllowed := !s.inFlow }.key := by
    show Free s.key
    rw [hkey]
    exact free_none
  rw [fetchValue, hkey]
  show s.fetchSign .value = _
  rw [fetchSign, if_pos hflow]
  show (dropKey { s with keyAllowed := !s.inFlow }).bind _ = _
  rw [dropKey_of_free hfree, hflow]
  rfl

/-- A colon behind a scalar. -/
theorem exists_step_colon {t : Token} {c : Cursor} {near : Bool} {r' : List Char}
    (hs : s.At (depth + 1) (ts ++ [t]) r') (h : s.Settles (depth + 1) (ts ++ [t]) (':' :: r) s₁)
    (hkey : s₁.key = if near then some ⟨ts.length, false, c⟩ else none) :
    ∃ s', Step s s' ∧ s'.At (depth + 1) (ts ++ labelTokens near t) r := by
  have hrest := (passes_next h.rest).rest_eq h.rest
  have htokens : s₁.tokens = t :: ts.reverse := by
    rw [h.place.tokens, List.reverse_append]
    rfl
  have hts : .finish ∉ ts ∧ t ≠ .finish := by
    have hunfinished := h.place.unfinished
    rw [List.mem_append, List.mem_singleton, not_or] at hunfinished
    exact ⟨hunfinished.1, Ne.symm hunfinished.2⟩
  let s' : Layout := { s₁ with
    cursor := s₁.cursor.next, keyAllowed := false, key := none,
    tokens := (ts ++ labelTokens near t).reverse }
  have hfetch : s₁.fetchAt ':' r = .ok s' := by
    have hvalue : s₁.fetchAt ':' r = s₁.fetchValue := by
      simp [fetchAt, h.place.inFlow]
    rw [hvalue]
    cases near with
    | true =>
      have hlast : Layout.tokens { s₁ with key := none, keyAllowed := false } = t :: ts.reverse :=
        htokens
      rw [fetchValue_near h.place.inFlow hkey, insertAt_last hlast]
      simp only [s', labelTokens, List.reverse_append]
      rfl
    | false =>
      rw [fetchValue_far h.place.inFlow hkey]
      simp only [s', labelTokens, List.reverse_append]
      rw [take, emit, htokens]
      rfl
  have hs' : s'.At (depth + 1) (ts ++ labelTokens near t) r := by
    refine ⟨h.place.margin, h.place.outer, free_none, h.place.outerKeys, h.place.depth, rfl, ?_,
      congrArg dropPads hrest⟩
    cases near <;> simp [labelTokens, hts.1, hts.2.symm]
  exact ⟨s', h.step hs hfetch hs' (Nat.le_of_eq (congrArg List.length hrest)), hs'⟩

/-- **A quoted scalar and the colon behind it.** -/
theorem scans_label {front text gap : List Char}
    (hs : s.At (depth + 1) ts ('"' :: front ++ (gap ++ ':' :: r))) (hallowed : s.keyAllowed = true)
    (hread : ∀ c : Cursor, c.rest = '"' :: front ++ (gap ++ ':' :: r) →
      ∃ c', readQuoted true c = .ok (text, c') ∧ c.Passes ('"' :: front) c')
    (hfront : ∀ x ∈ '"' :: front, isBreak x = false) (hgap : ∀ x ∈ gap, isPad x = true ∨ x = '\t') :
    Scans (gap.all isPad) (fun s' => s'.At (depth + 1)
      (ts ++ labelTokens (isNear ('"' :: front).length gap) (.scalar false text)) r) s := by
  obtain ⟨s', c, hstep, hs', hpass, hrest, hkey⟩ := exists_step_quoted hs hread
  refine hstep.scans ?_
  cases hall : gap.all isPad with
  | false =>
    have hstuck := scans_gap hs' hgap
    rw [hall] at hstuck
    exact hstuck
  | true =>
    have hcolon := hs'.behind_pads (List.all_eq_true.1 hall)
    obtain ⟨s₁, hsettles⟩ := hcolon.exists_settles (by rintro _ ⟨⟩; decide)
    obtain ⟨pads, hpads, hpass'⟩ := hsettles.passes
    -- the gap is what is passed over
    have hgap : pads = gap := by
      have heq := hpass'.1
      rw [hrest, hsettles.rest] at heq
      exact (List.append_cancel_right heq).symm
    have hplace := hsettles.key
    rw [hkey hallowed, kept_passes hpass hpass' hfront hpads, hgap] at hplace
    obtain ⟨s'', hstep', hs''⟩ := exists_step_colon hcolon hsettles hplace
    exact hstep'.scans (scans_of hs'')

/-! ## The end -/

/-- Out of all brackets the text may end. -/
theorem completes_end (hs : s.At 0 ts []) : Completes s (ts ++ [.finish]) := by
  obtain ⟨s₁, h⟩ := hs.exists_settles nofun
  intro fuel hfuel
  obtain ⟨fuel, rfl⟩ : ∃ k, fuel = k + 1 := ⟨fuel - 1, by omega⟩
  have hadvance : s.advance =
      .ok { s₁ with keyAllowed := false, key := none, tokens := .finish :: s₁.tokens } := by
    rw [h.advance, fetchHere, outermost, unwind_of_margin h.place.margin h.place.outer,
      dropKey_of_free h.place.key]
    rfl
  rw [run_succ_of_ok hadvance]
  refine (if_pos List.head?_cons).trans ?_
  show (Token.finish :: s₁.tokens).reverse = _
  rw [h.place.tokens, List.reverse_cons, List.reverse_reverse]

end Layout

end Recurrence.Yaml
