import Mathlib.Logic.Relation
import Recurrence.Proofs.Yaml.Passing

/-!
# Tokens between brackets

Between brackets the layout of a text does not count: no block is open, and no key is required to be
one.  A state like that is told by the brackets around it, the tokens so far and what follows
(`Layout.At`).  Reading goes on from one such state to the next, one token at a time (`Layout.Step`), or
it breaks off, upon which the tokens have no end (`Layout.Stuck`).

* `Layout.At`, `Layout.Settles`: a state between brackets, and the one behind the gap there
* `Layout.Step`, `Layout.Stuck`: going on by one token, and breaking off
* `Layout.Scans`: reading goes on or breaks off, as a test says
-/

namespace Recurrence.Yaml

open Cursor

namespace Layout

/-! ## Keys that may be given up -/

/-- A possible key that does not have to be one. -/
def Free (k : Option KeyPlace) : Prop := ∀ p ∈ k, p.required = false

/-- A possible key as long as it can go on. -/
def kept (c : Cursor) (k : Option KeyPlace) : Option KeyPlace := k.filter fun p => !isOver c p

theorem Free.kept {k : Option KeyPlace} (h : Free k) (c : Cursor) : Free (kept c k) :=
  fun p hp => h p (Option.filter_eq_some_iff.1 hp).1

theorem free_none : Free none := nofun

theorem giveUp_of_free {k : Option KeyPlace} (h : Free k) : giveUp k = .ok none := by
  cases k with
  | none => rfl
  | some p =>
    rw [giveUp, h p rfl]
    rfl

theorem giveUpOver_of_free {k : Option KeyPlace} (h : Free k) (c : Cursor) :
    giveUpOver c k = .ok (kept c k) := by
  unfold giveUpOver
  rw [giveUp_of_free h]
  cases k with
  | none => rfl
  | some p =>
    cases hover : isOver c p <;> simp [Option.any, kept, Option.filter, hover]

theorem mapM_giveUpOver {ks : List (Option KeyPlace)} (h : ∀ k ∈ ks, Free k) (c : Cursor) :
    ks.mapM (giveUpOver c) = .ok (ks.map (kept c)) := by
  induction ks with
  | nil => rfl
  | cons k ks ih =>
    rw [List.mapM_cons, giveUpOver_of_free (h k List.mem_cons_self) c,
      ih fun k' hk' => h k' (List.mem_cons_of_mem k hk')]
    rfl

/-! ## States between brackets -/

/-- The text behind white space. -/
def dropPads (s : List Char) : List Char := s.dropWhile isPad

theorem dropPads_append {pads : List Char} (h : ∀ x ∈ pads, isPad x = true) (r : List Char) :
    dropPads (pads ++ r) = dropPads r :=
  List.dropWhile_append_of_pos h

theorem dropPads_of_stops {r : List Char} (h : Stops r) : dropPads r = r := by
  cases r with
  | nil => rfl
  | cons x r =>
    refine List.dropWhile_cons_of_neg fun hx => ?_
    have hfeed := eq_feed_of_isPad hx (h x rfl).1
    have hbreak := (h x rfl).2.1
    rw [hfeed] at hbreak
    exact absurd hbreak (by decide)

/-- No block is open, all possible keys may be given up, there are `depth` brackets around, the tokens so
far are `ts`, and up to white space `rest` follows. -/
structure At (s : Layout) (depth : Nat) (ts : List Token) (rest : List Char) : Prop where
  margin : s.margin = 0
  outer : s.outer = []
  key : Free s.key
  outerKeys : ∀ k ∈ s.outerKeys, Free k
  depth : s.outerKeys.length = depth
  tokens : s.tokens = ts.reverse
  unfinished : .finish ∉ ts
  rest : dropPads s.cursor.rest = dropPads rest

variable {s s' s₁ : Layout} {depth : Nat} {ts : List Token} {r : List Char} {x : Char}

theorem At.behind_pads {pads : List Char} (h : s.At depth ts (pads ++ r))
    (hpads : ∀ x ∈ pads, isPad x = true) : s.At depth ts r :=
  { h with rest := h.rest.trans (dropPads_append hpads r) }

theorem At.congr {ts' : List Token} (h : s.At depth ts r) (hts : ts = ts') : s.At depth ts' r := by
  rw [← hts]
  exact h

theorem At.exists_pads (h : s.At depth ts r) (hr : Stops r) :
    ∃ pads, (∀ x ∈ pads, isPad x = true) ∧ s.cursor.rest = pads ++ r := by
  refine ⟨s.cursor.rest.takeWhile isPad, List.all_eq_true.1 List.all_takeWhile, ?_⟩
  have hrest : s.cursor.rest.dropWhile isPad = r := h.rest.trans (dropPads_of_stops hr)
  rw [← hrest]
  exact List.takeWhile_append_dropWhile.symm

theorem expire_of_free (hkey : Free s.key) (hkeys : ∀ k ∈ s.outerKeys, Free k) :
    s.expire = .ok { s with
      key := kept s.cursor s.key, outerKeys := s.outerKeys.map (kept s.cursor) } := by
  unfold expire
  rw [giveUpOver_of_free hkey, mapM_giveUpOver hkeys]
  rfl

theorem unwind_of_margin (hmargin : s.margin = 0) (houter : s.outer = []) (m : Nat) :
    s.unwind m = s := by
  unfold unwind
  split
  · rfl
  · obtain ⟨cursor, margin, outer, allowed, key, keys, tokens⟩ := s
    cases hmargin
    cases houter
    rfl

/-- The next token is read, or the end of the text. -/
def advance (s : Layout) : Except Fault Layout := s.expire.bind fetch

/-- The token that begins here is read, or the end of the text. -/
def fetchHere (s : Layout) : List Char → Except Fault Layout
  | [] => s.outermost.bind fun s => .ok (s.emit .finish)
  | x :: rest => s.fetchAt x rest

/-- The next token is read in the state `s₁`, which lies behind the gap. -/
structure Settles (s : Layout) (depth : Nat) (ts : List Token) (r : List Char) (s₁ : Layout) :
    Prop where
  place : s₁.At depth ts r
  rest : s₁.cursor.rest = r
  allowed : s.keyAllowed = true → s₁.keyAllowed = true
  passes : ∃ pads, (∀ x ∈ pads, isPad x = true) ∧ s.cursor.Passes pads s₁.cursor
  key : s₁.key = kept s₁.cursor (kept s.cursor s.key)
  advance : s.advance = s₁.fetchHere r

/-- **A gap is passed over before a token.** -/
theorem At.exists_settles (h : s.At depth ts r) (hr : Stops r) : ∃ s₁, s.Settles depth ts r s₁ := by
  obtain ⟨pads, hpads, hrest⟩ := h.exists_pads hr
  let sA : Layout := { s with
    key := kept s.cursor s.key, outerKeys := s.outerKeys.map (kept s.cursor) }
  have hexpire : s.expire = .ok sA := expire_of_free h.key h.outerKeys
  obtain ⟨c', allowed, hpass, htoken⟩ := exists_toToken (s := sA) hpads hr hrest
  have hkeys : ∀ k ∈ sA.outerKeys, Free k := by
    intro k hk
    obtain ⟨k', hk', rfl⟩ := List.mem_map.1 hk
    exact (h.outerKeys k' hk').kept s.cursor
  let s₁ : Layout := { sA with
    cursor := c', keyAllowed := sA.keyAllowed || allowed, key := kept c' sA.key,
    outerKeys := sA.outerKeys.map (kept c') }
  have hexpire₁ : sA.toToken.expire = .ok s₁ := by
    rw [htoken]
    exact expire_of_free (h.key.kept s.cursor) hkeys
  have hrest₁ : c'.rest = r := hpass.rest_eq hrest
  refine ⟨s₁, ⟨h.margin, h.outer, (h.key.kept _).kept _, ?_, ?_, h.tokens, h.unfinished, ?_⟩,
    hrest₁, ?_,
    ⟨pads, hpads, hpass⟩, rfl, ?_⟩
  · intro k hk
    obtain ⟨k', hk', rfl⟩ := List.mem_map.1 hk
    exact (hkeys k' hk').kept c'
  · rw [List.length_map, List.length_map, h.depth]
  · exact congrArg dropPads hrest₁
  · intro hallowed
    show (s.keyAllowed || allowed) = true
    rw [hallowed, Bool.true_or]
  · have hunwind := unwind_of_margin (s := s₁) h.margin h.outer (s₁.cursor.column + 1)
    rw [advance, hexpire]
    show (sA.toToken.expire.bind _) = _
    rw [hexpire₁]
    show (s₁.unwind (s₁.cursor.column + 1)).fetchHere (s₁.unwind (s₁.cursor.column + 1)).cursor.rest
      = _
    rw [hunwind, show s₁.cursor.rest = r from hrest₁]

/-! ## Going on and breaking off -/

/-- One more token is read, which is not the end of the text. -/
structure Step (s s' : Layout) : Prop where
  advance : s.advance = .ok s'
  shorter : s'.cursor.rest.length < s.cursor.rest.length
  before : .finish ∉ s.tokens
  after : .finish ∉ s'.tokens

/-- However far reading goes, it does not come to the end of the text. -/
def Stuck (s : Layout) : Prop := ∀ fuel, .finish ∉ run fuel s

theorem finish_not_mem_breakOff (h : .finish ∉ s.tokens) (f : Fault) : .finish ∉ s.breakOff f := by
  rw [breakOff, List.mem_reverse, List.mem_cons]
  rintro (heq | hmem)
  · cases heq
  · exact h (List.mem_of_mem_drop hmem)

theorem run_succ_of_ok {fuel : Nat} (h : s.advance = .ok s') :
    run (fuel + 1) s =
      if s'.tokens.head? = some .finish then s'.tokens.reverse else run fuel s' := by
  rw [run]
  cases hexpire : s.expire with
  | error f =>
    rw [advance, hexpire] at h
    cases h
  | ok s₁ =>
    rw [advance, hexpire] at h
    dsimp only
    rw [show s₁.fetch = .ok s' from h]

theorem tokens_of_expire (h : s.expire = .ok s') : s'.tokens = s.tokens := by
  unfold expire at h
  cases hkey : giveUpOver s.cursor s.key with
  | error f =>
    rw [hkey] at h
    cases h
  | ok key =>
    rw [hkey] at h
    cases hkeys : s.outerKeys.mapM (giveUpOver s.cursor) with
    | error f =>
      rw [hkeys] at h
      cases h
    | ok keys =>
      rw [hkeys] at h
      cases h
      rfl

theorem stuck_of_error (h : .finish ∉ s.tokens) {f : Fault} (hf : s.advance = .error f) :
    Stuck s := by
  intro fuel
  cases fuel with
  | zero => exact finish_not_mem_breakOff h _
  | succ fuel =>
    rw [run]
    cases hexpire : s.expire with
    | error f => exact finish_not_mem_breakOff h f
    | ok s₁ =>
      rw [advance, hexpire] at hf
      dsimp only
      rw [show s₁.fetch = .error f from hf]
      refine finish_not_mem_breakOff ?_ f
      rw [tokens_of_expire hexpire]
      exact h

theorem Step.run_succ (h : Step s s') (fuel : Nat) : run (fuel + 1) s = run fuel s' := by
  rw [run_succ_of_ok h.advance, if_neg]
  intro hhead
  exact h.after (List.mem_of_mem_head? hhead)

theorem Step.stuck (h : Step s s') (hs : Stuck s') : Stuck s := by
  intro fuel
  cases fuel with
  | zero => exact finish_not_mem_breakOff h.before _
  | succ fuel =>
    rw [h.run_succ]
    exact hs fuel

/-- Reading goes on, token by token. -/
abbrev Leads : Layout → Layout → Prop := Relation.ReflTransGen Step

theorem stuck_of_leads (h : Leads s s') (hs : Stuck s') : Stuck s := by
  induction h using Relation.ReflTransGen.head_induction_on with
  | refl => exact hs
  | head hstep _ ih => exact hstep.stuck ih

/-- With enough fuel the tokens are `ts`. -/
def Completes (s : Layout) (ts : List Token) : Prop :=
  ∀ fuel, s.cursor.rest.length < fuel → run fuel s = ts

theorem completes_of_leads (h : Leads s s') (hs : Completes s' ts) : Completes s ts := by
  induction h using Relation.ReflTransGen.head_induction_on with
  | refl => exact hs
  | head hstep _ ih =>
    intro fuel hfuel
    obtain ⟨fuel, rfl⟩ : ∃ k, fuel = k + 1 := ⟨fuel - 1, by omega⟩
    rw [hstep.run_succ]
    exact ih fuel (by have := hstep.shorter; omega)

/-- Reading goes on to a state with `P` if the test is passed, and breaks off if it is not. -/
def Scans (ok : Bool) (P : Layout → Prop) (s : Layout) : Prop :=
  if ok then ∃ s', Leads s s' ∧ P s' else Stuck s

section Scans

variable {ok ok' : Bool} {P Q : Layout → Prop}

theorem scans_of (h : P s) : Scans true P s := ⟨s, .refl, h⟩

theorem Step.scans (h : Step s s') (hs : Scans ok P s') : Scans ok P s := by
  cases ok with
  | true =>
    obtain ⟨s₂, hleads, hP⟩ := hs
    exact ⟨s₂, .head h hleads, hP⟩
  | false => exact h.stuck hs

theorem Scans.mono (h : Scans ok P s) (hP : ∀ s', P s' → Q s') : Scans ok Q s := by
  cases ok with
  | true =>
    obtain ⟨s', hleads, hs'⟩ := h
    exact ⟨s', hleads, hP s' hs'⟩
  | false => exact h

theorem Scans.bind (h : Scans ok P s) (hs : ∀ s', P s' → Scans ok' Q s') :
    Scans (ok && ok') Q s := by
  cases ok with
  | false => exact h
  | true =>
    obtain ⟨s₁, hleads, hP⟩ := h
    have hQ := hs s₁ hP
    cases ok' with
    | false => exact stuck_of_leads hleads hQ
    | true =>
      obtain ⟨s₂, hleads₂, hQ₂⟩ := hQ
      exact ⟨s₂, hleads.trans hleads₂, hQ₂⟩

/-- One more token is read behind what is read under a test. -/
theorem Scans.step (h : Scans ok P s) (hs : ∀ s', P s' → ∃ s'', Step s' s'' ∧ Q s'') :
    Scans ok Q s := by
  have hall := h.bind (Q := Q) fun s' hP => by
    obtain ⟨s'', hstep, hQ⟩ := hs s' hP
    exact hstep.scans (scans_of hQ)
  rwa [Bool.and_true] at hall

end Scans

end Layout

end Recurrence.Yaml
