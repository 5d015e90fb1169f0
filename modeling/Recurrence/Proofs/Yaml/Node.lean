import Recurrence.Proofs.Yaml.Token
import Recurrence.Yaml.Node

/-!
# Nodes that are read

Reading goes through the tokens from left to right, and a node with an anchor is kept when it ends.
So it refers to none but those that were kept before it, which makes the references of a document
well-founded (`Document.WellFormed`).  Every level of depth takes a token, so a document that is too
deep has as many tokens as levels.

* `Node.PartOf`, `Node.RefersBelow`: the nodes that a node is made of, and the references among them
* `Reading.WellFormed`, `Reading.After`: states of reading, and those behind a state
* `Fault.FromTokens`, `Reading.Gives`: what is read, or a fault that the tokens account for
* `readsAt`: one statement for all functions that read nodes, by the fuel that they share
* **`Document.meets_ofTokens`**: a document that is read is well-formed
-/

namespace Recurrence.Yaml

/-! ## Parts of a node -/

/-- The nodes that a node is made of, itself among them. -/
inductive Node.PartOf : Node → Node → Prop
  | self (n : Node) : PartOf n n
  | item {n m : Node} {tag : Tag} {items : List Node} : m ∈ items → PartOf n m →
      PartOf n (.list tag items)
  | key {n : Node} {tag : Tag} {entries : List (Node × Node)} {e : Node × Node} : e ∈ entries →
      PartOf n e.1 → PartOf n (.map tag entries)
  | value {n : Node} {tag : Tag} {entries : List (Node × Node)} {e : Node × Node} : e ∈ entries →
      PartOf n e.2 → PartOf n (.map tag entries)

namespace Node

/-- The node refers to none but the first `bound` nodes with an anchor. -/
def RefersBelow (bound : Nat) (n : Node) : Prop := ∀ k, (anchored k).PartOf n → k < bound

theorem RefersBelow.mono {b c : Nat} {n : Node} (h : n.RefersBelow b) (hbc : b ≤ c) :
    n.RefersBelow c :=
  fun k hk => Nat.lt_of_lt_of_le (h k hk) hbc

theorem refersBelow_scalar (b : Nat) (tag : Tag) (s : List Char) :
    (scalar tag s).RefersBelow b := nofun

theorem refersBelow_enclosing (b : Nat) (curly : Bool) : (enclosing curly).RefersBelow b := nofun

theorem refersBelow_anchored {b k : Nat} (h : k < b) : (anchored k).RefersBelow b := by
  rintro _ ⟨⟩
  exact h

theorem refersBelow_list {b : Nat} {tag : Tag} {items : List Node} :
    (list tag items).RefersBelow b ↔ ∀ n ∈ items, n.RefersBelow b where
  mp h n hn k hk := h k (.item hn hk)
  mpr h k hk := by
    cases hk with
    | item hm hk => exact h _ hm k hk

theorem refersBelow_map {b : Nat} {tag : Tag} {entries : List (Node × Node)} :
    (map tag entries).RefersBelow b ↔
      ∀ e ∈ entries, e.1.RefersBelow b ∧ e.2.RefersBelow b where
  mp h e he := ⟨fun k hk => h k (.key he hk), fun k hk => h k (.value he hk)⟩
  mpr h k hk := by
    cases hk with
    | key he hk => exact (h _ he).1 k hk
    | value he hk => exact (h _ he).2 k hk

end Node

/-! ## States of reading -/

/-- Anchors stand for nodes that have ended, and those refer to none but earlier ones. -/
structure Reading.WellFormed (s : Reading) : Prop where
  anchors : ∀ a ∈ s.anchors, ∀ k, a.2 = .ended k → k < s.anchored.length
  anchored : ∀ k (n : Node), s.anchored.reverse[k]? = some n → n.RefersBelow k

/-- What is left when reading goes on from one state to another. -/
structure Reading.After (s s' : Reading) : Prop where
  wellFormed : s'.WellFormed
  tokens : s'.tokens <:+ s.tokens
  anchored : s.anchored.length ≤ s'.anchored.length

/-- The tokens account for the fault: their form is broken, one of them is not readable, or there
are enough of them to lie that deep. -/
inductive Fault.FromTokens (depth : Nat) (ts : List Token) : Fault → Prop
  | form : FromTokens depth ts .malformed
  | broken {f : Fault} : .broken f ∈ ts → FromTokens depth ts f
  | deep : depth ≤ ts.length → FromTokens depth ts .tooDeep

namespace Reading

variable {s s' : Reading}

theorem After.trans {t : Reading} (h : s.After s') (h' : s'.After t) : s.After t where
  wellFormed := h'.wellFormed
  tokens := h'.tokens.trans h.tokens
  anchored := Nat.le_trans h.anchored h'.anchored

theorem WellFormed.after (h : s.WellFormed) : s.After s := ⟨h, List.suffix_refl _, Nat.le_refl _⟩

theorem After.drop (h : s.After s') : s.After s'.drop where
  wellFormed := ⟨h.wellFormed.anchors, h.wellFormed.anchored⟩
  tokens := (List.tail_suffix _).trans h.tokens
  anchored := h.anchored

/-- What is read is `Q` of the number of anchored nodes, and reading goes on from there; or the
tokens account for the fault. -/
def Gives {α : Type} (depth : Nat) (s : Reading) (Q : Nat → α → Prop)
    (r : Except Fault (α × Reading)) : Prop :=
  Meets (Fault.FromTokens depth s.tokens) (fun a => s.After a.2 ∧ Q a.2.anchored.length a.1) r

theorem After.length_le (h : s.After s') : s'.tokens.length ≤ s.tokens.length := h.tokens.length_le

/-- Later tokens account for no more than earlier ones.  Every level of depth takes a token. -/
theorem After.fromTokens {d d' : Nat} {f : Fault} (hs : s.After s')
    (hd : d + s'.tokens.length ≤ d' + s.tokens.length) (hf : f.FromTokens d' s'.tokens) :
    f.FromTokens d s.tokens := by
  cases hf with
  | form => exact .form
  | broken hb => exact .broken (hs.tokens.subset hb)
  | deep hl => exact .deep (by omega)

theorem Gives.since {α : Type} {d d' : Nat} {Q : Nat → α → Prop} {r : Except Fault (α × Reading)}
    (hr : s'.Gives d' Q r) (hs : s.After s') (hd : d + s'.tokens.length ≤ d' + s.tokens.length) :
    s.Gives d Q r :=
  hr.mono (fun _ hf => hs.fromTokens hd hf) fun _ ha => ⟨hs.trans ha.1, ha.2⟩

/-- Reading goes on behind what is read from a later state. -/
theorem Gives.bind {α β : Type} {d d' : Nat} {Q : Nat → α → Prop} {R : β → Prop}
    {r : Except Fault (α × Reading)} {f : α × Reading → Except Fault β} (hr : s'.Gives d' Q r)
    (hs : s.After s') (hd : d + s'.tokens.length ≤ d' + s.tokens.length)
    (hf : ∀ a t, s.After t → s'.After t → Q t.anchored.length a →
      Meets (Fault.FromTokens d s.tokens) R (f (a, t))) :
    Meets (Fault.FromTokens d s.tokens) R (r >>= f) := by
  cases r with
  | error e => exact (hr.since hs hd : Meets _ _ (Except.error e : Except Fault (α × Reading)))
  | ok a => exact hf a.1 a.2 (hs.trans hr.1) hr.1 hr.2

theorem meets_peek (d : Nat) (hs : s.After s') :
    Meets (Fault.FromTokens d s.tokens) (fun t => s'.tokens = t :: s'.drop.tokens) s'.peek := by
  unfold peek
  split
  · exact .form
  case h_2 h => exact .broken (hs.tokens.subset (h ▸ List.mem_cons_self))
  case h_3 h => rw [drop, h]; rfl

theorem meets_fullName {d : Nat} (s : Reading) (ts : List Token) (t : TagName) :
    Meets (Fault.FromTokens d ts) (fun _ => True) (s.fullName t) := by
  unfold fullName
  split
  · trivial
  · split
    · trivial
    · exact .form

theorem meets_readProperties (d : Nat) (h : s.WellFormed) :
    Meets (Fault.FromTokens d s.tokens) (fun a => s.After a.2) s.readProperties := by
  unfold readProperties
  refine (meets_peek d h.after).bind fun t _ => ?_
  split
  · refine (meets_peek d h.after.drop).bind fun t _ => ?_
    split
    · exact (meets_fullName _ _ _).bind fun _ _ => h.after.drop.drop
    · exact h.after.drop
  · refine (meets_peek d h.after.drop).bind fun t _ => ?_
    split
    · exact (meets_fullName _ _ _).bind fun _ _ => h.after.drop.drop
    · exact (meets_fullName _ _ _).bind fun _ _ => h.after.drop
  · exact h.after

/-! ## Anchors -/

theorem meets_opened {d : Nat} {ts : List Token} (curly : Bool) (p : Properties)
    (h : s.After s') : Meets (Fault.FromTokens d ts)
      (fun t => s.After t ∧ t.tokens = s'.tokens) (s'.opened curly p) := by
  unfold opened
  split
  · exact ⟨h, rfl⟩
  · split
    · exact .form
    · refine ⟨⟨⟨fun b hb k hk => ?_, h.wellFormed.anchored⟩, h.tokens, h.anchored⟩, rfl⟩
      rcases List.mem_cons.mp hb with rfl | hb
      · cases hk
      · exact h.wellFormed.anchors b hb k hk

theorem after_ended {p : Properties} {n : Node} (h : s.WellFormed)
    (hn : n.RefersBelow s.anchored.length) :
    s.After (s.ended p n).2 ∧ (s.ended p n).1.RefersBelow (s.ended p n).2.anchored.length := by
  unfold ended
  split
  · exact ⟨h.after, hn⟩
  · refine ⟨⟨⟨fun b hb k hk => ?_, fun k m hm => ?_⟩, List.suffix_refl _, Nat.le_succ _⟩,
      Node.refersBelow_anchored (Nat.lt_succ_self _)⟩
    · rcases List.mem_cons.mp hb with rfl | hb
      · cases hk
        exact Nat.lt_succ_self _
      · exact Nat.lt_succ_of_lt (h.anchors b hb k hk)
    · rw [List.reverse_cons, List.getElem?_append] at hm
      split at hm
      case isTrue => exact h.anchored k m hm
      case isFalse hk =>
        rw [List.getElem?_singleton] at hm
        split at hm
        · cases hm
          rw [List.length_reverse] at hk
          exact hn.mono (by omega)
        · cases hm

theorem meets_resolve {d : Nat} {ts : List Token} (name : List Char) (h : s.WellFormed) :
    Meets (Fault.FromTokens d ts) (fun n => n.RefersBelow s.anchored.length) (s.resolve name) := by
  unfold resolve
  split
  case h_1 hl =>
    obtain ⟨front, back, hl, -⟩ := List.lookup_eq_some_iff.mp hl
    exact Node.refersBelow_anchored (h.anchors _ (hl ▸ List.mem_append_cons_self) _ rfl)
  case h_2 => exact Node.refersBelow_enclosing _ _
  case h_3 => exact .form

end Reading

open Yaml.Reading

/-! ## Nodes -/

/-- All nodes of a list refer to none but the first anchored ones. -/
def ItemsBelow (bound : Nat) (items : List Node) : Prop := ∀ n ∈ items, n.RefersBelow bound

/-- All keys and values refer to none but the first anchored ones. -/
def EntriesBelow (bound : Nat) (entries : List (Node × Node)) : Prop :=
  ∀ e ∈ entries, e.1.RefersBelow bound ∧ e.2.RefersBelow bound

/-- What all readers of nodes do with this much fuel. -/
structure ReadsAt (fuel : Nat) : Prop where
  node {s : Reading} (depth : Nat) (place : Place) : s.WellFormed →
    s.Gives depth Node.RefersBelow (readNode fuel depth place s)
  orNothing {s : Reading} (depth : Nat) (place : Place) (stops : List Token) : s.WellFormed →
    s.Gives depth Node.RefersBelow (readUnless fuel depth place stops s)
  blockItems {s : Reading} (depth : Nat) : s.WellFormed →
    s.Gives depth ItemsBelow (readBlockItems fuel depth s)
  /-- an entry of a list without a block of its own takes a token -/
  partItems {s : Reading} (depth : Nat) : s.WellFormed →
    s.Gives (depth + 1) ItemsBelow (readPartItems fuel depth s)
  value {s : Reading} (depth : Nat) (place : Place) (stops : List Token) : s.WellFormed →
    s.Gives depth Node.RefersBelow (readValue fuel depth place stops s)
  blockEntries {s : Reading} (depth : Nat) : s.WellFormed →
    s.Gives depth EntriesBelow (readBlockEntries fuel depth s)
  flowItems {s : Reading} (depth : Nat) (first : Bool) : s.WellFormed →
    s.Gives depth ItemsBelow (readFlowItems fuel depth first s)
  flowEntries {s : Reading} (depth : Nat) (first : Bool) : s.WellFormed →
    s.Gives depth EntriesBelow (readFlowEntries fuel depth first s)

section Step

variable {fuel : Nat} {s : Reading}

theorem gives_readUnless (ih : ReadsAt fuel) (depth : Nat) (place : Place) (stops : List Token)
    (h : s.WellFormed) : s.Gives depth Node.RefersBelow (readUnless (fuel + 1) depth place stops s) := by
  unfold readUnless
  refine (meets_peek depth h.after).bind fun t ht => ?_
  split
  · exact ⟨h.after, Node.refersBelow_scalar _ _ _⟩
  · exact ih.node depth place h

theorem gives_readValue (ih : ReadsAt fuel) (depth : Nat) (place : Place) (stops : List Token)
    (h : s.WellFormed) : s.Gives depth Node.RefersBelow (readValue (fuel + 1) depth place stops s) := by
  unfold readValue
  refine (meets_peek depth h.after).bind fun t ht => ?_
  split
  · exact (ih.orNothing depth place stops h.after.drop.wellFormed).since h.after.drop
      (Nat.add_le_add_left h.after.drop.length_le _)
  · exact ⟨h.after, Node.refersBelow_scalar _ _ _⟩

theorem gives_readBlockItems (ih : ReadsAt fuel) (depth : Nat) (h : s.WellFormed) :
    s.Gives depth ItemsBelow (readBlockItems (fuel + 1) depth s) := by
  have hd := h.after.drop
  unfold readBlockItems
  refine (meets_peek depth h.after).bind fun t ht => ?_
  split
  · refine (ih.orNothing depth .block _ hd.wellFormed).bind hd
      (Nat.add_le_add_left hd.length_le _) fun n s₁ hs₁ _ hn => ?_
    refine (ih.blockItems depth hs₁.wellFormed).bind hs₁
      (Nat.add_le_add_left hs₁.length_le _) fun ns s₂ hs₂ h₂ hns => ?_
    exact ⟨hs₂, List.forall_mem_cons.mpr ⟨hn.mono h₂.anchored, hns⟩⟩
  · exact ⟨hd, List.forall_mem_nil _⟩
  · exact .form

theorem gives_readPartItems (ih : ReadsAt fuel) (depth : Nat) (h : s.WellFormed) :
    s.Gives (depth + 1) ItemsBelow (readPartItems (fuel + 1) depth s) := by
  have hd := h.after.drop
  unfold readPartItems
  refine (meets_peek (depth + 1) h.after).bind fun t ht => ?_
  have hl := congrArg List.length ht
  rw [List.length_cons] at hl
  split
  · refine (ih.orNothing depth .block _ hd.wellFormed).bind hd (by omega) fun n s₁ hs₁ _ hn => ?_
    refine (ih.partItems depth hs₁.wellFormed).bind hs₁
      (Nat.add_le_add_left hs₁.length_le _) fun ns s₂ hs₂ h₂ hns => ?_
    exact ⟨hs₂, List.forall_mem_cons.mpr ⟨hn.mono h₂.anchored, hns⟩⟩
  · exact ⟨h.after, List.forall_mem_nil _⟩

theorem gives_readBlockEntries (ih : ReadsAt fuel) (depth : Nat) (h : s.WellFormed) :
    s.Gives depth EntriesBelow (readBlockEntries (fuel + 1) depth s) := by
  have hd := h.after.drop
  unfold readBlockEntries
  refine (meets_peek depth h.after).bind fun t ht => ?_
  split
  · refine (ih.orNothing depth .blockPart _ hd.wellFormed).bind hd
      (Nat.add_le_add_left hd.length_le _) fun k s₁ hs₁ _ hk => ?_
    refine (ih.value depth .blockPart _ hs₁.wellFormed).bind hs₁
      (Nat.add_le_add_left hs₁.length_le _) fun v s₂ hs₂ h₂ hv => ?_
    refine (ih.blockEntries depth hs₂.wellFormed).bind hs₂
      (Nat.add_le_add_left hs₂.length_le _) fun es s₃ hs₃ h₃ hes => ?_
    refine ⟨hs₃, List.forall_mem_cons.mpr ⟨⟨?_, hv.mono h₃.anchored⟩, hes⟩⟩
    exact hk.mono (h₂.trans h₃).anchored
  · exact ⟨hd, List.forall_mem_nil _⟩
  · exact .form

/-- A comma between the entries in brackets is passed over. -/
theorem steps_comma (depth : Nat) (first : Bool) (h : s.WellFormed) :
    Meets (Fault.FromTokens depth s.tokens) (fun s' => s.After s')
      (if first then pure s else s.expect .flowEntry) := by
  split
  · exact h.after
  · refine (meets_peek depth h.after).bind fun t ht => ?_
    split
    · exact h.after.drop
    · exact .form

theorem gives_readFlowItems (ih : ReadsAt fuel) (depth : Nat) (first : Bool) (h : s.WellFormed) :
    s.Gives depth ItemsBelow (readFlowItems (fuel + 1) depth first s) := by
  unfold readFlowItems
  refine (meets_peek depth h.after).bind fun t ht => ?_
  split
  · exact ⟨h.after.drop, nofun⟩
  · refine Meets.ite_bind (steps_comma depth first h) fun s₁ hs₁ => ?_
    refine (meets_peek depth hs₁).bind fun t ht => ?_
    have hl := congrArg List.length ht
    rw [List.length_cons] at hl
    have hle := hs₁.length_le
    split
    · exact ⟨hs₁.drop, nofun⟩
    · -- a key opens a map of its own
      split
      · exact .deep (Nat.zero_le _)
      · refine (ih.orNothing _ .flow _ hs₁.drop.wellFormed).bind hs₁.drop (by omega)
          fun k s₂ hs₂ h₂ hk => ?_
        have hle₂ := h₂.length_le
        refine (ih.value _ .flow _ hs₂.wellFormed).bind hs₂ (by omega) fun v s₃ hs₃ h₃ hv => ?_
        refine (ih.flowItems _ false hs₃.wellFormed).bind hs₃
          (Nat.add_le_add_left hs₃.length_le _) fun ns s₄ hs₄ h₄ hns => ?_
        refine ⟨hs₄, List.forall_mem_cons.mpr ⟨?_, hns⟩⟩
        rw [Node.refersBelow_map, List.forall_mem_singleton]
        exact ⟨hk.mono (h₃.trans h₄).anchored, hv.mono h₄.anchored⟩
    · refine (ih.node depth .flow hs₁.wellFormed).bind hs₁
        (Nat.add_le_add_left hle _) fun n s₂ hs₂ _ hn => ?_
      refine (ih.flowItems depth false hs₂.wellFormed).bind hs₂
        (Nat.add_le_add_left hs₂.length_le _) fun ns s₃ hs₃ h₃ hns => ?_
      exact ⟨hs₃, List.forall_mem_cons.mpr ⟨hn.mono h₃.anchored, hns⟩⟩

theorem gives_readFlowEntries (ih : ReadsAt fuel) (depth : Nat) (first : Bool) (h : s.WellFormed) :
    s.Gives depth EntriesBelow (readFlowEntries (fuel + 1) depth first s) := by
  unfold readFlowEntries
  refine (meets_peek depth h.after).bind fun t ht => ?_
  split
  · exact ⟨h.after.drop, nofun⟩
  · refine Meets.ite_bind (steps_comma depth first h) fun s₁ hs₁ => ?_
    refine (meets_peek depth hs₁).bind fun t ht => ?_
    split
    · exact ⟨hs₁.drop, nofun⟩
    · refine (ih.orNothing depth .flow _ hs₁.drop.wellFormed).bind hs₁.drop
        (Nat.add_le_add_left hs₁.drop.length_le _) fun k s₂ hs₂ _ hk => ?_
      refine (ih.value depth .flow _ hs₂.wellFormed).bind hs₂
        (Nat.add_le_add_left hs₂.length_le _) fun v s₃ hs₃ h₃ hv => ?_
      refine (ih.flowEntries depth false hs₃.wellFormed).bind hs₃
        (Nat.add_le_add_left hs₃.length_le _) fun es s₄ hs₄ h₄ hes => ?_
      refine ⟨hs₄, List.forall_mem_cons.mpr ⟨⟨?_, hv.mono h₄.anchored⟩, hes⟩⟩
      exact hk.mono (h₃.trans h₄).anchored
    · refine (ih.node depth .flow hs₁.wellFormed).bind hs₁
        (Nat.add_le_add_left hs₁.length_le _) fun k s₂ hs₂ _ hk => ?_
      refine (ih.flowEntries depth false hs₂.wellFormed).bind hs₂
        (Nat.add_le_add_left hs₂.length_le _) fun es s₃ hs₃ h₃ hes => ?_
      refine ⟨hs₃, List.forall_mem_cons.mpr ⟨⟨hk.mono h₃.anchored, ?_⟩, hes⟩⟩
      exact Node.refersBelow_scalar _ _ _

/-- A list or map is put together from what is read between its beginning and its end. -/
theorem gives_collection {α : Type} {depth : Nat} {s₁ : Reading} {Q : Nat → α → Prop} {make : α → Node}
    {read : Reading → Except Fault (α × Reading)} (curly : Bool) (p : Properties)
    (hmake : ∀ b a, Q b a → (make a).RefersBelow b) (hs₁ : s.After s₁)
    (hr : ∀ s₂, s.After s₂ → s₂.tokens = s₁.tokens → s.Gives depth Q (read s₂)) :
    s.Gives depth Node.RefersBelow (do
      let (a, s) ← read (← s₁.opened curly p)
      pure (s.ended p (make a))) := by
  refine (meets_opened curly p hs₁).bind fun s₂ h₂ => ?_
  refine Meets.bind (hr s₂ h₂.1 h₂.2) fun a ha => ?_
  obtain ⟨he, hn⟩ := after_ended (p := p) ha.1.wellFormed (hmake _ _ ha.2)
  exact ⟨ha.1.trans he, hn⟩

theorem gives_scalar {depth : Nat} {s₁ : Reading} (plain : Bool) (text : List Char) (p : Properties)
    (hs₁ : s.After s₁) : s.Gives depth Node.RefersBelow (s₁.scalar plain text p) := by
  refine (meets_opened false p hs₁).bind fun s₂ h₂ => ?_
  obtain ⟨he, hn⟩ := after_ended (p := p) h₂.1.wellFormed (Node.refersBelow_scalar _ _ _)
  exact ⟨h₂.1.trans he, hn⟩

theorem gives_readNode (ih : ReadsAt fuel) (depth : Nat) (place : Place) (h : s.WellFormed) :
    s.Gives depth Node.RefersBelow (readNode (fuel + 1) depth place s) := by
  cases depth with
  | zero =>
    unfold readNode
    exact Fault.FromTokens.deep (Nat.zero_le _)
  | succ depth =>
    unfold readNode
    refine (meets_peek _ h.after).bind fun t ht => ?_
    split
    · refine (meets_resolve _ h).bind fun n hn => ?_
      exact ⟨h.after.drop, hn⟩
    · refine (meets_readProperties _ h).bind ?_
      rintro ⟨p, s₁⟩ hs₁
      dsimp only at hs₁ ⊢
      refine (meets_peek _ hs₁).bind fun t ht => ?_
      -- the token that begins a list or a map makes up for its level
      have room (s₂ : Reading) (h₂ : s₂.tokens = s₁.tokens) :
          depth + 1 + s₂.drop.tokens.length ≤ depth + s.tokens.length := by
        have hl : s₂.drop.tokens.length + 1 = s₁.tokens.length := by
          rw [ht, Reading.drop, h₂, ht]
          rfl
        have hle := hs₁.length_le
        omega
      split
      · exact gives_collection false p (fun _ _ => Node.refersBelow_list.mpr) hs₁ fun s₂ h₂ _ =>
          (ih.partItems depth h₂.wellFormed).since h₂ (Nat.add_le_add_left h₂.length_le _)
      · exact gives_scalar _ _ p hs₁.drop
      · exact gives_collection false p (fun _ _ => Node.refersBelow_list.mpr) hs₁ fun s₂ h₂ hl =>
          (ih.flowItems depth true h₂.drop.wellFormed).since h₂.drop (room s₂ hl)
      · exact gives_collection true p (fun _ _ => Node.refersBelow_map.mpr) hs₁ fun s₂ h₂ hl =>
          (ih.flowEntries depth true h₂.drop.wellFormed).since h₂.drop (room s₂ hl)
      · exact gives_collection false p (fun _ _ => Node.refersBelow_list.mpr) hs₁ fun s₂ h₂ hl =>
          (ih.blockItems depth h₂.drop.wellFormed).since h₂.drop (room s₂ hl)
      · exact gives_collection false p (fun _ _ => Node.refersBelow_list.mpr) hs₁ fun s₂ h₂ hl =>
          (ih.blockItems depth h₂.drop.wellFormed).since h₂.drop (room s₂ hl)
      · exact gives_collection true p (fun _ _ => Node.refersBelow_map.mpr) hs₁ fun s₂ h₂ hl =>
          (ih.blockEntries depth h₂.drop.wellFormed).since h₂.drop (room s₂ hl)
      · exact gives_collection true p (fun _ _ => Node.refersBelow_map.mpr) hs₁ fun s₂ h₂ hl =>
          (ih.blockEntries depth h₂.drop.wellFormed).since h₂.drop (room s₂ hl)
      · split
        · exact gives_scalar _ _ p hs₁
        · exact .form

end Step

/-- **Every reader of nodes** reads on from where it was, refers to none but nodes that have ended,
and fails for a reason that the tokens have. -/
theorem readsAt (fuel : Nat) : ReadsAt fuel := by
  induction fuel with
  | zero =>
    have form {α : Type} {d : Nat} {s : Reading} {Q : Nat → α → Prop}
        {r : Except Fault (α × Reading)} (hr : r = .error .malformed) : s.Gives d Q r := by
      rw [hr]
      exact Fault.FromTokens.form
    exact ⟨fun _ _ _ => form (by rw [readNode]), fun _ _ _ _ => form (by rw [readUnless]),
      fun _ _ => form (by rw [readBlockItems]), fun _ _ => form (by rw [readPartItems]),
      fun _ _ _ _ => form (by rw [readValue]), fun _ _ => form (by rw [readBlockEntries]),
      fun _ _ _ => form (by rw [readFlowItems]), fun _ _ _ => form (by rw [readFlowEntries])⟩
  | succ fuel ih =>
    exact ⟨gives_readNode ih, gives_readUnless ih, gives_readBlockItems ih, gives_readPartItems ih,
      gives_readValue ih, gives_readBlockEntries ih, gives_readFlowItems ih,
      gives_readFlowEntries ih⟩

/-! ## Documents -/

/-- Nodes with an anchor refer to none but earlier ones, and the root refers to none but those. -/
structure Document.WellFormed (d : Document) : Prop where
  anchored : ∀ k (n : Node), d.anchored[k]? = some n → n.RefersBelow k
  root : d.root.RefersBelow d.anchored.length

section Whole

variable {s s' : Reading}

theorem Reading.After.withTokens {ts : List Token} (h : s.After s') (hts : ts <:+ s'.tokens) :
    s.After { s' with tokens := ts } :=
  ⟨⟨h.wellFormed.anchors, h.wellFormed.anchored⟩, hts.trans h.tokens, h.anchored⟩

theorem meets_readDirectives {d : Nat} (fuel : Nat) (versioned : Bool) (h : s.After s') :
    Meets (Fault.FromTokens d s.tokens) (fun t => s.After t) (readDirectives fuel versioned s') := by
  induction fuel generalizing versioned s' with
  | zero =>
    rw [readDirectives]
    exact .form
  | succ fuel ih =>
    unfold readDirectives
    refine (meets_peek d h).bind fun t _ => ?_
    split
    · split
      · exact .form
      · exact ih true h.drop
    · split
      · exact .form
      · exact ih versioned ⟨⟨h.wellFormed.anchors, h.wellFormed.anchored⟩, h.drop.tokens, h.anchored⟩
    · exact ih versioned h.drop
    · exact ⟨⟨h.wellFormed.anchors, h.wellFormed.anchored⟩, h.tokens, h.anchored⟩

theorem meets_expect {d : Nat} (t : Token) (h : s.After s') :
    Meets (Fault.FromTokens d s.tokens) (fun t => s.After t) (s'.expect t) := by
  refine (meets_peek d h).bind fun t _ => ?_
  split
  · exact h.drop
  · exact .form

theorem dropEnds_suffix (ts : List Token) : dropEnds ts <:+ ts := by
  fun_induction dropEnds ts with
  | case1 ts ih => exact ih.trans (List.suffix_cons _ _)
  | case2 ts => exact List.suffix_refl _

theorem dropDirectives_suffix (ts : List Token) : dropDirectives ts <:+ ts := by
  fun_induction dropDirectives ts with
  | case1 d ts ih => exact ih.trans (List.suffix_cons _ _)
  | case2 ts => exact List.suffix_refl _

/-- What is left ends with the end of the text. -/
theorem meets_checkEnd {d : Nat} (h : s.After s') :
    Meets (Fault.FromTokens d s.tokens) (fun _ => .finish ∈ s.tokens) s'.checkEnd := by
  have hends := h.withTokens (dropEnds_suffix s'.tokens)
  unfold Reading.checkEnd
  refine (meets_peek d hends).bind fun t ht => ?_
  split
  case isTrue hfinish =>
    refine hends.tokens.subset ?_
    rw [ht, hfinish]
    exact List.mem_cons_self
  · refine (meets_peek d (hends.withTokens (dropDirectives_suffix _))).bind fun _ _ => ?_
    exact .form

theorem gives_readRoot (h : s.WellFormed) : s.Gives maxDepth Node.RefersBelow (readRoot s) := by
  have nothing : s.Gives maxDepth Node.RefersBelow (pure (Reading.nothing, s)) :=
    ⟨h.after, Node.refersBelow_scalar _ _ _⟩
  unfold readRoot
  refine (meets_peek maxDepth h.after).bind fun t _ => ?_
  split
  · exact nothing
  · exact nothing
  · exact nothing
  · exact nothing
  · exact (readsAt _).node maxDepth .block h

end Whole

theorem Reading.wellFormed_start (ts : List Token) (handles : List (List Char × List Char)) :
    Reading.WellFormed { tokens := ts, handles } where
  anchors := nofun
  anchored _ _ h := nomatch h

/-- A document that is read is well-formed and has the end of its text, or the tokens account for the
fault. -/
theorem Document.meets_ofTokens_finish (ts : List Token) :
    Meets (Fault.FromTokens maxDepth ts)
      (fun o => .finish ∈ ts ∧ ∀ d, o = some d → d.WellFormed) (Document.ofTokens ts) := by
  have h := (Reading.wellFormed_start ts []).after
  have whole {s : Reading} (hs : s.tokens <:+ ts) (r : Node × Reading)
      (hr : s.After r.2 ∧ r.1.RefersBelow r.2.anchored.length) :
      Meets (Fault.FromTokens maxDepth s.tokens)
        (fun o => .finish ∈ ts ∧ ∀ d, o = some d → d.WellFormed) (do
          r.2.checkEnd
          pure (some (⟨r.2.anchored.reverse, r.1⟩ : Document))) := by
    refine (meets_checkEnd hr.1).bind fun _ hfinish => ⟨hs.subset hfinish, ?_⟩
    rintro _ ⟨⟩
    refine ⟨hr.1.wellFormed.anchored, ?_⟩
    rw [List.length_reverse]
    exact hr.2
  have directed : Meets (Fault.FromTokens maxDepth ts)
      (fun o => .finish ∈ ts ∧ ∀ d, o = some d → d.WellFormed) (do
        let s ← (← readDirectives (ts.length + 1) false { tokens := ts, handles := [] }).expect
          .documentStart
        let r ← readRoot s
        r.2.checkEnd
        pure (some (⟨r.2.anchored.reverse, r.1⟩ : Document))) := by
    refine (meets_readDirectives _ _ h).bind fun s₁ h₁ => ?_
    refine (meets_expect _ h₁).bind fun s₂ h₂ => ?_
    exact Meets.bind ((gives_readRoot h₂.wellFormed).since h₂
      (Nat.add_le_add_left h₂.length_le _)) (whole (List.suffix_refl ts))
  unfold Document.ofTokens
  refine (meets_peek maxDepth h).bind fun t ht => ?_
  split
  · refine ⟨?_, nofun⟩
    rw [show ts = _ from ht]
    exact List.mem_cons_self
  · exact directed
  · exact directed
  · exact Meets.bind ((readsAt _).node maxDepth .block (Reading.wellFormed_start ts _))
      (whole (List.suffix_refl ts))

/-- **A document that is read is well-formed**, or its tokens account for the fault. -/
theorem Document.meets_ofTokens (ts : List Token) :
    Meets (Fault.FromTokens maxDepth ts) (fun o => ∀ d, o = some d → d.WellFormed)
      (Document.ofTokens ts) :=
  (Document.meets_ofTokens_finish ts).mono (fun _ hf => hf) fun _ ho => ho.2

end Recurrence.Yaml
