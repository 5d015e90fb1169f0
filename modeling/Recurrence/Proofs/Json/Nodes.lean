import Recurrence.Proofs.Json.Tokens
import Recurrence.Proofs.Yaml.FlowNode

/-!
# The nodes of a JSON text as a document

The tokens of a value are read as its node (`Tree.reads`), unless a label is not near its colon or
values lie too deep inside of each other.  Strings are quoted and so never taken for anything but texts,
whereas the tag of a word is told by its spelling.

* `Tree.node`: the node of a value
* **`ofTokens_eq`**: the document of a text
-/

namespace Recurrence.Json

open Yaml Yaml.Layout

/-! ## Nodes -/

/-- A scalar that is not quoted. -/
def wordNode (w : List Char) : Node := .scalar (Tag.ofPlain w) w

def Label.node (l : Label) : Node := .scalar .text (l.name.map Piece.char)

mutual

def Tree.node : Tree → Node
  | .null => wordNode "null".toList
  | .bool true => wordNode "true".toList
  | .bool false => wordNode "false".toList
  | .number n => wordNode n.chars
  | .text ps => .scalar .text (ps.map Piece.char)
  | .emptyList _ => .list .list []
  | .list _ items => .list .list items.nodes
  | .emptyMap _ => .map .map []
  | .map _ members => .map .map members.nodes

def Items.nodes : Items → List Node
  | .last t _ => [t.node]
  | .more t _ _ rest => t.node :: rest.nodes

def Members.nodes : Members → List (Node × Node)
  | .last l t _ => [(l.node, t.node)]
  | .more l t _ _ rest => (l.node, t.node) :: rest.nodes

end

/-- Every label is near its colon. -/
def Style.near : Style where
  label l := isNear (quoted l.name).length l.colon.chars

@[simp] theorem Style.gap_near (g : Gap) : Style.near.gap g = true := rfl

@[simp] theorem Style.text_near (ps : List Piece) : Style.near.text ps = true := rfl

theorem Label.keeps_near (l : Label) :
    l.keeps Style.near = isNear (quoted l.name).length l.colon.chars := by
  simp only [Label.keeps, Style.text_near, Style.gap_near, Bool.true_and, Bool.and_true]
  rfl

/-! ## Reading -/

theorem Tree.exists_begins (t : Tree) : ∃ k ks, t.tokens = k :: ks ∧ k.begins = true := by
  cases t with
  | bool b => cases b <;> exact ⟨_, _, rfl, rfl⟩
  | _ => exact ⟨_, _, rfl, rfl⟩

section Reads

variable {s : Yaml.Reading} {fuel depth : Nat} {first : Bool} {r : List Yaml.Token}

theorem readFlowItems_tree (t : Tree) :
    readFlowItems (fuel + 1) depth first (s.ahead (behindComma first (t.tokens ++ r))) =
      (readNode fuel depth .flow (s.ahead (t.tokens ++ r))).bind fun a =>
        (readFlowItems fuel depth false a.2).map fun b => (a.1 :: b.1, b.2) := by
  obtain ⟨k, ks, ht, hk⟩ := t.exists_begins
  rw [ht]
  exact readFlowItems_node first hk

/-- An entry whose key is near its colon is read, and one whose key is not is none. -/
theorem yields_entry {ok ok' : Bool} {es : List (Node × Node)} {s' : Yaml.Reading} (l : Label) (t : Tree)
    (ht : Yields ok (t.node, s.ahead r) (readNode fuel (depth + 1) .flow (s.ahead (t.tokens ++ r))))
    (hes : Yields ok' (es, s') (readFlowEntries (fuel + 2) (depth + 1) false (s.ahead r))) :
    Yields (l.keeps Style.near && (ok && ok')) ((l.node, t.node) :: es, s')
      (readFlowEntries (fuel + 3) (depth + 1) first
        (s.ahead (behindComma first (l.tokens ++ (t.tokens ++ r))))) := by
  rw [l.keeps_near, Label.tokens]
  cases isNear (quoted l.name).length l.colon.chars with
  | true =>
    obtain ⟨k, ks, hks, hk⟩ := t.exists_begins
    rw [hks] at ht ⊢
    show Yields (true && _) _ (readFlowEntries (fuel + 3) (depth + 1) first (s.ahead
      (behindComma first (.key :: .scalar false (l.name.map Piece.char) :: .value :: k :: (ks ++ r)))))
    rw [readFlowEntries_near first _ hk, Bool.true_and]
    exact ht.bind (hes.map fun es => ((l.node, t.node) :: es.1, es.2))
  | false => exact readFlowEntries_far (fuel + 3) first _ _

theorem Label.two_le_length_tokens (l : Label) : 2 ≤ l.tokens.length := by
  rw [Label.tokens, labelTokens, List.length_append]
  exact Nat.le_add_left _ _

theorem tooHigh {ok : Bool} {height : Nat} (h : 0 < height) : (ok && decide (height ≤ 0)) = false := by
  rw [decide_eq_false (Nat.not_le_of_lt h), Bool.and_false]

/-- A value is read if there is fuel and depth left. -/
theorem yields_succ {place : Place} (t : Tree) (hfuel : 3 * t.tokens.length ≤ fuel)
    (h : ∀ f d, fuel = f + 1 → Yields (t.keeps Style.near && t.height ≤ d + 1) (t.node, s.ahead r)
      (readNode (f + 1) (d + 1) place (s.ahead (t.tokens ++ r)))) :
    Yields (t.keeps Style.near && t.height ≤ depth) (t.node, s.ahead r)
      (readNode fuel depth place (s.ahead (t.tokens ++ r))) := by
  obtain ⟨k, ks, hk, -⟩ := t.exists_begins
  rw [hk, List.length_cons] at hfuel
  obtain ⟨fuel, rfl⟩ : ∃ k, fuel = k + 1 := ⟨fuel - 1, by omega⟩
  cases depth with
  | zero => exact yields_of_error (readNode_tooDeep _ _) (tooHigh t.height_pos)
  | succ depth => exact h fuel depth rfl

mutual

/-- **The tokens of a value are read** as its node. -/
theorem Tree.reads {s : Yaml.Reading} {fuel depth : Nat} {place : Place} {r : List Yaml.Token} :
    (t : Tree) → 3 * t.tokens.length ≤ fuel →
      Yields (t.keeps Style.near && t.height ≤ depth) (t.node, s.ahead r)
        (readNode fuel depth place (s.ahead (t.tokens ++ r)))
  | .null, hfuel => yields_succ .null hfuel fun _ _ _ => yields_of_ok (readNode_scalar true _)
  | .bool true, hfuel =>
    yields_succ (.bool true) hfuel fun _ _ _ => yields_of_ok (readNode_scalar true _)
  | .bool false, hfuel =>
    yields_succ (.bool false) hfuel fun _ _ _ => yields_of_ok (readNode_scalar true _)
  | .number n, hfuel =>
    yields_succ (.number n) hfuel fun _ _ _ => yields_of_ok (readNode_scalar true _)
  | .text ps, hfuel =>
    yields_succ (.text ps) hfuel fun _ _ _ => yields_of_ok (readNode_scalar false _)
  | .emptyList gap, hfuel => by
    refine yields_succ (.emptyList gap) hfuel fun f d hf => ?_
    have hlength : 6 ≤ fuel := hfuel
    obtain ⟨f, rfl⟩ : ∃ k, f = k + 1 := ⟨f - 1, by omega⟩
    show Yields true _ (readNode (f + 2) (d + 1) place (s.ahead (.flowListStart :: .flowListEnd :: r)))
    rw [readNode_list]
    exact (yields_of_ok (readFlowItems_end true)).map fun a => (Node.list .list a.1, a.2)
  | .list gap items, hfuel => by
    refine yields_succ (.list gap items) hfuel fun f d hf => ?_
    have hlength : 3 * (items.tokens.length + 1) ≤ fuel := hfuel
    have hitems : Yields _ _ (readFlowItems f d true (s.ahead (items.tokens ++ r))) :=
      items.reads true (by omega)
    show Yields _ _ (readNode (f + 1) (d + 1) place (s.ahead (.flowListStart :: (items.tokens ++ r))))
    rw [readNode_list]
    refine (hitems.map fun a => (Node.list .list a.1, a.2)).congr ?_
    rw [Tree.keeps, Tree.height, Style.gap_near, Bool.true_and, decide_eq_decide.2 Nat.succ_le_succ_iff]
  | .emptyMap gap, hfuel => by
    refine yields_succ (.emptyMap gap) hfuel fun f d hf => ?_
    have hlength : 6 ≤ fuel := hfuel
    obtain ⟨f, rfl⟩ : ∃ k, f = k + 1 := ⟨f - 1, by omega⟩
    show Yields true _ (readNode (f + 2) (d + 1) place (s.ahead (.flowMapStart :: .flowMapEnd :: r)))
    rw [readNode_map]
    exact (yields_of_ok (readFlowEntries_end true)).map fun a => (Node.map .map a.1, a.2)
  | .map gap members, hfuel => by
    refine yields_succ (.map gap members) hfuel fun f d hf => ?_
    have hlength : 3 * (members.tokens.length + 1) ≤ fuel := hfuel
    have hmembers : Yields _ _ (readFlowEntries f d true (s.ahead (members.tokens ++ r))) :=
      members.reads true (by omega)
    show Yields _ _ (readNode (f + 1) (d + 1) place (s.ahead (.flowMapStart :: (members.tokens ++ r))))
    rw [readNode_map]
    refine (hmembers.map fun a => (Node.map .map a.1, a.2)).congr ?_
    rw [Tree.keeps, Tree.height, Style.gap_near, Bool.true_and, decide_eq_decide.2 Nat.succ_le_succ_iff]

theorem Items.reads {s : Yaml.Reading} {fuel depth : Nat} {r : List Yaml.Token} :
    (items : Items) → (first : Bool) → 3 * items.tokens.length ≤ fuel →
      Yields (items.keeps Style.near && items.height ≤ depth) (items.nodes, s.ahead r)
        (readFlowItems fuel depth first (s.ahead (behindComma first (items.tokens ++ r))))
  | .last t gap, first, hfuel => by
    simp only [Items.tokens, List.length_append, List.length_singleton] at hfuel
    obtain ⟨fuel, rfl⟩ : ∃ k, fuel = k + 2 := ⟨fuel - 2, by omega⟩
    simp only [Items.tokens, List.append_assoc, List.singleton_append]
    rw [readFlowItems_tree]
    refine ((t.reads (by omega)).bind
      ((yields_of_ok (readFlowItems_end false)).map fun b => (t.node :: b.1, b.2))).congr ?_
    rw [Items.keeps, Items.height, Style.gap_near, Bool.and_true, Bool.and_true]
  | .more t gap next rest, first, hfuel => by
    simp only [Items.tokens, List.length_append, List.length_cons] at hfuel
    obtain ⟨fuel, rfl⟩ : ∃ k, fuel = k + 1 := ⟨fuel - 1, by omega⟩
    simp only [Items.tokens, List.append_assoc, List.cons_append]
    rw [readFlowItems_tree]
    refine ((t.reads (by omega)).bind
      ((rest.reads false (by omega)).map fun b => (t.node :: b.1, b.2))).congr ?_
    simp only [Items.keeps, Items.height, Style.gap_near, Bool.true_and, Nat.max_le, Bool.decide_and]
    ac_rfl

theorem Members.reads {s : Yaml.Reading} {fuel depth : Nat} {r : List Yaml.Token} :
    (members : Members) → (first : Bool) → 3 * members.tokens.length ≤ fuel →
      Yields (members.keeps Style.near && members.height ≤ depth) (members.nodes, s.ahead r)
        (readFlowEntries fuel depth first (s.ahead (behindComma first (members.tokens ++ r))))
  | .last l t gap, first, hfuel => by
    have hlabel := l.two_le_length_tokens
    simp only [Members.tokens, List.length_append, List.length_singleton] at hfuel
    obtain ⟨fuel, rfl⟩ : ∃ k, fuel = k + 3 := ⟨fuel - 3, by omega⟩
    simp only [Members.tokens, List.append_assoc, List.singleton_append]
    cases depth with
    | zero =>
      refine yields_of_error (readFlowEntries_tooDeep _ _ _ _ _) ?_
      exact tooHigh (Members.last l t gap).height_pos
    | succ depth =>
      refine (yields_entry l t (t.reads (by omega))
        (yields_of_ok (readFlowEntries_end false))).congr ?_
      rw [Members.keeps, Members.height, Style.gap_near, Bool.and_true, Bool.and_true, Bool.and_assoc]
  | .more l t gap next rest, first, hfuel => by
    have hlabel := l.two_le_length_tokens
    simp only [Members.tokens, List.length_append, List.length_cons] at hfuel
    obtain ⟨fuel, rfl⟩ : ∃ k, fuel = k + 3 := ⟨fuel - 3, by omega⟩
    simp only [Members.tokens, List.append_assoc, List.cons_append]
    cases depth with
    | zero =>
      refine yields_of_error (readFlowEntries_tooDeep _ _ _ _ _) ?_
      exact tooHigh (Members.more l t gap next rest).height_pos
    | succ depth =>
      refine (yields_entry l t (t.reads (by omega)) (rest.reads false (by omega))).congr ?_
      simp only [Members.keeps, Members.height, Style.gap_near, Bool.true_and, Nat.max_le,
        Bool.decide_and]
      ac_rfl

end

end Reads

/-! ## Documents -/

/-- **The document of a value**, or a failure. -/
theorem ofTokens_eq (t : Tree) :
    if t.keeps Style.near && t.height ≤ maxDepth then
      Yaml.Document.ofTokens (t.tokens ++ [.finish]) = .ok (some ⟨[], t.node⟩)
    else ∃ f, Yaml.Document.ofTokens (t.tokens ++ [.finish]) = .error f := by
  obtain ⟨k, ks, hk, hbegins⟩ := t.exists_begins
  have htokens : t.tokens ++ [.finish] = k :: (ks ++ [.finish]) := by
    rw [hk]
    rfl
  rw [ofTokens_of_begins hbegins htokens]
  have hreads : Yields (t.keeps Style.near && t.height ≤ maxDepth)
      (t.node, Yaml.Reading.ahead { tokens := [], handles := defaultHandles } [.finish])
      (readNode (4 * (t.tokens ++ [Yaml.Token.finish]).length + 4) maxDepth .block
        { tokens := t.tokens ++ [.finish], handles := defaultHandles }) :=
    t.reads (by
      rw [List.length_append]
      omega)
  rw [Yields] at hreads
  split
  case isTrue hok =>
    rw [if_pos hok] at hreads
    rw [hreads]
    rfl
  case isFalse hok =>
    rw [if_neg hok] at hreads
    obtain ⟨f, hf⟩ := hreads
    rw [hf]
    exact ⟨f, rfl⟩

end Recurrence.Json
