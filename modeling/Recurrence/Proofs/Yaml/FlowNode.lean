import Recurrence.Proofs.Yaml.Bracketed
import Recurrence.Proofs.Yaml.Node

/-!
# Nodes between brackets

How a node begins is told by its first token, and how the items of a list and the entries of a map follow
one another by the tokens between them.  Each lemma says what the readers of nodes do once these tokens
are known, so that an induction may follow the nodes instead of the readers.

* `Reading.ahead`: a state with other tokens
* `readNode_scalar`, `readNode_list`, `readNode_map`: nodes by their first token
* `readFlowItems_node`, `readFlowEntries_near`: an item, and an entry whose key is told
* `readFlowEntries_far`: a key that is not told
-/

namespace Recurrence.Yaml

namespace Reading

/-- The state with other tokens left. -/
def ahead (s : Reading) (ts : List Token) : Reading := { s with tokens := ts }

end Reading

/-- A node begins with this token, and has no properties. -/
def Token.begins : Token → Bool
  | .scalar _ _ => true
  | .flowListStart => true
  | .flowMapStart => true
  | _ => false

/-- What stands in front of all entries but the first. -/
def behindComma (first : Bool) (ts : List Token) : List Token :=
  if first then ts else .flowEntry :: ts

section Readers

variable {fuel depth : Nat} {place : Place} {s : Reading} {t : Token} {r : List Token}

theorem readNode_tooDeep (fuel : Nat) (s : Reading) : ∃ f, readNode fuel 0 place s = .error f := by
  cases fuel with
  | zero => exact ⟨_, by rw [readNode]⟩
  | succ fuel => exact ⟨_, by rw [readNode]; exact Nat.succ_ne_zero fuel⟩

theorem readNode_scalar (plain : Bool) (text : List Char) :
    readNode (fuel + 1) (depth + 1) place (s.ahead (.scalar plain text :: r)) =
      .ok (.scalar (if plain then Tag.ofPlain text else .text) text, s.ahead r) := by
  rw [readNode]
  cases place <;> rfl

theorem readNode_list :
    readNode (fuel + 1) (depth + 1) place (s.ahead (.flowListStart :: r)) =
      (readFlowItems fuel depth true (s.ahead r)).map fun a => (.list .list a.1, a.2) := by
  rw [readNode]
  cases place <;> rfl

theorem readNode_map :
    readNode (fuel + 1) (depth + 1) place (s.ahead (.flowMapStart :: r)) =
      (readFlowEntries fuel depth true (s.ahead r)).map fun a => (.map .map a.1, a.2) := by
  rw [readNode]
  cases place <;> rfl

theorem readFlowItems_end (first : Bool) :
    readFlowItems (fuel + 1) depth first (s.ahead (.flowListEnd :: r)) = .ok ([], s.ahead r) := by
  rw [readFlowItems]
  rfl

/-- An item is a node, and other items follow it. -/
theorem readFlowItems_node (first : Bool) (ht : t.begins = true) :
    readFlowItems (fuel + 1) depth first (s.ahead (behindComma first (t :: r))) =
      (readNode fuel depth .flow (s.ahead (t :: r))).bind fun a =>
        (readFlowItems fuel depth false a.2).map fun b => (a.1 :: b.1, b.2) := by
  rw [readFlowItems]
  cases first <;> cases t <;> first | rfl | cases ht

theorem readUnless_node {stops : List Token} (hstops : stops.contains t = false)
    (ht : t.begins = true) :
    readUnless (fuel + 1) depth place stops (s.ahead (t :: r)) =
      readNode fuel depth place (s.ahead (t :: r)) := by
  have hpeek : (s.ahead (t :: r)).peek = .ok t := by
    cases t <;> first | rfl | cases ht
  rw [readUnless, hpeek]
  show (if stops.contains t = true then _ else _) = _
  rw [if_neg (Bool.eq_false_iff.1 hstops)]

theorem not_contains_of_begins (ht : t.begins = true) :
    [Token.value, .flowEntry, .flowMapEnd].contains t = false ∧
      [Token.flowEntry, .flowMapEnd].contains t = false := by
  cases t <;> first | exact ⟨rfl, rfl⟩ | cases ht

theorem readFlowEntries_end (first : Bool) :
    readFlowEntries (fuel + 1) depth first (s.ahead (.flowMapEnd :: r)) = .ok ([], s.ahead r) := by
  rw [readFlowEntries]
  rfl

theorem readFlowEntries_key (first : Bool) :
    readFlowEntries (fuel + 1) depth first (s.ahead (behindComma first (.key :: r))) =
      (readUnless fuel depth .flow [.value, .flowEntry, .flowMapEnd] (s.ahead r)).bind fun k =>
        (readValue fuel depth .flow [.flowEntry, .flowMapEnd] k.2).bind fun v =>
          (readFlowEntries fuel depth false v.2).map fun es => ((k.1, v.1) :: es.1, es.2) := by
  rw [readFlowEntries]
  cases first <;> rfl

theorem readValue_sign {stops : List Token} :
    readValue (fuel + 1) depth place stops (s.ahead (.value :: r)) =
      readUnless fuel depth place stops (s.ahead r) := by
  rw [readValue]
  rfl

/-- An entry whose key is told is a key and a node, and other entries follow it. -/
theorem readFlowEntries_near (first : Bool) (name : List Char) (ht : t.begins = true) :
    readFlowEntries (fuel + 3) (depth + 1) first
        (s.ahead (behindComma first (.key :: .scalar false name :: .value :: t :: r))) =
      (readNode fuel (depth + 1) .flow (s.ahead (t :: r))).bind fun v =>
        (readFlowEntries (fuel + 2) (depth + 1) false v.2).map fun es =>
          ((.scalar .text name, v.1) :: es.1, es.2) := by
  have hkey : Token.begins (.scalar false name) = true := rfl
  rw [readFlowEntries_key, readUnless_node (not_contains_of_begins hkey).1 hkey, readNode_scalar]
  show (readValue (fuel + 2) (depth + 1) .flow [.flowEntry, .flowMapEnd]
    (s.ahead (.value :: t :: r))).bind _ = _
  rw [readValue_sign, readUnless_node (not_contains_of_begins ht).2 ht]
  rfl

/-- A node without a sign is a key without a value. -/
theorem readFlowEntries_node (first : Bool) (name : List Char) :
    readFlowEntries (fuel + 1) depth first (s.ahead (behindComma first (.scalar false name :: r))) =
      (readNode fuel depth .flow (s.ahead (.scalar false name :: r))).bind fun k =>
        (readFlowEntries fuel depth false k.2).map fun es =>
          ((k.1, Reading.nothing) :: es.1, es.2) := by
  rw [readFlowEntries]
  cases first <;> rfl

/-- A key that is not told to be one is an entry on its own, behind which a comma is due. -/
theorem readFlowEntries_far (fuel : Nat) (first : Bool) (name : List Char) (r : List Token) :
    ∃ f, readFlowEntries fuel (depth + 1) first
      (s.ahead (behindComma first (.scalar false name :: .value :: r))) = .error f := by
  match fuel with
  | 0 => exact ⟨_, by rw [readFlowEntries]⟩
  | 1 =>
    rw [readFlowEntries_node, readNode]
    · exact ⟨_, rfl⟩
  | fuel + 2 =>
    rw [readFlowEntries_node, readNode_scalar]
    refine ⟨.malformed, ?_⟩
    show (readFlowEntries (fuel + 1) (depth + 1) false (s.ahead (.value :: r))).map _ = _
    rw [readFlowEntries]
    rfl

/-- A key is a level deeper than its map. -/
theorem readFlowEntries_tooDeep (fuel : Nat) (first near : Bool) (name : List Char)
    (r : List Token) :
    ∃ f, readFlowEntries fuel 0 first
      (s.ahead (behindComma first (Layout.labelTokens near (.scalar false name) ++ r))) = .error f := by
  have hnode (fuel : Nat) (r : List Token) :
      ∃ f, readNode fuel 0 .flow (s.ahead (.scalar false name :: r)) = .error f :=
    readNode_tooDeep fuel _
  match fuel, near with
  | 0, _ => exact ⟨_, by rw [readFlowEntries]⟩
  | 1, true =>
    refine ⟨.malformed, ?_⟩
    show readFlowEntries 1 0 first (s.ahead (behindComma first (.key :: _))) = _
    rw [readFlowEntries_key, readUnless]
    rfl
  | fuel + 2, true =>
    have hkey : Token.begins (.scalar false name) = true := rfl
    obtain ⟨f, hf⟩ := hnode fuel (.value :: r)
    refine ⟨f, ?_⟩
    show readFlowEntries _ 0 first (s.ahead (behindComma first (.key :: .scalar false name :: _))) = _
    rw [readFlowEntries_key, readUnless_node (not_contains_of_begins hkey).1 hkey]
    show (readNode fuel 0 .flow (s.ahead (.scalar false name :: .value :: r))).bind _ = _
    rw [hf]
    rfl
  | fuel + 1, false =>
    obtain ⟨f, hf⟩ := hnode fuel (.value :: r)
    refine ⟨f, ?_⟩
    show readFlowEntries _ 0 first
      (s.ahead (behindComma first (.scalar false name :: (.value :: r)))) = _
    rw [readFlowEntries_node, hf]
    rfl

/-- A document that begins with a node consists of it. -/
theorem ofTokens_of_begins {ts : List Token} (ht : t.begins = true) (hts : ts = t :: r) :
    Document.ofTokens ts =
      (readNode (4 * ts.length + 4) maxDepth .block { tokens := ts, handles := defaultHandles }).bind
        fun a => a.2.checkEnd.map fun _ => some ⟨a.2.anchored.reverse, a.1⟩ := by
  have hpeek : Reading.peek { tokens := ts, handles := [] } = .ok t := by
    rw [hts]
    cases t <;> first | rfl | cases ht
  rw [Document.ofTokens]
  dsimp only
  rw [hpeek]
  cases t <;> first | rfl | cases ht

/-- Without the end of its text there is no document. -/
theorem exists_fault_of_finish_not_mem {ts : List Token} (h : .finish ∉ ts) :
    ∃ f, Document.ofTokens ts = .error f := by
  have hm := Document.meets_ofTokens_finish ts
  cases ho : Document.ofTokens ts with
  | error f => exact ⟨f, rfl⟩
  | ok o =>
    rw [ho] at hm
    exact absurd hm.1 h

end Readers

end Recurrence.Yaml
