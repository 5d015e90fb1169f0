import Recurrence.Proofs.Json.Grammar

/-!
# Styles of JSON texts

A style says which gaps, labels, numbers and strings a text has, and a text keeps to it if all of its
parts do (`Tree.keeps`).  How deep values lie inside of each other is no matter of style (`Tree.height`).
-/

namespace Recurrence.Json

structure Style where
  gap : Gap → Bool := fun _ => true
  label : Label → Bool := fun _ => true
  number : Numeral → Bool := fun _ => true
  text : List Piece → Bool := fun _ => true

def Label.keeps (k : Style) (l : Label) : Bool :=
  k.text l.name && (k.gap l.colon && (k.label l && k.gap l.before))

mutual

/-- Whether all parts of a value are in the style. -/
def Tree.keeps (k : Style) : Tree → Bool
  | .null => true
  | .bool _ => true
  | .number n => k.number n
  | .text ps => k.text ps
  | .emptyList gap => k.gap gap
  | .list gap items => k.gap gap && items.keeps k
  | .emptyMap gap => k.gap gap
  | .map gap members => k.gap gap && members.keeps k

def Items.keeps (k : Style) : Items → Bool
  | .last t gap => t.keeps k && k.gap gap
  | .more t gap next rest => t.keeps k && (k.gap gap && (k.gap next && rest.keeps k))

def Members.keeps (k : Style) : Members → Bool
  | .last l t gap => l.keeps k && (t.keeps k && k.gap gap)
  | .more l t gap next rest =>
    l.keeps k && (t.keeps k && (k.gap gap && (k.gap next && rest.keeps k)))

end

def Document.keeps (k : Style) (d : Document) : Bool :=
  k.gap d.before && (d.root.keeps k && k.gap d.after)

mutual

/-- How many values lie inside of each other. -/
def Tree.height : Tree → Nat
  | .null => 1
  | .bool _ => 1
  | .number _ => 1
  | .text _ => 1
  | .emptyList _ => 1
  | .list _ items => items.height + 1
  | .emptyMap _ => 1
  | .map _ members => members.height + 1

def Items.height : Items → Nat
  | .last t _ => t.height
  | .more t _ _ rest => max t.height rest.height

def Members.height : Members → Nat
  | .last _ t _ => t.height
  | .more _ t _ _ rest => max t.height rest.height

end

theorem Tree.height_pos (t : Tree) : 0 < t.height := by
  cases t <;> exact Nat.succ_pos _

theorem Members.height_pos (members : Members) : 0 < members.height := by
  match members with
  | .last _ t _ => exact t.height_pos
  | .more _ t _ _ _ => exact Nat.lt_of_lt_of_le t.height_pos (Nat.le_max_left _ _)

end Recurrence.Json
