import Recurrence.Yaml.Layout
import Recurrence.Yaml.Node
import Recurrence.Yaml.Scalar

/-!
# The value of a document

Every node stands for a value by its tag.  A map may take over the entries of other maps under a
merge key: those come first, and its own entries replace them.

* `Outcome`: a value, or a fault and how deep below the node it lies
* `Meaning`: what a node is good for, as a value and as a part of other nodes
* `Node.meaning`: the meaning of a node, given those of the nodes with an anchor
* `Document.value`, `Yaml.read`: the value of a document and of a text

The first fault of a document is the one that lies least deep, and among equals the one that comes
first in the text.
-/

namespace Recurrence.Yaml

/-! ## Outcomes -/

/-- A value, or the fault that prevents it and how deep it lies. -/
abbrev Outcome (α : Type) := Except (Nat × Fault) α

/-- A fault of the node itself. -/
def here {α : Type} (f : Fault) : Outcome α := .error (0, f)

/-- What happens one level below. -/
def below {α : Type} (o : Outcome α) : Outcome α := o.mapError fun e => (e.1 + 1, e.2)

/-- Two values, or the first of the faults that lie least deep. -/
def both {α β : Type} : Outcome α → Outcome β → Outcome (α × β)
  | .ok a, .ok b => .ok (a, b)
  | .error e, .error f => .error (if f.1 < e.1 then f else e)
  | .error e, .ok _ => .error e
  | .ok _, .error f => .error f

/-- All values, or the first of the faults that lie least deep. -/
def gather {α : Type} : List (Outcome α) → Outcome (List α)
  | [] => .ok []
  | o :: os => (both o (gather os)).map fun r => r.1 :: r.2

/-! ## Meanings -/

/-- A key and a value. -/
structure Entry where
  key : Outcome Value
  value : Outcome Value

/-- The entries that a node hands on when it is merged into a map: those of a map, of which there
are none if it has a faulty merge itself, or those of the items of a list. -/
inductive Merge where
  | map (entries : Option (List Entry))
  | list (items : List (Option (List Entry)))
  | nothing

/-- What a node is good for.  `text` is the scalar it is or, for a map, the one under its default
key; `pair` is the only entry of a map. -/
structure Meaning where
  tag : Tag
  value : Outcome Value
  text : Option (List Char) := none
  pair : Option (Outcome Value) := none
  merge : Merge := .nothing

/-- The meaning of nothing at all. -/
instance : Inhabited Meaning := ⟨{ tag := .null, value := .ok .null, text := some [] }⟩

/-! ## Scalars -/

def Meaning.ofScalar (tag : Tag) (s : List Char) : Meaning where
  tag := tag
  text := some s
  value := match tag with
    | .list | .map | .set | .pairs => .error (1, .malformed)
    | tag => (scalarValue tag s).mapError fun f => (0, f)

/-! ## Lists -/

/-- The entries of an item that is merged. -/
def Merge.item : Merge → Option (List Entry)
  | .map entries => entries
  | _ => none

def Meaning.ofList (tag : Tag) (items : List Meaning) : Meaning where
  tag := tag
  merge := .list (items.map fun m => m.merge.item)
  value := match tag with
    | .list => (below (gather (items.map Meaning.value))).map .list
    | .pairs => (below (gather (items.map fun m => m.pair.getD (here .malformed)))).map .list
    | .map | .set => .error (1, .malformed)
    | _ => here .malformed

/-! ## Maps -/

/-- All entries that a node hands on.  The first item of a list counts most and so comes last. -/
def Merge.all : Merge → Option (List Entry)
  | .map entries => entries
  | .list items => (items.reverse.mapM id).map List.flatten
  | .nothing => none

/-- Whether a value can be a key. -/
def isKey : Value → Bool
  | .list _ | .tuple _ | .set _ | .map _ | .enclosing _ => false
  | _ => true

/-- The value of a key.  A list or a map cannot be one, whatever lies inside of it. -/
def keyValue (o : Outcome Value) : Outcome Value :=
  match o with
  | .ok v => if isKey v then .ok v else here .malformed
  | .error (0, f) => here f
  | .error _ => here .malformed

/-- Puts an entry into a map; a key that is there keeps its place and gets the new value. -/
def put (k v : Value) : List (Value × Value) → List (Value × Value)
  | [] => [(k, v)]
  | e :: r => if e.1.same k then (e.1, v) :: r else e :: put k v r

/-- The entries as a map without repeated keys. -/
def assemble (entries : List Entry) : Outcome (List (Value × Value)) :=
  (gather (entries.map fun e => both (keyValue e.key) e.value)).map fun es =>
    es.foldl (fun m e => put e.1 e.2 m) []

/-- The value of a node that is a key.  The sign for the default key is a text there. -/
def Meaning.asKey (m : Meaning) : Outcome Value :=
  if m.tag = .defaultValue then
    match m.text with
    | some s => .ok (.text (String.ofList s))
    | none => here .malformed
  else m.value

/-- All entries of a map: the merged ones, then its own. -/
def allEntries (es : List (Meaning × Meaning)) : Option (List Entry) :=
  let merges := es.filter fun e => e.1.tag = .merge
  let own := es.filter fun e => e.1.tag ≠ .merge
  (merges.mapM fun (e : Meaning × Meaning) => e.2.merge.all).map fun merged =>
    merged.flatten ++ own.map fun e => ⟨e.1.asKey, e.2.value⟩

/-- The scalar under the default key. -/
def defaultText (es : List (Meaning × Meaning)) : Option (List Char) :=
  match es.find? fun e => e.1.tag = .defaultValue with
  | some e => e.2.text
  | none => none

/-- A map that is tagged as a scalar stands for the scalar under its default key. -/
def defaultScalar (tag : Tag) (s : Option (List Char)) : Outcome Value :=
  match tag, s with
  | _, none => here .malformed
  | .time, some _ => here .timeOfMap
  | tag, some s => (scalarValue tag s).mapError fun f => (0, f)

def Meaning.ofMap (tag : Tag) (es : List (Meaning × Meaning)) : Meaning :=
  let entries := allEntries es
  let assembled := below ((entries.map assemble).getD (here .malformed))
  let text := defaultText es
  { tag, text
    merge := .map entries
    pair := match es with
      | [(k, v)] => some ((both k.value v.value).map fun r => .tuple [r.1, r.2])
      | _ => none
    value := match tag with
      | .map => assembled.map .map
      | .set => assembled.map fun es => .set (es.map (·.1))
      | .list | .pairs => .error (1, .malformed)
      | tag => defaultScalar tag text }

/-- A list or map inside of itself; nothing new can be merged from it. -/
def Meaning.ofEnclosing (curly : Bool) : Meaning where
  tag := if curly then .map else .list
  value := .ok (.enclosing curly)
  merge := if curly then .map (some []) else .list []

/-! ## Nodes -/

mutual

def Node.meaning (known : List Meaning) : Node → Meaning
  | .scalar tag s => Meaning.ofScalar tag s
  | .list tag items => Meaning.ofList tag (Node.meanings known items)
  | .map tag entries => Meaning.ofMap tag (Node.entryMeanings known entries)
  | .anchored n => known.getD n default
  | .enclosing curly => Meaning.ofEnclosing curly

def Node.meanings (known : List Meaning) : List Node → List Meaning
  | [] => []
  | n :: ns => n.meaning known :: Node.meanings known ns

def Node.entryMeaning (known : List Meaning) : Node × Node → Meaning × Meaning
  | (k, v) => (k.meaning known, v.meaning known)

def Node.entryMeanings (known : List Meaning) : List (Node × Node) → List (Meaning × Meaning)
  | [] => []
  | e :: es => Node.entryMeaning known e :: Node.entryMeanings known es

end

/-- The meanings of the nodes with an anchor.  Each may refer to those before it. -/
def Document.known (d : Document) : List Meaning :=
  d.anchored.foldl (fun known n => known ++ [n.meaning known]) []

def Document.value (d : Document) : Except Fault Value :=
  (d.root.meaning d.known).value.mapError (·.2)

/-- The value of a text; a text without a document has none, which reads as null. -/
def read (s : String) : Except Fault Value := do
  match ← Document.ofTokens (Token.ofText s.toList) with
  | none => .ok .null
  | some d => d.value

end Recurrence.Yaml
