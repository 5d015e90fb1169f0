import Recurrence.Yaml.Tag
import Recurrence.Yaml.Token

/-!
# Nodes of a document

A document is a tree of scalars, lists and maps, each with a tag.  A node that has an anchor is kept
in a list of its own, and the tree refers to it by its number there, as an alias does.

* `Node`, `Document`
* `Reading`: the tokens that are left, and what handles and anchors stand for
* `readNode`: a node, with the functions for the entries of each kind of list and map
* `Document.ofTokens`: the only document of a list of tokens, if there is one

Nodes may lie inside of each other `maxDepth` deep.
-/

namespace Recurrence.Yaml

/-- A node.  `anchored` refers to a node by its number among those with an anchor, and `enclosing`
to a list or, if `curly`, a map that the node is a part of. -/
inductive Node where
  | scalar (tag : Tag) (text : List Char)
  | list (tag : Tag) (items : List Node)
  | map (tag : Tag) (entries : List (Node × Node))
  | anchored (number : Nat)
  | enclosing (curly : Bool)

/-- A document: its nodes with an anchor, in the order in which they end, and its root. -/
structure Document where
  anchored : List Node
  root : Node

/-- What an anchor stands for: a list or map that has not ended, or a node by its number. -/
inductive Anchor where
  | opened (curly : Bool)
  | ended (number : Nat)

/-- The state of reading nodes.  The last anchored node comes first. -/
structure Reading where
  tokens : List Token
  handles : List (List Char × List Char)
  anchors : List (List Char × Anchor) := []
  anchored : List Node := []

/-- The properties of a node. -/
structure Properties where
  anchor : Option (List Char) := none
  tag : Option (List Char) := none

def maxDepth : Nat := 487

/-- The handles that need no directive. -/
def defaultHandles : List (List Char × List Char) := [(['!'], ['!']), (['!', '!'], commonLead)]

namespace Reading

/-- The next token, which has to be readable. -/
def peek (s : Reading) : Except Fault Token :=
  match s.tokens with
  | [] => .error .malformed
  | .broken f :: _ => .error f
  | t :: _ => .ok t

def drop (s : Reading) : Reading := { s with tokens := s.tokens.tail }

/-- Past a token that is due. -/
def expect (t : Token) (s : Reading) : Except Fault Reading := do
  if (← s.peek) = t then pure s.drop else .error .malformed

/-! ## Properties -/

/-- The full name of a tag. -/
def fullName (s : Reading) (t : TagName) : Except Fault (List Char) :=
  match t.handle with
  | none => .ok t.suffix
  | some h =>
    match s.handles.lookup h with
    | some lead => .ok (lead ++ t.suffix)
    | none => .error .malformed

/-- An anchor and a tag in either order. -/
def readProperties (s : Reading) : Except Fault (Properties × Reading) := do
  match ← s.peek with
  | .anchor a =>
    let s := s.drop
    match ← s.peek with
    | .tag t => pure (⟨some a, some (← s.fullName t)⟩, s.drop)
    | _ => pure (⟨some a, none⟩, s)
  | .tag t =>
    let s := s.drop
    match ← s.peek with
    | .anchor a => pure (⟨some a, some (← s.fullName t)⟩, s.drop)
    | _ => pure (⟨none, some (← s.fullName t)⟩, s)
  | _ => pure ({}, s)

/-- The tag of a list or a map; the tag `!` leaves the usual one. -/
def collectionTag (usual : Tag) (p : Properties) : Tag :=
  match p.tag with
  | none | some ['!'] => usual
  | some name => Tag.ofName name

/-- The tag of a scalar.  A plain one and one with the tag `!` have it from their spelling. -/
def scalarTag (plain : Bool) (text : List Char) (p : Properties) : Tag :=
  match p.tag with
  | none => if plain then Tag.ofPlain text else .text
  | some ['!'] => Tag.ofPlain text
  | some name => Tag.ofName name

/-! ## Anchors -/

/-- Notes that a list or map with these properties begins; an anchor may be used once only. -/
def opened (curly : Bool) (p : Properties) (s : Reading) : Except Fault Reading :=
  match p.anchor with
  | none => .ok s
  | some a =>
    if (s.anchors.lookup a).isSome then .error .malformed
    else .ok { s with anchors := (a, .opened curly) :: s.anchors }

/-- Notes that a node with these properties ends. -/
def ended (p : Properties) (n : Node) (s : Reading) : Node × Reading :=
  match p.anchor with
  | none => (n, s)
  | some a =>
    let number := s.anchored.length
    (.anchored number,
      { s with anchors := (a, .ended number) :: s.anchors, anchored := n :: s.anchored })

def scalar (plain : Bool) (text : List Char) (p : Properties) (s : Reading) :
    Except Fault (Node × Reading) := do
  let s ← s.opened false p
  pure (s.ended p (.scalar (scalarTag plain text p) text))

/-- What an alias refers to. -/
def resolve (name : List Char) (s : Reading) : Except Fault Node :=
  match s.anchors.lookup name with
  | some (.ended number) => .ok (.anchored number)
  | some (.opened curly) => .ok (.enclosing curly)
  | none => .error .malformed

/-- A node that is not written. -/
def nothing : Node := .scalar .null []

end Reading

/-! ## Nodes -/

/-- Which nodes may come next: inside of brackets, in a block, or as a part of a map in a block,
where a list needs no further indentation. -/
inductive Place where
  | flow
  | block
  | blockPart
deriving DecidableEq

mutual

/-- A node with at most `depth` nodes inside of each other. -/
def readNode (fuel depth : Nat) (place : Place) (s : Reading) : Except Fault (Node × Reading) :=
  match fuel, depth with
  | 0, _ => .error .malformed
  | _, 0 => .error .tooDeep
  | fuel + 1, depth + 1 => do
    match ← s.peek with
    | .alias name => pure (← s.resolve name, s.drop)
    | _ =>
      let (p, s) ← s.readProperties
      let list (s : Reading) (read : Reading → Except Fault (List Node × Reading)) := do
        let (items, s) ← read (← s.opened false p)
        pure (s.ended p (.list (Reading.collectionTag .list p) items))
      let map (s : Reading) (read : Reading → Except Fault (List (Node × Node) × Reading)) := do
        let (entries, s) ← read (← s.opened true p)
        pure (s.ended p (.map (Reading.collectionTag .map p) entries))
      match ← s.peek, place with
      | .blockEntry, .blockPart => list s (readPartItems fuel depth)
      | .scalar plain text, _ => s.drop.scalar plain text p
      | .flowListStart, _ => list s fun s => readFlowItems fuel depth true s.drop
      | .flowMapStart, _ => map s fun s => readFlowEntries fuel depth true s.drop
      | .blockListStart, .block | .blockListStart, .blockPart =>
        list s fun s => readBlockItems fuel depth s.drop
      | .blockMapStart, .block | .blockMapStart, .blockPart =>
        map s fun s => readBlockEntries fuel depth s.drop
      | _, _ =>
        if p.anchor.isSome || p.tag.isSome then s.scalar true [] p else .error .malformed

/-- A node, unless one of the tokens comes next before which nothing is written. -/
def readUnless (fuel depth : Nat) (place : Place) (stops : List Token) (s : Reading) :
    Except Fault (Node × Reading) :=
  match fuel with
  | 0 => .error .malformed
  | fuel + 1 => do
    if stops.contains (← s.peek) then pure (Reading.nothing, s) else readNode fuel depth place s

/-- The items of a list in a block, up to its end. -/
def readBlockItems (fuel depth : Nat) (s : Reading) : Except Fault (List Node × Reading) :=
  match fuel with
  | 0 => .error .malformed
  | fuel + 1 => do
    match ← s.peek with
    | .blockEntry =>
      let (n, s) ← readUnless fuel depth .block [.blockEntry, .blockEnd] s.drop
      let (ns, s) ← readBlockItems fuel depth s
      pure (n :: ns, s)
    | .blockEnd => pure ([], s.drop)
    | _ => .error .malformed

/-- The items of a list without a block of its own. -/
def readPartItems (fuel depth : Nat) (s : Reading) : Except Fault (List Node × Reading) :=
  match fuel with
  | 0 => .error .malformed
  | fuel + 1 => do
    match ← s.peek with
    | .blockEntry =>
      let (n, s) ← readUnless fuel depth .block [.blockEntry, .key, .value, .blockEnd] s.drop
      let (ns, s) ← readPartItems fuel depth s
      pure (n :: ns, s)
    | _ => pure ([], s)

/-- The value of an entry: a node behind its sign, or nothing. -/
def readValue (fuel depth : Nat) (place : Place) (stops : List Token) (s : Reading) :
    Except Fault (Node × Reading) :=
  match fuel with
  | 0 => .error .malformed
  | fuel + 1 => do
    if (← s.peek) = .value then readUnless fuel depth place stops s.drop
    else pure (Reading.nothing, s)

/-- The entries of a map in a block, up to its end. -/
def readBlockEntries (fuel depth : Nat) (s : Reading) :
    Except Fault (List (Node × Node) × Reading) :=
  match fuel with
  | 0 => .error .malformed
  | fuel + 1 => do
    match ← s.peek with
    | .key =>
      let stops := [.key, .value, .blockEnd]
      let (k, s) ← readUnless fuel depth .blockPart stops s.drop
      let (v, s) ← readValue fuel depth .blockPart stops s
      let (es, s) ← readBlockEntries fuel depth s
      pure ((k, v) :: es, s)
    | .blockEnd => pure ([], s.drop)
    | _ => .error .malformed

/-- The items of a list in brackets, up to the closing one.  A key makes a map of a single entry. -/
def readFlowItems (fuel depth : Nat) (first : Bool) (s : Reading) :
    Except Fault (List Node × Reading) :=
  match fuel with
  | 0 => .error .malformed
  | fuel + 1 => do
    if (← s.peek) = .flowListEnd then pure ([], s.drop)
    else
      let s ← if first then pure s else s.expect .flowEntry
      match ← s.peek with
      | .flowListEnd => pure ([], s.drop)
      | .key =>
        match depth with
        | 0 => .error .tooDeep
        | depth' + 1 =>
          let (k, s) ← readUnless fuel depth' .flow [.value, .flowEntry, .flowListEnd] s.drop
          let (v, s) ← readValue fuel depth' .flow [.flowEntry, .flowListEnd] s
          let (ns, s) ← readFlowItems fuel depth false s
          pure (.map .map [(k, v)] :: ns, s)
      | _ =>
        let (n, s) ← readNode fuel depth .flow s
        let (ns, s) ← readFlowItems fuel depth false s
        pure (n :: ns, s)

/-- The entries of a map in brackets, up to the closing one.  A node without a sign is a key without
a value. -/
def readFlowEntries (fuel depth : Nat) (first : Bool) (s : Reading) :
    Except Fault (List (Node × Node) × Reading) :=
  match fuel with
  | 0 => .error .malformed
  | fuel + 1 => do
    if (← s.peek) = .flowMapEnd then pure ([], s.drop)
    else
      let s ← if first then pure s else s.expect .flowEntry
      match ← s.peek with
      | .flowMapEnd => pure ([], s.drop)
      | .key =>
        let (k, s) ← readUnless fuel depth .flow [.value, .flowEntry, .flowMapEnd] s.drop
        let (v, s) ← readValue fuel depth .flow [.flowEntry, .flowMapEnd] s
        let (es, s) ← readFlowEntries fuel depth false s
        pure ((k, v) :: es, s)
      | _ =>
        let (k, s) ← readNode fuel depth .flow s
        let (es, s) ← readFlowEntries fuel depth false s
        pure ((k, Reading.nothing) :: es, s)

end

/-! ## Documents -/

/-- Past the directives in front of a document, which give it its handles and, once, its version. -/
def readDirectives : (fuel : Nat) → (versioned : Bool) → Reading → Except Fault Reading
  | 0, _, _ => .error .malformed
  | fuel + 1, versioned, s => do
    match ← s.peek with
    | .directive (.version major) =>
      if versioned || major ≠ 1 then .error .malformed else readDirectives fuel true s.drop
    | .directive (.handle name lead) =>
      if (s.handles.lookup name).isSome then .error .malformed
      else readDirectives fuel versioned { s.drop with handles := (name, lead) :: s.handles }
    | .directive .other => readDirectives fuel versioned s.drop
    | _ => pure { s with handles := s.handles ++ defaultHandles }

/-- Past the marks of the end of a document. -/
def dropEnds : List Token → List Token
  | .documentEnd :: ts => dropEnds ts
  | ts => ts

/-- Past the directives, which nothing may follow but what is readable. -/
def dropDirectives : List Token → List Token
  | .directive _ :: ts => dropDirectives ts
  | ts => ts

/-- Nothing follows a document but marks of its end. -/
def Reading.checkEnd (s : Reading) : Except Fault Unit := do
  let s := { s with tokens := dropEnds s.tokens }
  if (← s.peek) = .finish then pure ()
  else
    let _ ← { s with tokens := dropDirectives s.tokens }.peek
    .error .malformed

/-- The root of a document behind its first mark. -/
def readRoot (s : Reading) : Except Fault (Node × Reading) := do
  match ← s.peek with
  | .directive _ | .documentStart | .documentEnd | .finish => pure (Reading.nothing, s)
  | _ => readNode (4 * s.tokens.length + 4) maxDepth .block s

/-- The only document of the tokens, or none if there is nothing in them. -/
def Document.ofTokens (ts : List Token) : Except Fault (Option Document) := do
  let s : Reading := { tokens := ts, handles := [] }
  let finish (r : Node × Reading) : Except Fault (Option Document) := do
    r.2.checkEnd
    pure (some ⟨r.2.anchored.reverse, r.1⟩)
  match ← s.peek with
  | .finish => pure none
  | .directive _ | .documentStart =>
    let s ← (← readDirectives (ts.length + 1) false s).expect .documentStart
    finish (← readRoot s)
  | _ =>
    let s := { s with handles := defaultHandles }
    finish (← readNode (4 * ts.length + 4) maxDepth .block s)

end Recurrence.Yaml
