import Recurrence.Yaml.Block
import Recurrence.Yaml.Plain
import Recurrence.Yaml.Quoted

/-!
# The tokens of a text

Reading a text into tokens takes its layout into account.  A line that is indented further than the
block around it may open a new block, and one that is indented less closes blocks.  Whether a scalar
is the key of a map is known only when a colon follows it, so that the token which says so is put in
front of the scalar afterwards.

* `KeyPlace`: where a key may have begun
* `Layout`: the place in the text, the blocks and brackets around it, and the tokens so far
* `Layout.fetch`: reads one more token
* `Token.ofText`: the tokens of a text; the last is `finish` or `broken`

A key lies on one line and is no longer than 1024 characters.  Tokens from a place on where a key
may have begun are not settled, and they are given up if the text cannot be read further.
-/

namespace Recurrence.Yaml

/-- Where a key may have begun: the number of its token and its place.  What begins a line of a map
is `required` to be a key. -/
structure KeyPlace where
  number : Nat
  required : Bool
  start : Cursor

/-- The state of reading tokens.  `margin` is the first column to the right of the column where the
entries of the innermost block begin, and zero outside of all blocks; `outer` has the margins of the
blocks around.  `key` is the place of a possible key between the innermost brackets, and `outerKeys`
has those around each pair of brackets, so that its length is the depth of brackets.  The last token
comes first. -/
structure Layout where
  cursor : Cursor
  margin : Nat := 0
  outer : List Nat := []
  keyAllowed : Bool := true
  key : Option KeyPlace := none
  outerKeys : List (Option KeyPlace) := []
  tokens : List Token := []

namespace Layout

def inFlow (s : Layout) : Bool := !s.outerKeys.isEmpty

def emit (t : Token) (s : Layout) : Layout := { s with tokens := t :: s.tokens }

/-- Puts tokens in front of the token with a number. -/
def insertAt (number : Nat) (ts : List Token) (s : Layout) : Layout :=
  let later := s.tokens.length - number
  { s with tokens := s.tokens.take later ++ ts.reverse ++ s.tokens.drop later }

/-! ## Keys -/

/-- A key cannot go on beyond its line or 1024 characters. -/
def isOver (c : Cursor) (k : KeyPlace) : Bool :=
  k.start.line != c.line || k.start.index + 1024 < c.index

/-- Gives up a possible key, unless it has to be one. -/
def giveUp : Option KeyPlace → Except Fault (Option KeyPlace)
  | some k => if k.required then .error .malformed else .ok none
  | none => .ok none

def giveUpOver (c : Cursor) (k : Option KeyPlace) : Except Fault (Option KeyPlace) :=
  if k.any (isOver c) then giveUp k else .ok k

/-- Gives up the possible keys that cannot go on. -/
def expire (s : Layout) : Except Fault Layout := do
  let key ← giveUpOver s.cursor s.key
  let outerKeys ← s.outerKeys.mapM (giveUpOver s.cursor)
  pure { s with key, outerKeys }

/-- Gives up the possible key between the innermost brackets. -/
def dropKey (s : Layout) : Except Fault Layout := do
  let key ← giveUp s.key
  pure { s with key }

/-- Notes that a key may begin here. -/
def saveKey (s : Layout) : Except Fault Layout :=
  if s.keyAllowed then do
    let s ← s.dropKey
    let required := !s.inFlow && s.margin == s.cursor.column + 1
    pure { s with key := some ⟨s.tokens.length, required, s.cursor⟩ }
  else .ok s

/-- How many tokens are settled: those before the first possible key. -/
def settled (s : Layout) : Nat :=
  (s.key :: s.outerKeys).foldl (fun n k => match k with
    | some k => min n k.number
    | none => n) s.tokens.length

/-! ## Blocks -/

/-- Closes the blocks whose entries begin to the right of a column. -/
def closeBlocks (margin : Nat) : (outer : List Nat) → Nat → List Token → Nat × List Nat × List Token
  | [], m, ts => if margin < m then (0, [], .blockEnd :: ts) else (m, [], ts)
  | o :: outer, m, ts =>
    if margin < m then closeBlocks margin outer o (.blockEnd :: ts) else (m, o :: outer, ts)

/-- Closes all blocks with a margin beyond this one.  Brackets hold blocks open. -/
def unwind (margin : Nat) (s : Layout) : Layout :=
  if s.inFlow then s
  else
    let (margin, outer, tokens) := closeBlocks margin s.outer s.margin s.tokens
    { s with margin, outer, tokens }

/-- Whether entries at this column begin a new block. -/
def opensBlock (column : Nat) (s : Layout) : Bool := s.margin ≤ column

/-- Opens a block whose entries begin at this column. -/
def openBlock (column : Nat) (s : Layout) : Layout :=
  { s with margin := column + 1, outer := s.margin :: s.outer }

/-- Opens a block of entries that begin here, if one is to be opened, with a token for it. -/
def openHere (t : Token) (s : Layout) : Layout :=
  if s.opensBlock s.cursor.column then (s.openBlock s.cursor.column).emit t else s

/-! ## Gaps -/

/-- Past blanks, comments and line ends; says whether a line ended. -/
def skipGap : (fuel : Nat) → Cursor → Bool × Cursor
  | 0, c => (false, c)
  | fuel + 1, c =>
    let c := c.skipComment
    match c.lineBreak? with
    | none => (false, c)
    | some (_, c) => (true, (skipGap fuel c).2)

/-- Goes on to the next token.  A mark of byte order at the very start is passed over. -/
def toToken (s : Layout) : Layout :=
  let c := match s.cursor.index, s.cursor.rest with
    | 0, '\ufeff' :: _ => s.cursor.next
    | _, _ => s.cursor
  let (broke, c) := skipGap (c.rest.length + 1) c
  { s with cursor := c, keyAllowed := s.keyAllowed || (broke && !s.inFlow) }

/-! ## Tokens -/

/-- Passes over the next `n` characters as one token. -/
def take (n : Nat) (t : Token) (s : Layout) : Layout :=
  { s.emit t with cursor := s.cursor.skip n }

/-- What is outside of all blocks: the bounds of a document and the lines before it. -/
def outermost (s : Layout) : Except Fault Layout := do
  let s ← (s.unwind 0).dropKey
  pure { s with keyAllowed := false }

def fetchDirective (s : Layout) : Except Fault Layout := do
  let s ← s.outermost
  let (d, c) ← readDirective s.cursor
  pure { s.emit (.directive d) with cursor := c }

def fetchMarker (t : Token) (s : Layout) : Except Fault Layout := do
  pure ((← s.outermost).take 3 t)

def fetchOpening (t : Token) (s : Layout) : Except Fault Layout := do
  let s ← s.saveKey
  pure ({ s with keyAllowed := true, key := none, outerKeys := s.key :: s.outerKeys }.take 1 t)

/-- A closing bracket without an opening one is a fault. -/
def fetchClosing (t : Token) (s : Layout) : Except Fault Layout := do
  let s ← s.dropKey
  match s.outerKeys with
  | [] => .error .malformed
  | key :: outerKeys => pure ({ s with keyAllowed := false, key, outerKeys }.take 1 t)

def fetchFlowEntry (s : Layout) : Except Fault Layout := do
  let s ← s.dropKey
  pure ({ s with keyAllowed := true }.take 1 .flowEntry)

/-- Outside of brackets an entry stands only where a key may begin. -/
def fetchBlockEntry (s : Layout) : Except Fault Layout := do
  let s ← if s.inFlow then pure s
    else if s.keyAllowed then pure (s.openHere .blockListStart)
    else .error .malformed
  let s ← s.dropKey
  pure ({ s with keyAllowed := true }.take 1 .blockEntry)

/-- The sign of a key, or of a value whose key has no sign before it. -/
def fetchSign (t : Token) (s : Layout) : Except Fault Layout := do
  let s ← if s.inFlow then pure s
    else if s.keyAllowed then pure (s.openHere .blockMapStart)
    else .error .malformed
  let s ← dropKey { s with keyAllowed := !s.inFlow }
  pure (s.take 1 t)

/-- The sign of a value.  What is noted as a possible key turns out to be one, and it may be the
first of a new block. -/
def fetchValue (s : Layout) : Except Fault Layout :=
  match s.key with
  | none => s.fetchSign .value
  | some k =>
    let s := { s with key := none, keyAllowed := false }
    let column := k.start.column
    if !s.inFlow && s.opensBlock column then
      .ok (((s.openBlock column).insertAt k.number [.blockMapStart, .key]).take 1 .value)
    else .ok ((s.insertAt k.number [.key]).take 1 .value)

/-- A token that may be a key or the first part of one. -/
def fetchWord (read : Cursor → Except Fault (Token × Cursor)) (s : Layout) :
    Except Fault Layout := do
  let s ← s.saveKey
  let (t, c) ← read s.cursor
  pure { s.emit t with cursor := c, keyAllowed := false }

def fetchBlock (folded : Bool) (s : Layout) : Except Fault Layout := do
  let s ← s.dropKey
  let (text, c) ← readBlock folded s.margin s.cursor
  pure { s.emit (.scalar false text) with cursor := c, keyAllowed := true }

def fetchPlain (s : Layout) : Except Fault Layout := do
  let s ← s.saveKey
  let (text, broke, c) := readPlain s.inFlow s.margin s.cursor
  pure { s.emit (.scalar true text) with cursor := c, keyAllowed := broke }

/-- Reads with a function and makes a token of the result. -/
def reading {α : Type} (read : Cursor → Except Fault (α × Cursor)) (t : α → Token) (c : Cursor) :
    Except Fault (Token × Cursor) :=
  (read c).map fun r => (t r.1, r.2)

/-- Reads the token that begins here, with the character `x`. -/
def fetchAt (x : Char) (rest : List Char) (s : Layout) : Except Fault Layout :=
  let first := s.cursor.column == 0
  if x = '%' && first then s.fetchDirective
  else if x = '-' && first && atMarker (x :: rest) then s.fetchMarker .documentStart
  else if x = '.' && first && atMarker (x :: rest) then s.fetchMarker .documentEnd
  else if x = '[' then s.fetchOpening .flowListStart
  else if x = '\x7b' then s.fetchOpening .flowMapStart
  else if x = ']' then s.fetchClosing .flowListEnd
  else if x = '\x7d' then s.fetchClosing .flowMapEnd
  else if x = ',' then s.fetchFlowEntry
  else if x = '-' && endsWord rest then s.fetchBlockEntry
  else if x = '?' && (s.inFlow || endsWord rest) then s.fetchSign .key
  else if x = ':' && (s.inFlow || endsWord rest) then s.fetchValue
  else if x = '*' then s.fetchWord (reading readAnchor .alias)
  else if x = '&' then s.fetchWord (reading readAnchor .anchor)
  else if x = '!' then s.fetchWord (reading readTag .tag)
  else if x = '|' && !s.inFlow then s.fetchBlock false
  else if x = '>' && !s.inFlow then s.fetchBlock true
  else if x = '\'' then s.fetchWord (reading (readQuoted false) (.scalar false))
  else if x = '"' then s.fetchWord (reading (readQuoted true) (.scalar false))
  else if startsPlain s.inFlow (x :: rest) then s.fetchPlain
  else .error .malformed

/-- Reads one more token, or the end of the text. -/
def fetch (s : Layout) : Except Fault Layout := do
  let s ← s.toToken.expire
  let s := s.unwind (s.cursor.column + 1)
  match s.cursor.rest with
  | [] => pure ((← s.outermost).emit .finish)
  | x :: rest => s.fetchAt x rest

/-- The tokens that are settled when a fault comes up, and the fault. -/
def breakOff (s : Layout) (f : Fault) : List Token :=
  (.broken f :: s.tokens.drop (s.tokens.length - s.settled)).reverse

/-- Reads tokens until the end of the text has its own. -/
def run : (fuel : Nat) → Layout → List Token
  | 0, s => s.breakOff .malformed
  | fuel + 1, s =>
    match s.expire with
    | .error f => s.breakOff f
    | .ok s =>
      match s.fetch with
      | .error f => s.breakOff f
      | .ok s' => if s'.tokens.head? = some .finish then s'.tokens.reverse else run fuel s'

end Layout

/-! ## Texts -/

/-- A character that a document may hold. -/
def isAllowed (c : Char) : Bool :=
  let n := c.toNat
  n == 9 || n == 10 || n == 13 || (32 ≤ n && n ≤ 126) || n == 0x85 || (0xA0 ≤ n && n ≤ 0xD7FF) ||
    (0xE000 ≤ n && n ≤ 0xFFFD) || 0x10000 ≤ n

/-- The text with line feeds for all other line ends of one line. -/
def unifyBreaks : List Char → List Char
  | [] => []
  | '\r' :: '\n' :: rest => '\n' :: unifyBreaks rest
  | '\r' :: rest => '\n' :: unifyBreaks rest
  | '\x85' :: rest => '\n' :: unifyBreaks rest
  | c :: rest => c :: unifyBreaks rest

/-- The tokens of a text. -/
def Token.ofText (s : List Char) : List Token :=
  if s.all isAllowed then
    let s := unifyBreaks s
    Layout.run (s.length + 1) { cursor := { rest := s } }
  else [.broken .malformed]

end Recurrence.Yaml
