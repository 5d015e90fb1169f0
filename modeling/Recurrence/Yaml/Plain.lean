import Recurrence.Yaml.Cursor

/-!
# Plain scalars

A scalar without quotes ends before a comment and before a colon that ends a key.  Inside of
brackets it also ends before the signs that belong to them, and outside of them where a line is
indented too little.  Line ends inside of it are folded.

* `startsPlain`: whether a plain scalar begins here
* `plainRun`: its characters up to the next gap
* `readPlain`: the whole text
-/

namespace Recurrence.Yaml

/-- The signs that have a meaning at the start of a scalar. -/
def isIndicator (c : Char) : Bool := "-?:,[]\x7b\x7d#&*!|>'\"%@\x60".toList.contains c

/-- The signs that end a plain scalar inside of brackets. -/
def isFlowSign (c : Char) : Bool := ",?[]\x7b\x7d".toList.contains c

/-- A colon before this ends a key. -/
def endsKey (flow : Bool) : List Char → Bool
  | [] => true
  | c :: _ => isGap c || (flow && ",[]\x7b\x7d".toList.contains c)

/-- A plain scalar begins with no sign, or with a hyphen, a question mark or a colon that no gap
follows, the latter two only outside of brackets. -/
def startsPlain (flow : Bool) : List Char → Bool
  | [] => false
  | c :: rest =>
    (!isGap c && !isIndicator c) ||
      (!endsWord rest && (c == '-' || (!flow && (c == '?' || c == ':'))))

/-- The characters up to a gap or an end of the scalar. -/
def plainRun (flow : Bool) : List Char → List Char
  | [] => []
  | c :: rest =>
    if isGap c || (c == ':' && endsKey flow rest) || (flow && isFlowSign c) then []
    else c :: plainRun flow rest

/-- The line ends from here on, with blanks between them, or nothing if the bounds of a document
come up. -/
def plainBreaks : (fuel : Nat) → Cursor → Option (List Char) × Cursor
  | 0, c => (some [], c)
  | fuel + 1, c =>
    let c := c.dropWhile (· == ' ')
    match c.lineBreak? with
    | none => (some [], c)
    | some (x, c) =>
      if atMarker c.rest then (none, c)
      else
        let (more, c) := plainBreaks fuel c
        (more.map (x :: ·), c)

/-- What the gap at a place stands for, whether a line ends in it, and the place behind it. -/
def plainGap (c : Cursor) : List Char × Bool × Cursor :=
  let (blanks, c) := c.takeWhile (· == ' ')
  match c.lineBreak? with
  | none => (blanks, false, c)
  | some (first, c) =>
    if atMarker c.rest then ([], true, c)
    else
      match plainBreaks (c.rest.length + 1) c with
      | (none, c) => ([], true, c)
      | (some more, c) => (foldBreaks first more, true, c)

/-- The text of a plain scalar from a place on, behind a `gap` that is part of it only if more
follows.  The second part says whether a line ends in the last gap. -/
def readPlainFrom (flow : Bool) (margin : Nat) :
    (fuel : Nat) → (gap : List Char) → (broke : Bool) → Cursor → List Char × Bool × Cursor
  | 0, _, broke, c => ([], broke, c)
  | fuel + 1, gap, broke, c =>
    let run := plainRun flow c.rest
    if run = [] || run.head? = some '#' then ([], broke, c)
    else
      let (gap', broke', c) := plainGap (c.skip run.length)
      if gap' = [] || (!flow && c.column < margin) then (gap ++ run, broke', c)
      else
        let (more, broke, c) := readPlainFrom flow margin fuel gap' broke' c
        (gap ++ run ++ more, broke, c)

/-- The text of a plain scalar whose lines have at least `margin` columns before them, whether a
line ends behind it, and the place where it is over. -/
def readPlain (flow : Bool) (margin : Nat) (c : Cursor) : List Char × Bool × Cursor :=
  readPlainFrom flow margin c.rest.length [] false c

end Recurrence.Yaml
