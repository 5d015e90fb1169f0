import Recurrence.Text.Digit
import Recurrence.Yaml.Name

/-!
# Block scalars

A block scalar has its lines below its sign, all indented alike.  The literal kind keeps its line
ends; the folded kind joins lines that begin with a word.  Signs behind the first one say how far
the lines are indented and what becomes of the line ends at the end.

* `Ending`: what becomes of the line ends at the end
* `readHeader`: the signs in the first line
* `readBlock`: the whole text
-/

namespace Recurrence.Yaml

open Text

/-- What becomes of the line ends behind the last line. -/
inductive Ending where
  /-- one is kept -/
  | clip
  /-- all are dropped -/
  | strip
  /-- all are kept -/
  | keep
deriving DecidableEq, Repr

def Ending.ofSign? : Char → Option Ending
  | '+' => some .keep
  | '-' => some .strip
  | _ => none

/-- The line ends that are kept, of the one behind the last line and those after it. -/
def Ending.apply (e : Ending) (last more : List Char) : List Char :=
  match e with
  | clip => last
  | strip => []
  | keep => last ++ more

/-- A sign for the ending, if there is one. -/
def readEnding (c : Cursor) : Option (Ending × Cursor) :=
  match c.rest with
  | [] => none
  | x :: _ => (Ending.ofSign? x).map fun e => (e, c.next)

/-- A digit for the indentation, if there is one. -/
def readIncrement (c : Cursor) : Except Fault (Option Nat × Cursor) :=
  match c.rest with
  | [] => .ok (none, c)
  | x :: _ =>
    match asciiDigit? x with
    | none => .ok (none, c)
    | some 0 => .error .malformed
    | some n => .ok (some n, c.next)

/-- The two signs of the first line in either order, and the end of the line. -/
def readHeader (c : Cursor) : Except Fault ((Ending × Option Nat) × Cursor) := do
  let (header, c) ← match readEnding c with
    | some (e, c) => (readIncrement c).map fun r => ((e, r.1), r.2)
    | none => (readIncrement c).map fun r =>
      match r with
      | (none, c) => ((Ending.clip, none), c)
      | (n, c) =>
        match readEnding c with
        | some (e, c) => ((e, n), c)
        | none => ((Ending.clip, n), c)
  if !endsName c.rest then .error .malformed
  else
    let c := c.skipComment
    match c.lineBreak? with
    | some (_, c) => .ok (header, c)
    | none => if c.rest = [] then .ok (header, c) else .error .malformed

/-- Past blanks, but not beyond a column. -/
def skipIndent (indent : Nat) (c : Cursor) : Cursor :=
  c.skip (min (indent - c.column) (c.rest.takeWhile (· == ' ')).length)

/-- The line ends from here on, with blanks up to a column between them. -/
def blockBreaks (indent : Nat) : (fuel : Nat) → Cursor → List Char × Cursor
  | 0, c => ([], c)
  | fuel + 1, c =>
    let c := skipIndent indent c
    match c.lineBreak? with
    | none => ([], c)
    | some (x, c) =>
      let (more, c) := blockBreaks indent fuel c
      (x :: more, c)

/-- The line ends and blanks from here on: the line ends, and the last column that was reached. -/
def blockLead : (fuel : Nat) → Cursor → List Char × Nat × Cursor
  | 0, c => ([], 0, c)
  | fuel + 1, c =>
    let c := c.dropWhile (· == ' ')
    match c.lineBreak? with
    | none => ([], c.column, c)
    | some (x, c') =>
      let (more, column, c'') := blockLead fuel c'
      (x :: more, max c.column column, c'')

/-- Whether a line begins with a word. -/
def startsWithWord : List Char → Bool
  | [] => true
  | c :: _ => !isSpace c

/-- The lines from a place on that is indented as it should be, behind the line ends `lead`. -/
def readLines (folded : Bool) (ending : Ending) (indent : Nat) :
    (fuel : Nat) → (lead : List Char) → Cursor → List Char × Cursor
  | 0, _, c => ([], c)
  | fuel + 1, lead, c =>
    let (line, c) := c.takeWhile fun x => !isBreak x
    let (last, c) := match c.lineBreak? with
      | some (x, c) => ([x], c)
      | none => ([], c)
    let (more, c) := blockBreaks indent (c.rest.length + 1) c
    if c.column = indent && c.rest ≠ [] then
      let joint :=
        if folded && last = ['\n'] && startsWithWord line && startsWithWord c.rest then
          if more = [] then [' '] else []
        else last
      let (text, c) := readLines folded ending indent fuel more c
      (lead ++ line ++ joint ++ text, c)
    else (lead ++ line ++ ending.apply last more, c)

/-- The text of a block scalar, from its sign.  Its lines are indented by `margin` columns at least,
and by one in any case. -/
def readBlock (folded : Bool) (margin : Nat) (c : Cursor) : Except Fault (List Char × Cursor) := do
  let ((ending, increment), c) ← readHeader c.next
  let least := max margin 1
  let (lead, indent, c) := match increment with
    | none =>
      let (lead, column, c) := blockLead (c.rest.length + 1) c
      (lead, max least column, c)
    | some n =>
      let indent := least + n - 1
      let (lead, c) := blockBreaks indent (c.rest.length + 1) c
      (lead, indent, c)
  if c.column = indent && c.rest ≠ [] then
    .ok (readLines folded ending indent (c.rest.length + 1) lead c)
  else .ok (ending.apply [] lead, c)

end Recurrence.Yaml
