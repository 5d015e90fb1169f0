import Recurrence.Text.Digit
import Recurrence.Yaml.Name

/-!
# Quoted scalars

Between single quotes a quote is written twice and all else stands for itself.  Between double
quotes a backslash begins an escape.  In both, a line end with the blanks around it is folded.

* `escaped?`, `escapeLength?`: the escapes by one character and by a number
* `character`: the character with a code
* `readQuoted`: the text behind an opening quote
-/

namespace Recurrence.Yaml

open Text

/-- What a backslash and this character stand for. -/
def escaped? : Char → Option Char
  | '0' => some '\x00'
  | 'a' => some '\x07'
  | 'b' => some '\x08'
  | 't' => some '\t'
  | '\t' => some '\t'
  | 'n' => some '\n'
  | 'v' => some '\x0b'
  | 'f' => some '\x0c'
  | 'r' => some '\r'
  | 'e' => some '\x1b'
  | ' ' => some ' '
  | '"' => some '"'
  | '\\' => some '\\'
  | '/' => some '/'
  | 'N' => some '\x85'
  | '_' => some '\xa0'
  | 'L' => some '\u2028'
  | 'P' => some '\u2029'
  | _ => none

/-- How many hexadecimal digits follow a backslash and this character. -/
def escapeLength? : Char → Option Nat
  | 'x' => some 2
  | 'u' => some 4
  | 'U' => some 8
  | _ => none

/-- The character with this code; half of a pair of units has none and is replaced. -/
def character (code : Nat) : Except Fault Char :=
  if 0x7FFFFFFF < code then .error .tooLarge
  else if 0x10FFFF < code then .error .noSuchValue
  else if 0xD800 ≤ code ∧ code ≤ 0xDFFF then .ok '\ufffd'
  else .ok (Char.ofNat code)

/-- The first `n` characters as a hexadecimal number. -/
def hexNumber? : (n : Nat) → (value : Nat) → List Char → Option Nat
  | 0, value, _ => some value
  | _ + 1, _, [] => none
  | n + 1, value, c :: r => (hexDigit? c).bind fun d => hexNumber? n (16 * value + d) r

/-- The line ends from here on, with blanks between them.  The bounds of a document may not be among
them. -/
def readBreaks : (fuel : Nat) → Cursor → Except Fault (List Char × Cursor)
  | 0, _ => .error .malformed
  | fuel + 1, c =>
    if atMarker c.rest then .error .malformed
    else
      let c := c.dropWhile isSpace
      match c.lineBreak? with
      | none => .ok ([], c)
      | some (x, c) => (readBreaks fuel c).map fun r => (x :: r.1, r.2)

/-- What the blanks and line ends at a place stand for. -/
def readFolded (c : Cursor) : Except Fault (List Char × Cursor) :=
  let (spaces, c) := c.takeWhile isSpace
  match c.lineBreak? with
  | none => .ok (spaces, c)
  | some (first, c) =>
    (readBreaks (c.rest.length + 1) c).map fun r => (foldBreaks first r.1, r.2)

/-- What an escape stands for, from behind its backslash. -/
def readEscape (c : Cursor) : Except Fault (List Char × Cursor) :=
  match c.rest with
  | [] => .error .malformed
  | x :: rest =>
    if isBreak x then readBreaks (rest.length + 1) c.next
    else
      match escaped? x, escapeLength? x with
      | some y, _ => .ok ([y], c.next)
      | none, some n =>
        match hexNumber? n 0 rest with
        | none => .error .malformed
        | some code => (character code).map fun y => ([y], c.skip (n + 1))
      | none, none => .error .malformed

/-- The text from a place up to the closing quote, and the place behind the quote. -/
def readQuotedFrom (double : Bool) : (fuel : Nat) → Cursor → Except Fault (List Char × Cursor)
  | 0, _ => .error .malformed
  | fuel + 1, c =>
    let go (r : Except Fault (List Char × Cursor)) : Except Fault (List Char × Cursor) := do
      let (piece, c) ← r
      (readQuotedFrom double fuel c).map fun s => (piece ++ s.1, s.2)
    match c.rest with
    | [] => .error .malformed
    | x :: rest =>
      if isGap x then go (readFolded c)
      else if double then
        if x = '"' then .ok ([], c.next)
        else if x = '\\' then go (readEscape c.next)
        else go (.ok ([x], c.next))
      else if x = '\'' then
        match rest with
        | '\'' :: _ => go (.ok (['\''], c.skip 2))
        | _ => .ok ([], c.next)
      else go (.ok ([x], c.next))

/-- The text of a quoted scalar, from its opening quote. -/
def readQuoted (double : Bool) (c : Cursor) : Except Fault (List Char × Cursor) :=
  readQuotedFrom double c.rest.length c.next

end Recurrence.Yaml
