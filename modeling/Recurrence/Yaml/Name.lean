import Recurrence.Text.Decimal
import Recurrence.Yaml.Cursor
import Recurrence.Yaml.Token

/-!
# Names in a document

Anchors and aliases have names of letters, digits, hyphens and underscores.  A tag is a name in
which bytes may be escaped, and a handle in front of it stands for the front of a longer name.
Directives stand on lines of their own.

* `readAnchor`, `readTag`, `readDirective`: each begins at the sign that announces the name
* `decodeUri?`: a name with its escapes undone
-/

namespace Recurrence.Yaml

open Text

def isLetter (c : Char) : Bool :=
  (65 ≤ c.toNat && c.toNat ≤ 90) || (97 ≤ c.toNat && c.toNat ≤ 122)

def isNameChar (c : Char) : Bool := isAsciiDigit c || isLetter c || c == '-' || c == '_'

/-- A character of a tag. -/
def isUriChar (c : Char) : Bool :=
  isAsciiDigit c || isLetter c || "-;/?:@&=+$,_.!~*'()[]%".toList.contains c

/-! ## Anchors -/

/-- A name may be followed by a gap or by one of these signs. -/
def endsAnchor : List Char → Bool
  | [] => true
  | c :: _ => isGap c || "?:,]\x7d%@\x60".toList.contains c

/-- The name behind the sign of an anchor or an alias. -/
def readAnchor (c : Cursor) : Except Fault (List Char × Cursor) :=
  let (name, c) := c.next.takeWhile isNameChar
  if name = [] || !endsAnchor c.rest then .error .malformed else .ok (name, c)

/-! ## Tags -/

def utf8? (bytes : List UInt8) : Option (List Char) :=
  (String.fromUTF8? ⟨bytes.toArray⟩).map String.toList

/-- The name with its escapes undone.  `bytes` are those of the escapes just before, the last one
first; together they have to spell characters. -/
def decodeUri? (bytes : List UInt8) : List Char → Option (List Char)
  | '%' :: a :: b :: rest =>
    match hexDigit? a, hexDigit? b with
    | some x, some y => decodeUri? (UInt8.ofNat (16 * x + y) :: bytes) rest
    | _, _ => none
  | '%' :: _ => none
  | c :: rest =>
    match utf8? bytes.reverse, decodeUri? [] rest with
    | some front, some s => some (front ++ c :: s)
    | _, _ => none
  | [] => utf8? bytes.reverse

/-- A name of at least one character. -/
def readUri (c : Cursor) : Except Fault (List Char × Cursor) :=
  let (name, c) := c.takeWhile isUriChar
  if name = [] then .error .malformed
  else
    match decodeUri? [] name with
    | some s => .ok (s, c)
    | none => .error .malformed

/-- A handle: an exclamation mark, or a name between two of them. -/
def readHandle (c : Cursor) : Except Fault (List Char × Cursor) :=
  match c.rest with
  | '!' :: ' ' :: _ => .ok (['!'], c.next)
  | '!' :: r =>
    let name := r.takeWhile isNameChar
    match r.drop name.length with
    | '!' :: _ => .ok ('!' :: name ++ ['!'], c.skip (name.length + 2))
    | _ => .error .malformed
  | _ => .error .malformed

/-- A tag between angle brackets, alone, or with a handle. -/
def readTagName (c : Cursor) : Except Fault (TagName × Cursor) :=
  match c.rest with
  | '!' :: '<' :: _ => do
    let (name, c) ← readUri (c.skip 2)
    match c.rest with
    | '>' :: _ => .ok (⟨none, name⟩, c.next)
    | _ => .error .malformed
  | _ :: r =>
    if endsWord r then .ok (⟨none, ['!']⟩, c.next)
    else do
      let named := (r.takeWhile fun x => !(x == ' ' || isBreak x)).contains '!'
      let (handle, c) ← if named then readHandle c else .ok (['!'], c.next)
      let (suffix, c) ← readUri c
      .ok (⟨some handle, suffix⟩, c)
  | [] => .error .malformed

def readTag (c : Cursor) : Except Fault (TagName × Cursor) := do
  let (tag, c) ← readTagName c
  if endsName c.rest then .ok (tag, c) else .error .malformed

/-! ## Directives -/

/-- A part of a version number. -/
def readVersionPart (c : Cursor) : Except Fault (Nat × Cursor) :=
  let (digits, c) := c.takeWhile isAsciiDigit
  if digits = [] then .error .malformed
  else if maxDigits < digits.length then .error .noSuchValue
  else .ok (asciiNumber digits, c)

def readVersion (c : Cursor) : Except Fault (Directive × Cursor) := do
  let (major, c) ← readVersionPart (c.dropWhile (· == ' '))
  match c.rest with
  | '.' :: _ =>
    let (_, c) ← readVersionPart c.next
    if endsName c.rest then .ok (.version major, c) else .error .malformed
  | _ => .error .malformed

def readHandleDirective (c : Cursor) : Except Fault (Directive × Cursor) := do
  let (name, c) ← readHandle (c.dropWhile (· == ' '))
  match c.rest with
  | ' ' :: _ =>
    let (lead, c) ← readUri (c.dropWhile (· == ' '))
    if endsName c.rest then .ok (.handle name lead, c) else .error .malformed
  | _ => .error .malformed

/-- A directive and the end of its line. -/
def readDirective (c : Cursor) : Except Fault (Directive × Cursor) := do
  let (name, c) := c.next.takeWhile isNameChar
  if name = [] || !endsName c.rest then .error .malformed
  else
    let (d, c) ←
      if name = "YAML".toList then readVersion c
      else if name = "TAG".toList then readHandleDirective c
      else .ok (.other, c.dropWhile fun x => !isBreak x)
    let c := c.skipComment
    match c.lineBreak? with
    | some (_, c) => .ok (d, c)
    | none => if c.rest = [] then .ok (d, c) else .error .malformed

example : decodeUri? [] "a%C3%a9".toList = some ['a', 'é'] := by decide +kernel

end Recurrence.Yaml
