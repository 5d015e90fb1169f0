/-!
# Places in a text

The reader of documents looks at a text from left to right and has to know how far it came: the
line, the column and the number of characters.  Line ends are line feeds and the two separators of
Unicode; a byte order mark takes no column.

* `isBreak`, `isGap`: the characters between words
* `endsLine`, `endsWord`, `atMarker`: what may follow a place
* `Cursor`: a place, with `Cursor.next`, `Cursor.skip`, `Cursor.takeWhile`, `Cursor.lineBreak?`
-/

namespace Recurrence.Yaml

/-! ## Characters -/

/-- A character that ends a line. -/
def isBreak (c : Char) : Bool := c == '\n' || c == '\u2028' || c == '\u2029'

def isSpace (c : Char) : Bool := c == ' ' || c == '\t'

/-- A character between words. -/
def isGap (c : Char) : Bool := isSpace c || isBreak c

/-- Nothing more follows on the line. -/
def endsLine : List Char → Bool
  | [] => true
  | c :: _ => isBreak c

/-- A word ends here. -/
def endsWord : List Char → Bool
  | [] => true
  | c :: _ => isGap c

/-- A word ends here, but not by a tab. -/
def endsName : List Char → Bool
  | [] => true
  | c :: _ => c == ' ' || isBreak c

/-- Three dots or three hyphens on their own, which mark the bounds of a document. -/
def atMarker : List Char → Bool
  | '-' :: '-' :: '-' :: r => endsWord r
  | '.' :: '.' :: '.' :: r => endsWord r
  | _ => false

/-! ## Cursors -/

/-- A place in a text: what follows, and how much went before. -/
structure Cursor where
  rest : List Char
  index : Nat := 0
  line : Nat := 0
  column : Nat := 0

namespace Cursor

/-- Behind the next character. -/
def next (c : Cursor) : Cursor :=
  match c.rest with
  | [] => c
  | x :: rest =>
    if isBreak x then ⟨rest, c.index + 1, c.line + 1, 0⟩
    else if x = '\ufeff' then ⟨rest, c.index + 1, c.line, c.column⟩
    else ⟨rest, c.index + 1, c.line, c.column + 1⟩

/-- Behind the next `n` characters. -/
def skip : (n : Nat) → Cursor → Cursor
  | 0, c => c
  | n + 1, c => skip n c.next

/-- The characters that pass a test, up to the first that does not, and the place behind them. -/
def takeWhile (p : Char → Bool) (c : Cursor) : List Char × Cursor :=
  let taken := c.rest.takeWhile p
  (taken, c.skip taken.length)

def dropWhile (p : Char → Bool) (c : Cursor) : Cursor := (c.takeWhile p).2

/-- The line end that comes next, if one does, and the place behind it. -/
def lineBreak? (c : Cursor) : Option (Char × Cursor) :=
  match c.rest with
  | [] => none
  | x :: _ => if isBreak x then some (x, c.next) else none

/-- Past the blanks and the comment at the end of a line. -/
def skipComment (c : Cursor) : Cursor :=
  let c := c.dropWhile (· == ' ')
  match c.rest with
  | '#' :: _ => c.dropWhile fun x => !isBreak x
  | _ => c

theorem rest_next (c : Cursor) : c.next.rest = c.rest.tail := by
  unfold next
  split
  · simp_all
  · split
    · simp_all
    · split <;> simp_all

theorem rest_skip (n : Nat) (c : Cursor) : (c.skip n).rest = c.rest.drop n := by
  induction n generalizing c with
  | zero => rfl
  | succ n ih => rw [skip, ih, rest_next, List.drop_tail]

end Cursor

/-- Line ends that are folded: one alone becomes a blank, and of several the first is dropped.
Separators are kept. -/
def foldBreaks (first : Char) (more : List Char) : List Char :=
  if first ≠ '\n' then first :: more
  else if more = [] then [' ']
  else more

end Recurrence.Yaml
