import Recurrence.Text.Digit
import Recurrence.Value.Basic

/-!
# Reading JSON

A reader for JSON texts.  A number with a fraction or an exponent is a floating-point number, any
other an integer; of several members with one name the last counts, in the place of the first.

* `Json.readText?`: a text behind its opening quote
* `Json.readNumber?`: a number
* `Json.read?`: a whole text that holds one value
-/

namespace Recurrence.Json

open Text

def isSpace (c : Char) : Bool := c == ' ' || c == '\t' || c == '\n' || c == '\r'

def skipSpace (s : List Char) : List Char := s.dropWhile isSpace

def hexUnit? (a b c d : Char) : Option Nat :=
  match hexDigit? a, hexDigit? b, hexDigit? c, hexDigit? d with
  | some w, some x, some y, some z => some (w * 4096 + x * 256 + y * 16 + z)
  | _, _, _, _ => none

/-- The character of a simple escape. -/
def escaped? : Char → Option Char
  | '"' => some '"'
  | '\\' => some '\\'
  | '/' => some '/'
  | 'b' => some '\x08'
  | 'f' => some '\x0c'
  | 'n' => some '\n'
  | 'r' => some '\r'
  | 't' => some '\t'
  | _ => none

/-- The character of a 16-bit unit; half of a pair alone has none and is replaced. -/
def unitChar (n : Nat) : Char :=
  if 0xD800 ≤ n ∧ n ≤ 0xDFFF then '\ufffd' else Char.ofNat n

/-- The text up to the closing quote, and what follows it.  `high` is the first half of a pair of
units that has been read. -/
def readText? (high : Option Nat) : List Char → Option (List Char × List Char)
  | [] => none
  | '"' :: rest => some (if high.isSome then ['\ufffd'] else [], rest)
  | '\\' :: 'u' :: a :: b :: c :: d :: rest =>
    match hexUnit? a b c d, high with
    | none, _ => none
    | some n, some h =>
      if 0xDC00 ≤ n ∧ n ≤ 0xDFFF then
        (readText? none rest).map fun r =>
          (Char.ofNat (0x10000 + (h - 0xD800) * 0x400 + (n - 0xDC00)) :: r.1, r.2)
      else if 0xD800 ≤ n ∧ n ≤ 0xDBFF then
        (readText? (some n) rest).map fun r => ('\ufffd' :: r.1, r.2)
      else (readText? none rest).map fun r => ('\ufffd' :: unitChar n :: r.1, r.2)
    | some n, none =>
      if 0xD800 ≤ n ∧ n ≤ 0xDBFF then readText? (some n) rest
      else (readText? none rest).map fun r => (unitChar n :: r.1, r.2)
  | '\\' :: c :: rest =>
    match escaped? c with
    | none => none
    | some c =>
      (readText? none rest).map fun r =>
        ((if high.isSome then ['\ufffd', c] else [c]) ++ r.1, r.2)
  | c :: rest =>
    if c.toNat < 32 then none
    else
      (readText? none rest).map fun r =>
        ((if high.isSome then ['\ufffd', c] else [c]) ++ r.1, r.2)

/-- The digits after a point, and what follows; none where there is no point. -/
def readFraction? : List Char → Option (List Char × List Char)
  | '.' :: s =>
    let ds := s.takeWhile isAsciiDigit
    if ds = [] then none else some (ds, s.dropWhile isAsciiDigit)
  | s => some ([], s)

/-- The sign of an exponent, if it has one, and what follows; says whether it is negative. -/
def cutSign : List Char → Option Bool × List Char
  | '+' :: r => (some false, r)
  | '-' :: r => (some true, r)
  | r => (none, r)

/-- The exponent, if there is one, and what follows. -/
def readExponent? : List Char → Option (Option Int × List Char)
  | [] => some (none, [])
  | c :: r =>
    if c = 'e' ∨ c = 'E' then
      let (sign, r) := cutSign r
      let ds := r.takeWhile isAsciiDigit
      if ds = [] then none
      else
        let n : Int := asciiNumber ds
        some (some (if sign = some true then -n else n), r.dropWhile isAsciiDigit)
    else some (none, c :: r)

/-- Whether a number is negative, and what follows its sign. -/
def cutMinus : List Char → Bool × List Char
  | '-' :: r => (true, r)
  | r => (false, r)

/-- The digits before the point, and what follows; a zero has no digits behind it. -/
def readWhole? (s : List Char) : Option (List Char × List Char) :=
  let ds := s.takeWhile isAsciiDigit
  if ds = [] ∨ (ds.head? = some '0' ∧ ds ≠ ['0']) then none else some (ds, s.dropWhile isAsciiDigit)

/-- The number that its parts stand for. -/
def numberOf (negative : Bool) (whole fraction : List Char) (exponent : Option Int) : Value :=
  if fraction = [] ∧ exponent = none then
    let n : Int := asciiNumber whole
    .int (if negative then -n else n)
  else
    .float (Binary64.ofDecimal negative (asciiNumber (whole ++ fraction))
      (exponent.getD 0 - fraction.length))

/-- A number and what follows it. -/
def readNumber? (s : List Char) : Option (Value × List Char) :=
  let (negative, s) := cutMinus s
  (readWhole? s).bind fun (whole, s) =>
    (readFraction? s).bind fun (fraction, s) =>
      (readExponent? s).map fun (exponent, s) => (numberOf negative whole fraction exponent, s)

/-- The members with one more; a name that is there already gets the new value. -/
def putMember (name : String) (v : Value) : List (Value × Value) → List (Value × Value)
  | [] => [(.text name, v)]
  | (k, w) :: rest =>
    match k with
    | .text s => if s = name then (k, v) :: rest else (k, w) :: putMember name v rest
    | _ => (k, w) :: putMember name v rest

mutual

/-- A value and what follows it.  Every call uses up a character, so the length of the text is
enough fuel. -/
def readValue? : (fuel : Nat) → List Char → Option (Value × List Char)
  | 0, _ => none
  | fuel + 1, s =>
    match skipSpace s with
    | 'n' :: 'u' :: 'l' :: 'l' :: r => some (.null, r)
    | 't' :: 'r' :: 'u' :: 'e' :: r => some (.bool true, r)
    | 'f' :: 'a' :: 'l' :: 's' :: 'e' :: r => some (.bool false, r)
    | '"' :: r => (readText? none r).map fun t => (.text (String.ofList t.1), t.2)
    | '[' :: r =>
      match skipSpace r with
      | ']' :: r => some (.list [], r)
      | r => (readItems? fuel r).map fun t => (.list t.1, t.2)
    | '\x7b' :: r =>
      match skipSpace r with
      | '\x7d' :: r => some (.map [], r)
      | r => (readMembers? fuel [] r).map fun t => (.map t.1, t.2)
    | r => readNumber? r

def readItems? : (fuel : Nat) → List Char → Option (List Value × List Char)
  | 0, _ => none
  | fuel + 1, s =>
    match readValue? fuel s with
    | none => none
    | some (v, r) =>
      match skipSpace r with
      | ',' :: r => (readItems? fuel r).map fun t => (v :: t.1, t.2)
      | ']' :: r => some ([v], r)
      | _ => none

def readMembers? : (fuel : Nat) → List (Value × Value) → List Char →
    Option (List (Value × Value) × List Char)
  | 0, _, _ => none
  | fuel + 1, members, s =>
    match skipSpace s with
    | '"' :: r =>
      match readText? none r with
      | none => none
      | some (name, r) =>
        match skipSpace r with
        | ':' :: r =>
          match readValue? fuel r with
          | none => none
          | some (v, r) =>
            let members := putMember (String.ofList name) v members
            match skipSpace r with
            | ',' :: r => readMembers? fuel members r
            | '\x7d' :: r => some (members, r)
            | _ => none
        | _ => none
    | _ => none

end

/-- The value of a text that holds one value and white space. -/
def read? (s : String) : Option Value :=
  let chars := s.toList
  match readValue? (2 * chars.length + 2) chars with
  | some (v, r) => if skipSpace r = [] then some v else none
  | none => none

end Recurrence.Json
