import Recurrence.Numeric.Numeral
import Recurrence.Value.Basic
import Recurrence.Yaml.Tag
import Recurrence.Yaml.Token

/-!
# The values of scalars

What a text stands for under each of the tags that scalars have.

* `truthValue`, `integerValue`, `floatValue`, `timeValue`, `bytesValue`
* `scalarValue`: all of them by tag
-/

namespace Recurrence.Yaml

open Text

/-- A value that has to exist. -/
def existing {α : Type} : Option α → Except Fault α
  | some a => .ok a
  | none => .error .noSuchValue

def truthValue (s : List Char) : Except Fault Value :=
  let word := String.ofList (s.map Char.toLower)
  if ["yes", "true", "on"].contains word then .ok (.bool true)
  else if ["no", "false", "off"].contains word then .ok (.bool false)
  else .error .noSuchTruth

/-! ## Numbers -/

/-- The sum of parts in base sixty, the last part first. -/
def sexagesimal : List Int → Int
  | [] => 0
  | d :: ds => d + 60 * sexagesimal ds

/-- An integer without its sign and without underscores. -/
def unsignedInteger (s : List Char) : Except Fault Int :=
  match s with
  | [] => .error .emptyNumber
  | ['0'] => .ok 0
  | '0' :: 'b' :: r => existing (readInBase? 2 'b' r)
  | '0' :: 'x' :: r => existing (readInBase? 16 'x' r)
  | '0' :: _ => existing (readInBase? 8 'o' s)
  | _ =>
    if s.contains ':' then
      existing (((splitOn ':' s).mapM readInt?).map fun ds => sexagesimal ds.reverse)
    else existing (readInt? s)

def integerValue (s : List Char) : Except Fault Value :=
  match s.filter (· != '_') with
  | [] => .error .emptyNumber
  | s =>
    let (negative, s) := takeSign s
    (unsignedInteger s).map fun n => .int (if negative then -n else n)

/-- The rounded sum of parts in base sixty, the last part first; `weight` is that of the first. -/
def floatingSum (weight : Nat) (sum : Binary64) : List Binary64 → Except Fault Binary64
  | [] => .ok sum
  | d :: ds =>
    match Binary64.ofInt weight with
    | .infinite _ => .error .tooLarge
    | w => floatingSum (60 * weight) (sum.add (d.mul w)) ds

/-- A floating-point number without its sign and without underscores, in small letters. -/
def unsignedFloat (s : List Char) : Except Fault Binary64 :=
  if s = ".inf".toList then .ok (.infinite false)
  else if s = ".nan".toList then .ok .nan
  else if s.contains ':' then do
    let ds ← existing ((splitOn ':' s).mapM Binary64.read?)
    floatingSum 1 Binary64.zero ds.reverse
  else existing (Binary64.read? s)

def floatValue (s : List Char) : Except Fault Value :=
  match (s.filter (· != '_')).map Char.toLower with
  | [] => .error .emptyNumber
  | s =>
    let (negative, s) := takeSign s
    (unsignedFloat s).map fun x => .float (if negative then x.neg else x)

/-! ## Times -/

/-- The microseconds of the digits of a fraction; those beyond the sixth are dropped. -/
def fractionMicros (ds : List Char) : Nat :=
  let front := ds.take 6
  asciiNumber front * tenTo (6 - front.length)

/-- The distance from universal time; `none` if there is no such distance. -/
def zoneOffset? (negative : Bool) (hours minutes : List Char) : Option Offset :=
  let micros : Int := (asciiNumber hours * 60 + asciiNumber minutes) * 60000000
  Offset.of? (if negative then -micros else micros)

def clockStamp? (d : Date) (t : ClockText) : Option Stamp :=
  let hour := asciiNumber t.hour
  let minute := asciiNumber t.minute
  let second := asciiNumber t.second
  let micros := ((hour * 60 + minute) * 60 + second) * microsPerSecond + fractionMicros t.fraction
  if h : micros < microsPerDay then
    if hour < 24 ∧ minute < 60 ∧ second < 60 then
      let wall := Instant.ofDay d.toDay micros d.toDay_lt h
      match t.zone with
      | none => some ⟨wall, none⟩
      | some (negative, hours, minutes) =>
        (zoneOffset? negative hours minutes).map fun o => ⟨wall, some o⟩
    else none
  else none

def momentOf? (t : TimeText) : Option Moment :=
  (Date.of? (asciiNumber t.year) (asciiNumber t.month) (asciiNumber t.day)).bind fun d =>
    match t.clock with
    | none => some (.day d)
    | some c => (clockStamp? d c).map .stamp

def timeValue (s : List Char) : Except Fault Value :=
  match readTime? (beforeFinalBreak s) with
  | none => .error .noTime
  | some t => (existing (momentOf? t)).map .moment

/-! ## Bytes -/

/-- The worth of a character in base 64. -/
def base64Digit? (c : Char) : Option Nat :=
  let n := c.toNat
  if 65 ≤ n ∧ n ≤ 90 then some (n - 65)
  else if 97 ≤ n ∧ n ≤ 122 then some (n - 71)
  else if 48 ≤ n ∧ n ≤ 57 then some (n + 4)
  else if c = '+' then some 62
  else if c = '/' then some 63
  else none

/-- The bytes of a text in base 64.  `place` counts the digits of the group of four that were read,
`left` are their bits that are not in a byte yet, and `pads` counts the padding signs since the last
digit.  Padding that completes a group ends the text; other characters are passed over. -/
def base64 : (place left pads : Nat) → List Char → Option (List UInt8)
  | place, _, _, [] => if place = 0 then some [] else none
  | place, left, pads, c :: r =>
    if c = '=' then
      if 2 ≤ place then
        if 4 ≤ place + (pads + 1) then some [] else base64 place left (pads + 1) r
      else base64 place left pads r
    else
      match base64Digit? c with
      | none => base64 place left pads r
      | some d =>
        match place with
        | 0 => base64 1 d 0 r
        | 1 => (base64 2 (d % 16) 0 r).map (UInt8.ofNat (left * 4 + d / 16) :: ·)
        | 2 => (base64 3 (d % 4) 0 r).map (UInt8.ofNat (left * 16 + d / 4) :: ·)
        | _ => (base64 0 0 0 r).map (UInt8.ofNat (left * 64 + d) :: ·)

def bytesValue (s : List Char) : Except Fault Value :=
  if s.all fun c => c.toNat < 128 then
    match base64 0 0 0 s with
    | some bs => .ok (.bytes bs)
    | none => .error .malformed
  else .error .malformed

/-! ## All tags -/

/-- The value of a text under a tag; lists and maps are no texts. -/
def scalarValue (t : Tag) (s : List Char) : Except Fault Value :=
  match t with
  | .null => .ok .null
  | .bool => truthValue s
  | .int => integerValue s
  | .float => floatValue s
  | .binary => bytesValue s
  | .time => timeValue s
  | .text => .ok (.text (String.ofList s))
  | _ => .error .malformed

end Recurrence.Yaml
