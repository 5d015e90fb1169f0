import Recurrence.Text.Quoted
import Recurrence.Timestamp.IsoPrinter
import Recurrence.Value.Basic

/-!
# The text of a value

How a value is spelled in a message or where a text is asked for.  A text stands for itself at the
top and is quoted inside of others; lists, tuples, sets and maps have their brackets.

* `Value.inner`: the spelling inside of another value
* `Value.toText`: the spelling on its own
* `Value.isSpellable`: whether it is one, with no numeral that is too long
-/

namespace Recurrence

open Text

namespace Value

/-- A byte between two `quote`s. -/
def escapeByte (quote : Char) (b : UInt8) : List Char :=
  let c := Char.ofNat b.toNat
  if c = quote ∨ c = '\\' then ['\\', c]
  else if c = '\t' then ['\\', 't']
  else if c = '\n' then ['\\', 'n']
  else if c = '\r' then ['\\', 'r']
  else if 32 ≤ b ∧ b < 127 then [c]
  else '\\' :: 'x' :: hex 2 b.toNat

def quotedBytes (bs : List UInt8) : List Char :=
  let q := quoteFor (bs.map fun b => Char.ofNat b.toNat)
  'b' :: q :: bs.flatMap (escapeByte q) ++ [q]

/-- Numbers with commas between them. -/
def commas (ns : List Nat) : List Char :=
  (", ".toList).intercalate (ns.map decimal)

/-- A distance from universal time, in words of days and seconds. -/
def zoneChars (o : Offset) : List Char :=
  if o.micros = 0 then "datetime.timezone.utc".toList
  else
    let days := o.micros / 86400000000
    let rest := (o.micros % 86400000000).toNat
    let parts := (if days = 0 then [] else ["days=".toList ++ signed days]) ++
      (if rest / 1000000 = 0 then [] else ["seconds=".toList ++ decimal (rest / 1000000)]) ++
      (if rest % 1000000 = 0 then [] else ["microseconds=".toList ++ decimal (rest % 1000000)])
    "datetime.timezone(datetime.timedelta(".toList ++ (", ".toList).intercalate parts ++ "))".toList

/-- A moment as a call that makes it; seconds and microseconds are left out where they are zero. -/
def momentCall : Moment → List Char
  | .day d => "datetime.date(".toList ++ commas [d.year, d.month, d.day] ++ [')']
  | .stamp s =>
    let t := s.wall
    let d := t.date
    let tail := if t.microOfSecond ≠ 0 then [t.secondOfMinute, t.microOfSecond]
      else if t.secondOfMinute ≠ 0 then [t.secondOfMinute] else []
    "datetime.datetime(".toList ++ commas ([d.year, d.month, d.day, t.hour, t.minute] ++ tail) ++
      (match s.offset with
        | none => []
        | some o => ", tzinfo=".toList ++ zoneChars o) ++ [')']

/-- A day as such, a stamp with a blank between date and time. -/
def momentChars : Moment → List Char
  | .day d => d.isoChars
  | .stamp s => s.isoChars.map fun c => if c = 'T' then ' ' else c

mutual

/-- The spelling inside of another value. -/
def inner : Value → List Char
  | null => "None".toList
  | bool b => (if b then "True" else "False").toList
  | int i => signed i
  | float x => x.toChars
  | text s => quoted s.toList
  | bytes bs => quotedBytes bs
  | moment m => momentCall m
  | list items => '[' :: innerAll items ++ [']']
  | tuple [v] => '(' :: inner v ++ [',', ')']
  | tuple items => '(' :: innerAll items ++ [')']
  | set [] => "set()".toList
  | set items => '\x7b' :: innerAll items ++ ['\x7d']
  | map entries => '\x7b' :: innerEntries entries ++ ['\x7d']
  | enclosing curly => (if curly then "\x7b...\x7d" else "[...]").toList

def innerAll : List Value → List Char
  | [] => []
  | [v] => inner v
  | v :: vs => inner v ++ ',' :: ' ' :: innerAll vs

def innerEntry : Value × Value → List Char
  | (k, v) => inner k ++ ':' :: ' ' :: inner v

def innerEntries : List (Value × Value) → List Char
  | [] => []
  | [e] => innerEntry e
  | e :: es => innerEntry e ++ ',' :: ' ' :: innerEntries es

end

/-- The spelling on its own. -/
def toChars : Value → List Char
  | text s => s.toList
  | moment m => momentChars m
  | v => inner v

def toText (v : Value) : String := String.ofList v.toChars

/-! ## Numerals that are too long -/

mutual

/-- Whether no integer in the value has more than `maxDigits` digits. -/
def isSpellable : Value → Bool
  | int i => (decimal i.natAbs).length ≤ maxDigits
  | list items | tuple items | set items => areSpellable items
  | map entries => areSpellableEntries entries
  | _ => true

def areSpellable : List Value → Bool
  | [] => true
  | v :: vs => isSpellable v && areSpellable vs

def areSpellableEntry : Value × Value → Bool
  | (k, v) => isSpellable k && isSpellable v

def areSpellableEntries : List (Value × Value) → Bool
  | [] => true
  | e :: es => areSpellableEntry e && areSpellableEntries es

end

end Value

end Recurrence
