import Recurrence.Value.Basic

/-!
# Writing JSON

A value of JSON is written on one line, with a blank after every comma and colon, and with escapes
for all but the printable characters of ASCII.

* `Json.escape`: a character inside a text
* `Json.write`: a value; values that JSON does not have are written as null
-/

namespace Recurrence.Json

open Text

/-- A unit of 16 bits as an escape. -/
def unitEscape (n : Nat) : List Char := '\\' :: 'u' :: hex 4 n

/-- A character inside a text; one beyond 16 bits takes two escapes. -/
def escape (c : Char) : List Char :=
  if c = '"' then ['\\', '"']
  else if c = '\\' then ['\\', '\\']
  else if c = '\n' then ['\\', 'n']
  else if c = '\r' then ['\\', 'r']
  else if c = '\t' then ['\\', 't']
  else if c = '\x08' then ['\\', 'b']
  else if c = '\x0c' then ['\\', 'f']
  else
    let n := c.toNat
    if 32 ≤ n ∧ n ≤ 126 then [c]
    else if n < 0x10000 then unitEscape n
    else unitEscape (0xD800 + (n - 0x10000) / 0x400) ++ unitEscape (0xDC00 + (n - 0x10000) % 0x400)

def writeText (s : String) : String :=
  (s.toList.foldl (fun acc c => (escape c).foldl String.push acc) "\"").push '"'

def writeNumber : Binary64 → String
  | .nan => "NaN"
  | .infinite n => if n then "-Infinity" else "Infinity"
  | x => x.toText

mutual

/-- A value on one line. -/
def write : Value → String
  | .null => "null"
  | .bool b => if b then "true" else "false"
  | .int i => String.ofList (signed i)
  | .float x => writeNumber x
  | .text s => writeText s
  | .list items => "[" ++ String.intercalate ", " (writeAll items) ++ "]"
  | .map entries => "\x7b" ++ String.intercalate ", " (writeEntries entries) ++ "\x7d"
  | _ => "null"

def writeAll : List Value → List String
  | [] => []
  | v :: vs => write v :: writeAll vs

def writeEntry : Value × Value → String
  | (k, v) => write k ++ ": " ++ write v

def writeEntries : List (Value × Value) → List String
  | [] => []
  | e :: es => writeEntry e :: writeEntries es

end

/-- A map with text keys. -/
def object (fields : List (String × Value)) : Value :=
  .map (fields.map fun f => (.text f.1, f.2))

end Recurrence.Json
