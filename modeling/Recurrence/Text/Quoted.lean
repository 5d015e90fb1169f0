import Recurrence.Text.Decimal
import Recurrence.Text.Printable

/-!
# Quoted text

A text in a message stands between quotes, with all that does not print written as an escape.

* `quoteFor`: single quotes, unless the text holds a single quote and no double one
* `escapeChar`: a character inside the quotes
* `quoted`: the whole
-/

namespace Recurrence.Text

/-- Single quotes are the rule; double ones spare the escapes of a text with single quotes only. -/
def quoteFor (s : List Char) : Char :=
  if s.contains '\'' && !s.contains '"' then '"' else '\''

/-- A character between two `quote`s. -/
def escapeChar (quote c : Char) : List Char :=
  if c = quote ∨ c = '\\' then ['\\', c]
  else if c = '\t' then ['\\', 't']
  else if c = '\n' then ['\\', 'n']
  else if c = '\r' then ['\\', 'r']
  else if isPrintable c then [c]
  else if c.toNat < 0x100 then '\\' :: 'x' :: hex 2 c.toNat
  else if c.toNat < 0x10000 then '\\' :: 'u' :: hex 4 c.toNat
  else '\\' :: 'U' :: hex 8 c.toNat

/-- The text between quotes, on one line and without hidden characters. -/
def quoted (s : List Char) : List Char :=
  let q := quoteFor s
  q :: s.flatMap (escapeChar q) ++ [q]

def quotedString (s : String) : String := String.ofList (quoted s.toList)

example : quotedString "it's\n" = "\"it's\\n\"" := by decide +kernel

end Recurrence.Text
