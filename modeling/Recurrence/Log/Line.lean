import Recurrence.Log.Level
import Recurrence.Text.Decimal

/-!
# Lines of a log

A line has the time of day, the level in its colour and at least seven columns wide, the name of the
logger, and the message.  The colour ends behind the level and again at the end of the line.

* `LogLine`, `LogLine.toText`
-/

namespace Recurrence

open Text

structure LogLine where
  /-- whole seconds of universal time since the start of 1970 -/
  time : Int
  level : LogLevel
  logger : String
  message : String

namespace LogLine

/-- The code that switches colours and weight off. -/
def reset : List Char := "\x1b[0m".toList

/-- The code for the colour of a level. -/
def colour : LogLevel → List Char
  | .debug => "\x1b[36m".toList
  | .info => "\x1b[32m".toList
  | .warning => "\x1b[33m".toList
  | .error => "\x1b[31m".toList
  | .critical => "\x1b[1;31m".toList
  | .notSet => []

/-- The text with blanks behind it up to `width` characters. -/
def fillRight (width : Nat) (s : List Char) : List Char := s ++ List.replicate (width - s.length) ' '

/-- The time of day with two digits for each part. -/
def clockChars (time : Int) : List Char :=
  let s := (time % 86400).toNat
  padded 2 (s / 3600) ++ ':' :: padded 2 (s / 60 % 60) ++ ':' :: padded 2 (s % 60)

/-- The line without the code at its end. -/
def body (l : LogLine) : List Char :=
  clockChars l.time ++ ' ' :: colour l.level ++ fillRight 7 l.level.name.toList ++ reset ++
    ' ' :: l.logger.toList ++ ':' :: ' ' :: l.message.toList

/-- The line; a message that ends with the code already does not get a second one. -/
def toChars (l : LogLine) : List Char :=
  if reset.isSuffixOf l.body then l.body else l.body ++ reset

def toText (l : LogLine) : String := String.ofList l.toChars

end LogLine

end Recurrence
