import Recurrence.Text.Uppercase

/-!
# Levels of a log

* `LogLevel`, `LogLevel.name`
* `LogLevel.ofName?`: the level with a name, two levels having a second one
* `LogLevel.ofWord?`: the same in any case
-/

namespace Recurrence

/-- How grave a message is, or how grave one has to be; `notSet` leaves it to the enclosing logger. -/
inductive LogLevel where
  | notSet
  | debug
  | info
  | warning
  | error
  | critical
deriving DecidableEq, Repr

namespace LogLevel

def name : LogLevel → String
  | notSet => "NOTSET"
  | debug => "DEBUG"
  | info => "INFO"
  | warning => "WARNING"
  | error => "ERROR"
  | critical => "CRITICAL"

def ofName? : String → Option LogLevel
  | "NOTSET" => some notSet
  | "DEBUG" => some debug
  | "INFO" => some info
  | "WARNING" | "WARN" => some warning
  | "ERROR" => some error
  | "CRITICAL" | "FATAL" => some critical
  | _ => none

/-- The level that a word names in any case. -/
def ofWord? (s : String) : Option LogLevel := ofName? (String.ofList (Text.upper s.toList))

theorem ofName?_name (l : LogLevel) : ofName? l.name = some l := by cases l <;> rfl

end LogLevel

end Recurrence
