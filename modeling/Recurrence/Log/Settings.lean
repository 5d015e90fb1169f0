import Recurrence.Config.Basic
import Recurrence.Config.Environment
import Recurrence.Log.Level

/-!
# Settings of the log

Three levels are kept: that of the root logger, that of the loggers of the engine, and that of a
library which would say too much.

* `LogSettings`, `LogSettings.fresh`
* `LogSettings.start`: gives the root logger a level by its name
* `LogSettings.configure`: sets all levels for production or for debugging
* `LogSettings.openAll`: lets everything through

The environment has a say in both of the first two, but `start` reads it with more leniency than
`configure` does.
-/

namespace Recurrence

open Text

structure LogSettings where
  root : LogLevel
  engine : LogLevel
  library : LogLevel
deriving DecidableEq

namespace Environment

/-- A variable that is unset reads as the empty text. -/
def textOf (value : Option String) : List Char := (value.getD "").toList

/-- Whether debugging is asked for, in any case and with blanks around the word. -/
def asksForDebug (env : Environment) : Bool := Config.isYes (strip (textOf env.debug))

/-- Whether debugging is forced: by one of three words in any case, without blanks around it. -/
def forcesDebug (env : Environment) : Bool :=
  ["1", "true", "yes"].contains (String.ofList ((textOf env.debug).map Char.toLower))

/-- The level that overrides that of the root logger: one of four, in any case. -/
def rootLevel? (env : Environment) : Option LogLevel :=
  match String.ofList (upper (textOf env.logLevel)) with
  | "DEBUG" => some .debug
  | "INFO" => some .info
  | "WARNING" => some .warning
  | "ERROR" => some .error
  | _ => none

end Environment

namespace LogSettings

/-- The settings before any logging is set up. -/
def fresh : LogSettings := ⟨.warning, .notSet, .notSet⟩

/-- The level by which the root logger starts: `level` in any case, or `INFO` if it names none. -/
def startLevel (env : Environment) (level : Option String) : LogLevel :=
  if env.asksForDebug then .debug else (level.bind LogLevel.ofWord?).getD .info

def start (s : LogSettings) (env : Environment) (level : Option String) : LogSettings :=
  { s with root := startLevel env level }

/-- Debugging is on if `force` says so; without it, if the environment forces it or `debug` holds. -/
def debugging (env : Environment) (debug : Bool) (force : Option Bool) : Bool :=
  force.getD (env.forcesDebug || debug)

/-- The levels for debugging or for production, the root level overridden by the environment. -/
def configure (s : LogSettings) (env : Environment) (debug : Bool) (force : Option Bool) :
    LogSettings :=
  let level : LogLevel := if debugging env debug force then .debug else .info
  { s with root := env.rootLevel?.getD level, engine := level, library := .warning }

/-- Lets everything through. -/
def openAll (s : LogSettings) : LogSettings :=
  { s with root := .debug, engine := .debug, library := .debug }

end LogSettings

end Recurrence
