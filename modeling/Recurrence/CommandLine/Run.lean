import Recurrence.Cache.Expansion
import Recurrence.CommandLine.Invocation
import Recurrence.Config.File
import Recurrence.Json.Writer
import Recurrence.Log.Settings
import Recurrence.Rule.Clamp
import Recurrence.Rule.Summary

/-!
# Running a command

* `RunResult`: what a run writes, its exit code, and the settings of the log after it
* `Command.run`: the output of a command
* `RunError`: why a run breaks off
* `Invocation.run`: reads the configuration, sets up the log and runs the command
-/

namespace Recurrence

/-- What a run leaves behind. -/
structure RunResult where
  exit : Nat
  output : String
  errors : String
  log : LogSettings

/-- Why a run breaks off. -/
inductive RunError where
  | config (e : ConfigError)
  | cache (e : CacheError)
  | time (e : TimeError)
deriving DecidableEq

/-- The line for an occurrence. -/
def Occurrence.toLine (o : Occurrence) : String :=
  Json.write (Json.object [("id", .text o.instanceId), ("start", .text o.start.toZulu),
    ("end", .text o.finish.toZulu)]) ++ "\n"

/-- The exit code of a command, its output, and what it writes to the error stream. -/
def Command.run (c : Command) (cache : ExpansionCache) :
    Except RunError (Nat × String × String) :=
  match c with
  | .describe rule anchor => .ok (0, Recurrence.describe rule (Stamp.ofInstant anchor) ++ "\n", "")
  | .expand s lower upper =>
    -- of a clock in floating point it matters only that it is one: nothing expires during a run
    match (cache.expand (.float Binary64.zero) s (.stamp (Stamp.ofInstant lower))
      (.stamp (Stamp.ofInstant upper)) []).1 with
    | .ok found => .ok (0, String.join (found.map Occurrence.toLine), "")
    | .error e => .error (.cache e)
  | .clamp rule cutoff =>
    match clampUntil rule (Stamp.ofInstant cutoff) with
    | .ok rule => .ok (0, rule ++ "\n", "")
    | .error e => .error (.time e)
  | .validate rule =>
    match Rule.parse rule with
    | .ok r => .ok (0, r.encode ++ "\n", "")
    | .error e => .ok (1, "", "invalid: " ++ e.message ++ "\n")

/-- The settings of the log under a configuration. -/
def Invocation.logSettings (i : Invocation) (env : Environment) (c : Config) (log : LogSettings) :
    LogSettings :=
  (log.start env (some c.logLevel)).configure env (c.debug || i.debug) none

/-- Runs an invocation in an environment, with what is found at the path of the configuration. -/
def Invocation.run (i : Invocation) (env : Environment) (file : FileContent) (log : LogSettings) :
    Except RunError RunResult :=
  match Config.ofFile file with
  | .error e =>
    if e.isReported then .ok ⟨1, "", "Error: " ++ e.message ++ "\n", log⟩
    else .error (.config e)
  | .ok c => do
    let log := i.logSettings env c log
    let (exit, output, errors) ← i.command.run (ExpansionCache.ofConfig c)
    pure ⟨exit, output, errors, log⟩

end Recurrence
