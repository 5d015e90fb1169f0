import Recurrence.CommandLine.Run

/-!
# The program

Runs the command of its command line in the real environment.
-/

namespace Recurrence

/-- What is found at a path. -/
def FileContent.read (path : String) : IO FileContent := do
  match ← (IO.FS.readFile path).toBaseIO with
  | .ok s => pure (.text s)
  | .error (.noFileOrDirectory ..) => pure .missing
  | .error _ => pure .unreadable

def Environment.current : IO Environment := do
  pure
    { configPath := ← IO.getEnv "RECURRENCE_ENGINE_CONFIG"
      debug := ← IO.getEnv "RECURRENCE_ENGINE_DEBUG"
      logLevel := ← IO.getEnv "RECURRENCE_ENGINE_LOG_LEVEL" }

def usageText : String :=
  "usage: recurrence-engine [-h] [--config PATH] [--debug] " ++
    "\x7bdescribe,expand,clamp,validate\x7d ...\n"

def RunError.message : RunError → String
  | .config e => e.message
  | .cache _ | .time _ => "a time lies outside the years 1 to 9999"

end Recurrence

open Recurrence

def main (args : List String) : IO UInt32 := do
  match Invocation.ofArguments args with
  | .error .help => IO.print usageText; pure 0
  | .error .usage => IO.eprint usageText; pure 2
  | .error .outOfRange => IO.eprintln "an instant lies outside the years 1 to 9999"; pure 1
  | .ok i =>
    let env ← Environment.current
    let file ← FileContent.read (env.configFile i.config)
    match i.run env file LogSettings.fresh with
    | .error e => IO.eprintln ("Error: " ++ e.message); pure 1
    | .ok r =>
      IO.print r.output
      IO.eprint r.errors
      pure (UInt32.ofNat r.exit)
