import Recurrence.Config.Basic
import Recurrence.Config.Environment
import Recurrence.Yaml.Value

/-!
# Configuration files

* `Environment.configFile`: which file is the configuration
* `FileContent`: what is found there
* `Config.ofText`, `Config.ofFile`: the settings of a file; without a file they are the default
-/

namespace Recurrence

/-- The path of the configuration: the first that is given and not empty, of `path`, the one in the
environment, and the usual one. -/
def Environment.configFile (env : Environment) (path : Option String) : String :=
  match [path, env.configPath].filterMap (Option.filter (· != "")) with
  | p :: _ => p
  | [] => "recurrence_engine/config.yaml"

/-- What is found at a path. -/
inductive FileContent where
  | missing
  | unreadable
  | text (s : String)

namespace Config

/-- The settings of a document; nothing at all counts as an empty map. -/
def ofDocument : Value → Except ConfigError Config
  | .null => ofValue (.map [])
  | .map entries => ofValue (.map entries)
  | _ => .error .notMap

def ofText (s : String) : Except ConfigError Config :=
  match Yaml.read s with
  | .ok v => ofDocument v
  | .error f => .error (.document f)

def ofFile : FileContent → Except ConfigError Config
  | .missing => .ok default
  | .unreadable => .error .unreadable
  | .text s => ofText s

end Config

end Recurrence
