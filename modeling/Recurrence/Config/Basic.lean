import Recurrence.Rule.Basic
import Recurrence.Text.Blank
import Recurrence.Text.Uppercase
import Recurrence.Value.Text
import Recurrence.Yaml.Token

/-!
# Configuration

The settings of the engine, as they are taken from a map of values.  Sizes and times are read as
integers with some leniency; one that cannot be read has its default, and one below 1 is raised
to 1.

* `Config`, `Config.default`
* `ConfigError`: why a configuration cannot be used
* `Config.ofValue`: the settings of a map of values
-/

namespace Recurrence

open Text

structure Config where
  cacheMaxSize : Positive
  cacheTtlSeconds : Positive
  logLevel : String
  debug : Bool
deriving DecidableEq

def Config.default : Config where
  cacheMaxSize := ⟨512, by decide⟩
  cacheTtlSeconds := ⟨3600, by decide⟩
  logLevel := "INFO"
  debug := false

/-- Why a configuration cannot be used. -/
inductive ConfigError where
  /-- the file is there and cannot be read -/
  | unreadable
  /-- the file is no document, or its document has no value or holds one without a spelling -/
  | document (f : Yaml.Fault)
  /-- the document is no map -/
  | notMap
  /-- a size or time is infinite -/
  | infinite
deriving DecidableEq

namespace ConfigError

/-- Whether the fault is in the form of the file, which its writer is told about. -/
def isReported : ConfigError → Bool
  | document .malformed | notMap => true
  | _ => false

def message : ConfigError → String
  | unreadable => "Unable to read config file"
  | document .malformed => "Unable to parse config file"
  | document _ => "Config file holds a value that does not exist"
  | notMap => "Config file must contain a mapping at top level"
  | infinite => "Config file holds an infinite size or time"

end ConfigError

namespace Config

/-- The integer that a value stands for.  A number with a fraction is cut off before it. -/
def integer (v : Value) : Except ConfigError (Option Int) :=
  match v with
  | .bool b => .ok (some (if b then 1 else 0))
  | .int i => .ok (some i)
  | .float x =>
    match x with
    | .infinite _ => .error .infinite
    | x => .ok x.truncate?
  | .text s => .ok (readInt? s.toList)
  | .bytes bs =>
    .ok (if bs.all (· < 128) then readInt? (bs.map fun b => Char.ofNat b.toNat) else none)
  | _ => .ok none

/-- The setting `name`, an integer of at least 1. -/
def positive (v : Value) (name : String) (default : Positive) : Except ConfigError Positive :=
  match v.field? name with
  | none => .ok default
  | some x =>
    (integer x).map fun i =>
      match i with
      | none => default
      | some i => if h : 0 < i.toNat then ⟨i.toNat, h⟩ else Positive.one

/-- The name of a log level: any value that can be spelled. -/
def level (v : Value) : Except ConfigError String :=
  match v.field? "log_level" with
  | none | some .null => .ok "INFO"
  | some x =>
    if x.isSpellable then .ok (String.ofList (upper x.toChars))
    else .error (.document .noSuchValue)

/-- The words that switch debugging on. -/
def isYes (s : List Char) : Bool :=
  ["1", "true", "yes", "on"].contains (String.ofList (s.map Char.toLower))

def debugging (v : Value) : Bool :=
  match v.field? "debug" with
  | none => false
  | some (.text s) => isYes (strip s.toList)
  | some x => x.isTruthy

/-- The settings of a map of values; all other keys are ignored. -/
def ofValue (v : Value) : Except ConfigError Config := do
  let size ← positive v "cache_max_size" Config.default.cacheMaxSize
  let ttl ← positive v "cache_ttl_seconds" Config.default.cacheTtlSeconds
  let name ← level v
  pure ⟨size, ttl, name, debugging v⟩

end Config

end Recurrence
