import Recurrence.CommandLine.Words
import Recurrence.Expansion.Series
import Recurrence.Timestamp.Iso

/-!
# Invocations

What a command line asks for.

* `Command`, `Invocation`
* `ArgumentError`: why a command line cannot be followed
* `Invocation.ofArguments`: what the words ask for
-/

namespace Recurrence

/-- What to do with a rule. -/
inductive Command where
  | describe (rule : String) (anchor : Instant)
  | expand (s : Series) (lower upper : Instant)
  | clamp (rule : String) (cutoff : Instant)
  | validate (rule : String)

/-- A command, the configuration file for it, and whether debugging is asked for. -/
structure Invocation where
  config : Option String
  debug : Bool
  command : Command

/-- Why a command line cannot be followed. -/
inductive ArgumentError where
  /-- the words are not those of a command -/
  | usage
  /-- help is asked for -/
  | help
  /-- an instant lies outside the years 1 to 9999 -/
  | outOfRange
deriving DecidableEq

namespace CommandLine

/-! ## The options -/

def mainGrammar : Grammar := { flags := ["--debug"], texts := ["--config"] }

def describeGrammar : Grammar := { instants := ["--anchor"] }

def expandGrammar : Grammar where
  texts := ["--id"]
  instants := ["--start", "--end", "--from", "--to", "--exception"]

def clampGrammar : Grammar := { instants := ["--cutoff"] }

def validateGrammar : Grammar := {}

/-! ## Arguments -/

/-- The operand of a command and the arguments of its options, the last ones first. -/
structure Arguments where
  operand : Option String := none
  texts : List (String × String) := []
  instants : List (String × Instant) := []

/-- Takes in what is given, as far as an instant can be read and no help is asked for. -/
def takeItems (g : Grammar) : List Item → Arguments → Except ArgumentError Arguments
  | [], a => .ok a
  | .help :: _, _ => .error .help
  | .operand text :: rest, a => takeItems g rest { a with operand := some text }
  | .flag _ :: rest, a => takeItems g rest a
  | .argument name text :: rest, a =>
    if g.instants.contains name then
      match Instant.ofIso text with
      | .ok t => takeItems g rest { a with instants := (name, t) :: a.instants }
      | .error .malformed => .error .usage
      | .error .outOfRange => .error .outOfRange
    else takeItems g rest { a with texts := (name, text) :: a.texts }

/-- The operand and the arguments that the words give. -/
def readArguments (g : Grammar) (words : List String) : Except ArgumentError Arguments :=
  match Word.all? g words with
  | none => .error .usage
  | some ws =>
    let (items, ok) := readItems g false ws
    match takeItems g items {} with
    | .error e => .error e
    | .ok a => if ok then .ok a else .error .usage

/-- What has to be given. -/
def required {α : Type} (a : Option α) : Except ArgumentError α :=
  match a with
  | some a => .ok a
  | none => .error .usage

namespace Arguments

def rule (a : Arguments) : Except ArgumentError String := required a.operand

def instant (a : Arguments) (name : String) : Except ArgumentError Instant :=
  required (a.instants.lookup name)

/-- All instants that are given for an option, in order. -/
def allInstants (a : Arguments) (name : String) : List Instant :=
  ((a.instants.filter fun i => i.1 == name).map (·.2)).reverse

end Arguments

/-- The command with a name and the words behind it. -/
def readCommand (name : String) (words : List String) : Except ArgumentError Command := do
  match name with
  | "describe" =>
    let a ← readArguments describeGrammar words
    pure (.describe (← a.rule) (← a.instant "--anchor"))
  | "expand" =>
    let a ← readArguments expandGrammar words
    let s : Series :=
      { id := (a.texts.lookup "--id").getD "cli"
        start := ← a.instant "--start"
        finish := ← a.instant "--end"
        rule := ← a.rule
        exceptions := a.allInstants "--exception" }
    pure (.expand s (← a.instant "--from") (← a.instant "--to"))
  | "clamp" =>
    let a ← readArguments clampGrammar words
    pure (.clamp (← a.rule) (← a.instant "--cutoff"))
  | "validate" =>
    let a ← readArguments validateGrammar words
    pure (.validate (← a.rule))
  | _ => .error .usage

/-- The options in front of the command, the command and what follows it.  The words are given both
by themselves and as what they are.  What is unknown is a fault in the end. -/
def readFront (ok : Bool) (config : Option String) (debug : Bool) :
    List (Word × String) → Except ArgumentError Invocation
  | [] => .error .usage
  | (.plain name, _) :: rest => do
    let command ← readCommand name (rest.map (·.2))
    if ok then pure ⟨config, debug, command⟩ else .error .usage
  | (.separator, _) :: _ => .error .usage
  | (.unknown, _) :: rest => readFront false config debug rest
  | (.option name none, _) :: rest =>
    if mainGrammar.takesArgument name then
      match rest with
      | (.plain path, _) :: rest => readFront ok (some path) debug rest
      | _ => .error .usage
    else if Grammar.helpNames.contains name then .error .help
    else readFront ok config true rest
  | (.option name (some text), _) :: rest =>
    if mainGrammar.takesArgument name then readFront ok (some text) debug rest
    else if isRepeatedHelp name text then .error .help
    else .error .usage

end CommandLine

open CommandLine

/-- What the words of a command line ask for. -/
def Invocation.ofArguments (words : List String) : Except ArgumentError Invocation :=
  match Word.all? mainGrammar words with
  | none => .error .usage
  | some ws => readFront true none false (ws.zip words)

end Recurrence
