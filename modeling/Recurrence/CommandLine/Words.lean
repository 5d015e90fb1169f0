import Recurrence.Text.Digit
import Recurrence.Text.Split

/-!
# Words of a command line

A command line consists of options, their arguments, and operands.  An option is known by its name
or by the front of it if only one name begins so, and its argument is the next word or follows
behind an equals sign.  After two hyphens alone there are no more options.

* `Grammar`: the options of a command
* `Word.of?`: what a word is by itself; `Word.all?` for all words
* `Item`, `readItems`: what is given for which option, and the operand

Words for which there is no use are a fault, but only after all others have been looked at.
-/

namespace Recurrence.CommandLine

open Text

/-- The options of a command: those without an argument, and those with a text or an instant as
their argument. -/
structure Grammar where
  flags : List String := []
  texts : List String := []
  instants : List String := []

namespace Grammar

def helpNames : List String := ["-h", "--help"]

def names (g : Grammar) : List String := helpNames ++ g.flags ++ g.texts ++ g.instants

def takesArgument (g : Grammar) (name : String) : Bool :=
  g.texts.contains name || g.instants.contains name

end Grammar

/-! ## Words -/

/-- What a word is.  An option may have its argument with it. -/
inductive Word where
  | plain (text : String)
  | separator
  | option (name : String) (argument : Option String)
  | unknown
deriving DecidableEq

namespace Word

/-- A minus sign and a number, with or without a fraction. -/
def isNegativeNumber (s : List Char) : Bool :=
  let s := if s.getLast? = some '\n' then s.dropLast else s
  match s with
  | '-' :: r =>
    match cutAt '.' r with
    | (whole, none) => whole ≠ [] && whole.all isDigit
    | (whole, some fraction) => whole.all isDigit && fraction ≠ [] && fraction.all isDigit
  | _ => false

/-- The options that a word may stand for, with what it has as their argument. -/
def candidates (g : Grammar) (s : List Char) : List Word :=
  match s with
  | '-' :: '-' :: _ =>
    let (front, argument) := cutAt '=' s
    (g.names.filter fun name => front.isPrefixOf name.toList).map fun name =>
      option name (argument.map String.ofList)
  | '-' :: c :: r =>
    (g.names.filter fun name => name.toList = ['-', c]).map fun name =>
      option name (some (String.ofList r))
  | _ => []

/-- The option whose name the word is, or whose name it has before an equals sign. -/
def named? (g : Grammar) (s : List Char) : Option Word :=
  if g.names.contains (String.ofList s) then some (option (String.ofList s) none)
  else
    match cutAt '=' s with
    | (front, some argument) =>
      if g.names.contains (String.ofList front) then
        some (option (String.ofList front) (some (String.ofList argument)))
      else none
    | _ => none

/-- What a word is, unless it may stand for several options. -/
def of? (g : Grammar) (word : String) : Option Word :=
  let s := word.toList
  if s.head? ≠ some '-' then some (plain word)
  else
    match named? g s with
    | some w => some w
    | none =>
      if s = ['-'] then some (plain word)
      else
        match candidates g s with
        | _ :: _ :: _ => none
        | [w] => some w
        | [] => if isNegativeNumber s || s.contains ' ' then some (plain word) else some unknown

/-- All words; behind a separator they are plain. -/
def all? (g : Grammar) : List String → Option (List Word)
  | [] => some []
  | "--" :: rest => some (separator :: rest.map plain)
  | word :: rest =>
    match of? g word, all? g rest with
    | some w, some ws => some (w :: ws)
    | _, _ => none

end Word

/-! ## Items -/

/-- A thing that is given. -/
inductive Item where
  | operand (text : String)
  | flag (name : String)
  | argument (name text : String)
  | help
deriving DecidableEq

/-- The flag with a name. -/
def Item.ofFlag (name : String) : Item :=
  if Grammar.helpNames.contains name then help else flag name

/-- Whether what follows a hyphen and the letter for help asks for help again. -/
def isRepeatedHelp (name : String) (text : String) : Bool :=
  name == "-h" && text != "" && text.toList.all (· == 'h')

/-- Whether nothing but perhaps a separator follows the operand. -/
def endsOperand : List Word → Bool
  | [] | [.separator] => true
  | _ => false

/-- What the words give, in order, and whether all of them are of use.  Reading stops at an option
without the argument that it takes, or with one that it does not take. -/
def readItems (g : Grammar) : (taken : Bool) → List Word → List Item × Bool
  | _, [] => ([], true)
  | taken, .plain text :: rest =>
    if taken then ((readItems g true rest).1, false)
    else
      match rest with
      | .separator :: rest => ([.operand text], rest.isEmpty)
      | rest =>
        let (items, ok) := readItems g true rest
        (.operand text :: items, ok)
  | taken, .separator :: rest =>
    match taken, rest with
    | false, .plain text :: rest => ([.operand text], rest.isEmpty)
    | _, _ => ([], false)
  | taken, .unknown :: rest => ((readItems g taken rest).1, false)
  | taken, .option name none :: rest =>
    if g.takesArgument name then
      match rest with
      | .plain text :: rest =>
        let (items, ok) := readItems g taken rest
        (.argument name text :: items, ok)
      | _ => ([], false)
    else
      let (items, ok) := readItems g taken rest
      (.ofFlag name :: items, ok)
  | taken, .option name (some text) :: rest =>
    if g.takesArgument name then
      let (items, ok) := readItems g taken rest
      (.argument name text :: items, ok)
    else if isRepeatedHelp name text then ([.help], true)
    else ([], false)

end Recurrence.CommandLine
