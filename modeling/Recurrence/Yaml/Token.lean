/-!
# Tokens of a document

The marks and words of a YAML document.  Where blocks begin and end is shown by indentation in the
text and by tokens of their own here.

* `Fault`: why a document cannot be used
* `Directive`, `TagName`, `Token`
-/

namespace Recurrence.Yaml

/-- Why a document cannot be used. -/
inductive Fault where
  /-- the text breaks the rules of documents -/
  | malformed
  /-- a number, a date or a character that does not exist -/
  | noSuchValue
  /-- a number or a character code beyond all bounds -/
  | tooLarge
  /-- a word that is tagged as a truth value and is none -/
  | noSuchTruth
  /-- a text that is tagged as a number and is empty -/
  | emptyNumber
  /-- a text that is tagged as a time and is none -/
  | noTime
  /-- a map that is tagged as a time -/
  | timeOfMap
  /-- lists and maps inside of each other beyond all bounds -/
  | tooDeep
deriving DecidableEq, Repr

/-- The tag of a node as it is written: a handle that stands for the front of a name, and the rest
of it. -/
structure TagName where
  handle : Option (List Char)
  suffix : List Char
deriving DecidableEq, Repr

/-- A line about the document itself. -/
inductive Directive where
  | version (major : Nat)
  | handle (name lead : List Char)
  | other
deriving DecidableEq, Repr

inductive Token where
  | directive (d : Directive)
  | documentStart
  | documentEnd
  | blockListStart
  | blockMapStart
  | blockEnd
  | flowListStart
  | flowListEnd
  | flowMapStart
  | flowMapEnd
  | blockEntry
  | flowEntry
  | key
  | value
  | alias (name : List Char)
  | anchor (name : List Char)
  | tag (t : TagName)
  | scalar (plain : Bool) (text : List Char)
  | finish
  /-- what follows cannot be read -/
  | broken (f : Fault)
deriving DecidableEq, Repr

end Recurrence.Yaml
