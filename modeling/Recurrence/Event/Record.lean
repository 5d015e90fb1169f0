import Recurrence.Expansion.Series
import Recurrence.Timestamp.Iso

/-!
# Event records

An event as a calendar stores it: the rule is a text that may be missing, and the cancelled starts
are texts that may be faulty.

* `EventRecord`
* `readExceptions`: the instants of the cancelled starts, without the faulty ones
* `Series.ofRecord`: the series of a recurring event
* `excludeOccurrence`: cancels one more start
-/

namespace Recurrence

/-- A stored event. -/
structure EventRecord where
  id : String
  start : Instant
  finish : Instant
  recurrence : Option String
  exceptions : List String
deriving DecidableEq

/-- The instants that the texts spell.  A text that spells none is passed over; one that spells an
instant outside the calendar is an error. -/
def readExceptions : List String → Except TimeError (List Instant)
  | [] => .ok []
  | s :: rest =>
    match Instant.ofIso s with
    | .ok t => (readExceptions rest).map (t :: ·)
    | .error .malformed => readExceptions rest
    | .error .outOfRange => .error .outOfRange

/-- The series of an event; an event without a rule has none. -/
def Series.ofRecord (r : EventRecord) : Except TimeError (Option Series) :=
  match r.recurrence with
  | none | some "" => .ok none
  | some rule =>
    (readExceptions r.exceptions).map fun exceptions =>
      some ⟨r.id, r.start, r.finish, rule, exceptions⟩

/-- The cancelled starts with one more, unless it is among them. -/
def excludeOccurrence (exceptions : List String) (start : Stamp) :
    Except TimeError (List String) := do
  let t ← start.utc
  let existing ← readExceptions exceptions
  pure (if existing.contains t then exceptions else exceptions ++ [t.toZulu])

end Recurrence
