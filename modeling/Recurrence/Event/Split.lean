import Recurrence.Event.Record
import Recurrence.Rule.Clamp

/-!
# Splitting a series

An edit of one occurrence and all that follow splits a series: the stored event stops before the
occurrence, and a new event continues from it.

* `SplitError`: why a series cannot be split
* `partitionExceptions`: the cancelled starts before the split and those from it on
* `EventRecord.split`: the two parts
-/

namespace Recurrence

/-- Why an event cannot be split. -/
inductive SplitError where
  | time (e : TimeError)
  /-- the event has no rule that can be read -/
  | notRecurring (id : String)
  /-- the occurrences before the split could not be counted -/
  | notCounted (id : String) (e : ExpansionError)
deriving DecidableEq

def SplitError.message : SplitError → String
  | time _ => ""
  | notRecurring id => "Event " ++ id ++ " is not a recurring series"
  | notCounted id _ => "Cannot count occurrences of " ++ id

/-- The two parts of a split event; a counted event may have nothing left to continue. -/
structure SeriesSplit where
  earlierRule : String
  earlierExceptions : List String
  continuation : Option EventRecord
deriving DecidableEq

/-- The texts of the cancelled starts before a cutoff, and of those from it on. -/
def partitionExceptions (cutoff : Instant) : List String → List String × List String
  | [] => ([], [])
  | s :: rest =>
    let (before, after) := partitionExceptions cutoff rest
    match Instant.ofIso s with
    | .ok t => if cutoff ≤ t then (before, s :: after) else (s :: before, after)
    | .error _ => (before, after)

/-- The number of starts before a cutoff, cancelled ones included. -/
def Rule.consumed (r : Rule) (anchor cutoff : Instant) : Except ExpansionError Nat :=
  if cutoff ≤ anchor then .ok 0
  else
    match cutoff.shift? (-1) with
    | none => .ok 0
    | some before =>
      (r.starts anchor (Stamp.ofInstant anchor) (Stamp.ofInstant before)).map List.length

/-- The rule text of the continuation, if anything is left of the count. -/
def continuationRule (rule : String) (r : Rule) (anchor cutoff : Instant) :
    Except ExpansionError (Option String) :=
  match r.ending with
  | .after n =>
    (r.consumed anchor cutoff).map fun consumed =>
      if n.1 ≤ consumed then none else some (withCount rule (n.1 - consumed))
  | _ => .ok (some rule)

/-- The name of the continuation: the one asked for, or a fresh one if that is empty. -/
def continuationId (newId : Option String) (fresh : String) : String :=
  match newId with
  | none | some "" => fresh
  | some id => id

/-- Splits an event at an occurrence.  The event is clamped before the occurrence; what remains
keeps rule and duration, with the count reduced by what was consumed.  The cancelled starts go to
the part in which they lie, faulty ones to neither. -/
def EventRecord.split (record : EventRecord) (point : Stamp) (newId : Option String)
    (fresh : String) : Except SplitError SeriesSplit :=
  match Series.ofRecord record with
  | .error e => .error (.time e)
  | .ok none => .error (.notRecurring record.id)
  | .ok (some series) =>
    match series.rule? with
    | none => .error (.notRecurring record.id)
    | some r =>
      match point.utc, clampUntil series.rule point with
      | .error e, _ => .error (.time e)
      | _, .error e => .error (.time e)
      | .ok cutoff, .ok clamped =>
        let (before, after) := partitionExceptions cutoff record.exceptions
        match continuationRule series.rule r series.start cutoff with
        | .error e => .error (.notCounted record.id e)
        | .ok none => .ok ⟨clamped, before, none⟩
        | .ok (some rule) =>
          match cutoff.shift? series.duration with
          | none => .error (.time .outOfRange)
          | some finish =>
            .ok ⟨clamped, before,
              some ⟨continuationId newId fresh, cutoff, finish, some rule, after⟩⟩

end Recurrence
