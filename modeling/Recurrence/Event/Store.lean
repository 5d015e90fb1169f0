import Recurrence.Event.Split
import Recurrence.Rule.Preset
import Recurrence.Rule.Stored
import Recurrence.Value.Text

/-!
# A store of events and its edits

Events are stored under their names.  An edit changes one event, and a split adds or replaces the
event that continues it.  An edit that fails changes nothing.

* `Edit`, `EditError`
* `EventRecord.apply`: an edit of one event
* `EventStore`, `EventStore.find?`, `EventStore.put`, `EventStore.apply`
-/

namespace Recurrence

/-- An edit of an event. -/
inductive Edit where
  /-- cancels one occurrence -/
  | exclude (start : Stamp)
  /-- splits the series at an occurrence -/
  | split (point : Stamp) (newId : Option String) (fresh : String)
  /-- stops the series before a cutoff -/
  | clamp (cutoff : Stamp)
  /-- repeats the event anew -/
  | preset (frequency : Option Frequency)
  /-- changes the kind of ending; `kind` may be no kind at all -/
  | setEnd (kind : Value)

/-- Why an edit fails. -/
inductive EditError where
  | time (e : TimeError)
  | rule (e : RuleError)
  | split (e : SplitError)
  | unknownFrequency
  | unknownEnd (kind : List Char)

def EditError.message : EditError → String
  | time _ | unknownFrequency => ""
  | rule e => e.message
  | split e => e.message
  | unknownEnd kind => "Unknown end condition " ++ String.ofList kind

/-- The rule with an ending of a kind that is given as a value. -/
def Rule.switchEndingTo (r : Rule) (kind : Value) (anchor : Stamp) : Except EditError Rule :=
  let known := match kind with
    | .text s => EndKind.ofName? s
    | _ => none
  match known with
  | none => .error (.unknownEnd kind.inner)
  | some k => (r.switchEnding k anchor).mapError .time

namespace EventRecord

/-- The stored rule as a value. -/
def rule (r : EventRecord) : Value := (r.recurrence.map Value.text).getD .null

def withRule (r : EventRecord) (rule : Rule) : EventRecord :=
  { r with recurrence := some rule.encode }

/-- The event after an edit, and the event that continues it. -/
def apply (r : EventRecord) : Edit → Except EditError (EventRecord × Option EventRecord)
  | .exclude start =>
    match excludeOccurrence r.exceptions start with
    | .ok exceptions => .ok ({ r with exceptions }, none)
    | .error e => .error (.time e)
  | .split point newId fresh =>
    match r.split point newId fresh with
    | .ok s =>
      .ok ({ r with recurrence := some s.earlierRule, exceptions := s.earlierExceptions },
        s.continuation)
    | .error e => .error (.split e)
  | .clamp cutoff =>
    match r.recurrence with
    | none => .ok (r, none)
    | some rule =>
      match clampUntil rule cutoff with
      | .ok rule => .ok ({ r with recurrence := some rule }, none)
      | .error e => .error (.time e)
  | .preset none => .error .unknownFrequency
  | .preset (some f) => .ok (r.withRule (Rule.ofAnchor f r.start), none)
  | .setEnd kind =>
    match Rule.parseValue r.rule with
    | .error e => .error (.rule e)
    | .ok rule =>
      (rule.switchEndingTo kind (Stamp.ofInstant r.start)).map fun rule => (r.withRule rule, none)

/-- The rule of the event in words. -/
def describe (r : EventRecord) : String := describeValue r.rule (Stamp.ofInstant r.start)

end EventRecord

/-- Events, of which no two have the same name. -/
abbrev EventStore := List EventRecord

namespace EventStore

def find? (s : EventStore) (id : String) : Option EventRecord := List.find? (·.id == id) s

/-- The store with an event, in the place of one with the same name. -/
def put (r : EventRecord) : EventStore → EventStore
  | [] => [r]
  | q :: rest => if q.id = r.id then r :: rest else q :: put r rest

def ofList (l : List EventRecord) : EventStore := l.foldl (fun s r => put r s) []

/-- The store after an edit of an event, the event and the one that continues it. -/
def apply (s : EventStore) (r : EventRecord) (e : Edit) :
    Except EditError (EventStore × EventRecord × Option EventRecord) :=
  (r.apply e).map fun (r, continuation) =>
    let s := put r s
    (match continuation with
      | some c => put c s
      | none => s, r, continuation)

end EventStore

end Recurrence
