import Recurrence.Expansion.Scan
import Recurrence.Rule.Reader
import Recurrence.Timestamp.IsoPrinter

/-!
# Series and occurrences

A series is an event with the text of its rule and the starts that were cancelled.  It expands into
occurrences, which all last as long as the event itself.

* `Series`, `Series.duration`, `Series.rule?`
* `Occurrence`, `Occurrence.instanceId`
* `Series.expand`: the occurrences in a window
-/

namespace Recurrence

open Text

/-- A recurring event: its first start and end, the text of its rule, and its cancelled starts. -/
structure Series where
  id : String
  start : Instant
  finish : Instant
  rule : String
  exceptions : List Instant

namespace Series

/-- The microseconds from start to end; none if the end comes first. -/
def duration (s : Series) : Nat := s.finish.micros - s.start.micros

def rule? (s : Series) : Option Rule := Rule.decode? s.rule

end Series

/-- One instance of a series. -/
structure Occurrence where
  seriesId : String
  start : Instant
  finish : Instant
deriving DecidableEq

namespace Occurrence

/-- The start to the second, the year without zeros in front. -/
def stampChars (t : Instant) : List Char :=
  let d := t.date
  decimal d.year ++ padded 2 d.month ++ padded 2 d.day ++
    'T' :: padded 2 t.hour ++ padded 2 t.minute ++ padded 2 t.secondOfMinute

/-- The name of an instance: that of its series and its start. -/
def instanceId (o : Occurrence) : String :=
  o.seriesId ++ "_" ++ String.ofList (stampChars o.start)

/-- The instance of a series that starts at `t`, if its end lies in the calendar. -/
def ofStart? (s : Series) (t : Instant) : Option Occurrence :=
  (t.shift? s.duration).map fun e => ⟨s.id, t, e⟩

end Occurrence

/-- The instants of stamps, in their order. -/
def instantsOf : List Stamp → Except TimeError (List Instant)
  | [] => .ok []
  | s :: rest =>
    match s.utc with
    | .error e => .error e
    | .ok t => (instantsOf rest).map (t :: ·)

namespace Series

/-- The instances at the starts that are not excluded, up to the first that ends too late. -/
def instances (s : Series) (excluded starts : List Instant) : List Occurrence :=
  (((starts.filter fun t => !excluded.contains t).map (Occurrence.ofStart? s)).takeWhile
    Option.isSome).filterMap fun o => o

/-- The occurrences between two instants, both included, without those that start at one of the
`extra` stamps. -/
def expandBetween (s : Series) (lower upper : Instant) (extra : List Stamp) :
    Except TimeError (List Occurrence) :=
  if upper ≤ lower then .ok []
  else
    match s.rule? with
    | none => .ok []
    | some r =>
      match instantsOf extra with
      | .error e => .error e
      | .ok extra =>
        match r.starts s.start (Stamp.ofInstant lower) (Stamp.ofInstant upper) with
        | .error _ => .ok []
        | .ok starts => .ok (s.instances (s.exceptions ++ extra) starts)

/-- The occurrences in a window.  A day at its lower end counts from its start, and a day at its
upper end to its end.  Nothing occurs in a window without length, and a rule that cannot be read or
followed has no occurrences. -/
def expand (s : Series) (lower upper : Moment) (extra : List Stamp) :
    Except TimeError (List Occurrence) := do
  let lower ← lower.opening
  let upper ← upper.closing
  s.expandBetween lower upper extra

end Series

end Recurrence
