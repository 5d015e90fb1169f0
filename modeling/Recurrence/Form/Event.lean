import Recurrence.Event.Record
import Recurrence.Form.Field
import Recurrence.Form.Time
import Recurrence.Json.Writer

/-!
# Events and series as forms

* `EventRecord.ofForm`, `EventRecord.toForm`: a stored event
* `Series.ofForm`: a series, whose name and rule may be anything and whose times are times
-/

namespace Recurrence

/-- The stored event of a form. -/
def EventRecord.ofForm (v : Value) : Check EventRecord :=
  match v with
  | .map _ =>
    Check.and (Check.and (Check.and (Check.map₂ EventRecord.mk (Field.required v "id" Field.text)
      (Field.required v "start" FormTime.checkInstant))
      (Field.required v "end" FormTime.checkInstant))
      (Field.optional v "recurrence" none Field.textOrNull))
      (Field.optional v "exceptions" [] Field.texts)
  | _ => .fault .notForm

open Json (object)

/-- The form of a stored event. -/
def EventRecord.toForm (r : EventRecord) : Value :=
  object [("id", .text r.id), ("start", .text r.start.toIso), ("end", .text r.finish.toIso),
    ("recurrence", (r.recurrence.map Value.text).getD .null),
    ("exceptions", .list (r.exceptions.map .text))]

/-- The instants of a list of times. -/
def instantsOfMoments (l : List Moment) : Check (List Instant) :=
  Check.all (fun m => FormTime.checkInstant (.moment m)) 0 l

/-- The series with a name, a start, an end, a rule and cancelled starts. -/
def Series.ofForm (id : Value) (start finish : Moment) (rule : Value) (exceptions : List Moment) :
    Check Series :=
  Check.and (Check.and (Check.and (Check.map₂ Series.mk (Check.at "id" (Field.text id))
    (Check.at "anchor_start" (FormTime.checkInstant (.moment start))))
    (Check.at "anchor_end" (FormTime.checkInstant (.moment finish))))
    (Check.at "rule" (Field.text rule)))
    (Check.at "exceptions" (instantsOfMoments exceptions))

end Recurrence
