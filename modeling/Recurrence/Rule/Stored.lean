import Recurrence.Rule.Clamp
import Recurrence.Rule.Summary
import Recurrence.Value.Basic

/-!
# Stored rules of any kind

Where a rule is stored there may be something else than a text.  The tolerant operations take it for
no rule, and the strict reader says what it found.

* `Rule.ofValue?`, `Rule.parseValue`: reading
* `clampValue`, `describeValue`: clamping and putting into words
-/

namespace Recurrence

namespace Rule

/-- The rule of a stored value, read tolerantly. -/
def ofValue? : Value → Option Rule
  | .text s => decode? s
  | _ => none

/-- The rule of a stored value, read strictly. -/
def parseValue : Value → Except RuleError Rule
  | .text s => parse s
  | v => .error (.notText v.kind)

end Rule

/-- A stored rule clamped before a cutoff; anything but a text is left alone. -/
def clampValue (v : Value) (cutoff : Stamp) : Except TimeError Value :=
  match v with
  | .text s => (clampUntil s cutoff).map .text
  | v => .ok v

/-- A stored rule in words. -/
def describeValue (v : Value) (anchor : Stamp) : String :=
  match v with
  | .text s => describe s anchor
  | _ => fallbackText

end Recurrence
