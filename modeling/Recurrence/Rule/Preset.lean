import Recurrence.Rule.Basic

/-!
# Presets

What a rule editor fills in: the rule for a newly chosen frequency, and the ending for a newly
chosen kind of ending.

* `Rule.preset`: every day, week, month or year, on the days of the anchor
* `EndKind`, `Rule.switchEnding`: another kind of ending
-/

namespace Recurrence

/-- The choice of days that the start of an event makes by itself. -/
def Pattern.ofAnchor (f : Frequency) (anchor : Instant) : Pattern :=
  match f with
  | .daily => .daily
  | .weekly => .weekly (some (DaySet.singleton anchor.weekday))
  | .monthly => .monthly (some (.day anchor.date.monthDay))
  | .yearly => .yearly (some (.date anchor.date.monthNumber anchor.date.monthDay))

/-- The endless rule that repeats on the days of an instant. -/
def Rule.ofAnchor (f : Frequency) (anchor : Instant) : Rule :=
  ⟨Pattern.ofAnchor f anchor, Positive.one, .never⟩

/-- The endless rule that repeats on the days of the anchor. -/
def Rule.preset (f : Frequency) (anchor : Stamp) : Except TimeError Rule :=
  anchor.utc.map (Rule.ofAnchor f)

inductive EndKind where
  | never | on | after
deriving DecidableEq, Repr

namespace EndKind

def ofName? (s : String) : Option EndKind :=
  if s = "never" then some never
  else if s = "on" then some on
  else if s = "after" then some after
  else none

end EndKind

/-- The count of a newly chosen ending. -/
def defaultCount : Positive := ⟨10, by decide⟩

/-- The rule with an ending of a kind: its own if it is of that kind, otherwise the anchor's day or
`defaultCount` occurrences. -/
def Rule.switchEnding (r : Rule) (kind : EndKind) (anchor : Stamp) : Except TimeError Rule :=
  match kind with
  | .never => .ok (r.withEnding .never)
  | .on =>
    match r.ending with
    | .on _ => .ok r
    | _ => do
      let t ← anchor.utc
      pure (r.withEnding (.on (Second.endOfDate t.date)))
  | .after =>
    match r.ending with
    | .after _ => .ok r
    | _ => .ok (r.withEnding (.after defaultCount))

end Recurrence
