import Recurrence.Expansion.Period

/-!
# The starts of a rule

The candidates of a rule are the instants at the anchor's time of day on the chosen days of all its
periods.  A scan goes through them in order.  It stops after the last second of the rule, after the
count is used up and at the first start beyond the window; candidates before the anchor are passed
over and do not count.

* `ExpansionError`: why a scan can fail
* `Scan`: what a scan compares the candidates with
* `Scan.State`, `Scan.step`, `Scan.run`: how far it has come, one candidate, all periods
* `Rule.starts`: the starts of a rule in a window

`Scan.run_eq_foldl` says that a scan is a fold over the days of all periods.
-/

namespace Recurrence

/-- Why the starts of a rule could not be found. -/
inductive ExpansionError where
  /-- a week of the rule runs past the year 9999 -/
  | pastCalendar
  /-- a bound of the window has no offset, so that no start can be compared with it -/
  | noOffset
  /-- the window cannot be shifted by the anchor's part of a second -/
  | outOfRange
deriving DecidableEq, Repr

/-- What the candidates are compared with.  A start lies in the window if its microseconds are at
least `lower` and less than `upper`; a bound that cannot be compared is `none`. -/
structure Scan where
  anchor : Instant
  last : Option Second
  lower : Option Nat
  upper : Option Nat

namespace Scan

/-- How far a scan has come: `left` is what remains of a count, and `found` the starts in the window,
the latest first. -/
inductive State where
  | going (left : Option Nat) (found : List Instant)
  | halted (found : List Instant)
  | failed (e : ExpansionError)

/-- Whether an instant lies after the last second. -/
def isOver (q : Scan) (t : Instant) : Bool :=
  match q.last with
  | some s => decide (s.index < t.second.index)
  | none => false

/-- A start that the count allows. -/
def take (q : Scan) (left : Option Nat) (found : List Instant) (t : Instant) : State :=
  match q.upper with
  | none => .failed .noOffset
  | some upper =>
    if upper ≤ t.micros then .halted found
    else
      match q.lower with
      | none => .failed .noOffset
      | some lower => .going left (if lower ≤ t.micros then t :: found else found)

/-- One candidate: the anchor's time of day on the day numbered `n`. -/
def step (q : Scan) (s : State) (n : Nat) : State :=
  match s with
  | .going left found =>
    if h : n < calendarDays then
      let t := Instant.ofDay n q.anchor.timeOfDay h q.anchor.timeOfDay_lt
      if t < q.anchor then .going left found
      else if q.isOver t then .halted found
      else
        match left with
        | none => q.take none found t
        | some 0 => .halted found
        | some (n + 1) => q.take (some n) found t
    else .failed .pastCalendar
  | s => s

/-- `count` periods from the `k`-th on. -/
def run (q : Scan) (period : Nat → List Nat) : (count k : Nat) → State → State
  | 0, _, s => s
  | count + 1, k, .going left found =>
    run q period count (k + 1) ((period k).foldl q.step (.going left found))
  | _ + 1, _, s => s

/-- The starts found, the earliest first. -/
def State.result : State → Except ExpansionError (List Instant)
  | .going _ found => .ok found.reverse
  | .halted found => .ok found.reverse
  | .failed e => .error e

theorem foldl_step_halted (q : Scan) (found : List Instant) (l : List Nat) :
    l.foldl q.step (.halted found) = .halted found := by
  induction l with
  | nil => rfl
  | cons _ _ ih => exact ih

theorem foldl_step_failed (q : Scan) (e : ExpansionError) (l : List Nat) :
    l.foldl q.step (.failed e) = .failed e := by
  induction l with
  | nil => rfl
  | cons _ _ ih => exact ih

theorem run_eq_foldl (q : Scan) (period : Nat → List Nat) (count k : Nat) (s : State) :
    q.run period count k s = ((List.range' k count).flatMap period).foldl q.step s := by
  induction count generalizing k s with
  | zero => cases s <;> rfl
  | succ count ih =>
    cases s with
    | going left found => rw [run, ih, List.range'_succ, List.flatMap_cons, List.foldl_append]
    | halted found => rw [foldl_step_halted]; rfl
    | failed e => rw [foldl_step_failed]; rfl

end Scan

namespace Ending

/-- The number of starts that the ending allows, if it gives one. -/
def count? : Ending → Option Nat
  | after n => some n.1
  | _ => none

/-- The last second in which the ending allows a start, if it gives one. -/
def last? : Ending → Option Second
  | on t => some t
  | _ => none

end Ending

/-- The bound in microseconds of universal time, not less than zero, plus `beyond`; nothing for a
stamp without an offset. -/
def Stamp.edge (s : Stamp) (beyond : Int) : Option Nat :=
  s.offset.map fun _ => (s.utcMicros + beyond).toNat

namespace Rule

/-- The scan of a rule between two bounds, both included. -/
def scan (r : Rule) (anchor : Instant) (lower upper : Stamp) : Scan where
  anchor := anchor
  last := r.ending.last?
  lower := lower.edge 0
  upper := upper.edge 1

/-- The state after all periods of the rule. -/
def scanAll (r : Rule) (anchor : Instant) (q : Scan) : Scan.State :=
  let day := anchor.day
  let date := anchor.date
  q.run (r.pattern.periodDays r.interval.1 day date)
    (r.pattern.periodCount r.interval.1 day date) 0 (.going r.ending.count? [])

/-- The starts of a rule between two bounds, both included, for an event that starts at the anchor.
The candidates lie on whole seconds and the bounds are shifted by the anchor's part of a second, so
that has to be possible. -/
def starts (r : Rule) (anchor : Instant) (lower upper : Stamp) :
    Except ExpansionError (List Instant) :=
  let part : Int := -Int.ofNat anchor.microOfSecond
  if (lower.wall.shift? part).isNone || (upper.wall.shift? part).isNone then .error .outOfRange
  else (r.scanAll anchor (r.scan anchor lower upper)).result

end Rule

end Recurrence
