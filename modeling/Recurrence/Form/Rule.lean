import Recurrence.Form.Field
import Recurrence.Form.Time
import Recurrence.Json.Writer
import Recurrence.Rule.Basic
import Recurrence.Timestamp.IsoPrinter

/-!
# Rules as forms

A rule as a form has the fields `frequency`, `interval`, `mode` and `end`; mode and ending carry their
kind in a field `kind`.  A mode has to fit the frequency.

* `Rule.ofForm`: the rule of a form, or what is wrong with it
* `Rule.toForm`: the form of a rule
-/

namespace Recurrence

namespace Mode

/-- The tag of a mode in forms. -/
def kind : Mode → String
  | weeklyDays _ => "weekly_days"
  | monthlyDay _ => "monthly_day"
  | monthlyNth .. => "monthly_nth_weekday"
  | yearlyDate .. => "yearly_date"
  | yearlyNth .. => "yearly_nth_weekday"

/-- The name of a mode in messages. -/
def title : Mode → String
  | weeklyDays _ => "WeeklyDays"
  | monthlyDay _ => "MonthlyDay"
  | monthlyNth .. => "MonthlyNthWeekday"
  | yearlyDate .. => "YearlyDate"
  | yearlyNth .. => "YearlyNthWeekday"

end Mode

namespace RuleForm

def weekday (v : Value) : Check Weekday :=
  match Field.between 0 (some 6) v with
  | .error e => .error e
  | .ok i =>
    match Weekday.ofIndex? i.toNat with
    | some w => .ok w
    | none => .fault .tooLarge

/-- A number that counts from 1 up to a bound. -/
def upTo (most : Nat) (v : Value) : Check { n : Nat // 1 ≤ n ∧ n ≤ most } :=
  match Field.between 1 (some most) v with
  | .error e => .error e
  | .ok i => if h : 1 ≤ i.toNat ∧ i.toNat ≤ most then .ok ⟨i.toNat, h⟩ else .fault .tooLarge

def month (v : Value) : Check Month := upTo 12 v

def monthDay (v : Value) : Check MonthDay := upTo 31 v

def positive (v : Value) : Check Positive :=
  match Field.between 1 none v with
  | .error e => .error e
  | .ok i => if h : 0 < i.toNat then .ok ⟨i.toNat, h⟩ else .fault .tooSmall

/-- All positions. -/
def positions : List Position := [.last, .first, .second, .third, .fourth]

/-- A position is given as a number that is equal to -1, 1, 2, 3 or 4. -/
def position (v : Value) : Check Position :=
  match positions.find? fun p => v.same (.int p.number) with
  | some p => .ok p
  | none => .fault .notAllowed

def frequency : Value → Check Frequency
  | .text s =>
    match Frequency.ofName? s with
    | some f => .ok f
    | none => .fault .unknownMember
  | _ => .fault .unknownMember

/-- A set of weekdays. -/
def daySet (items : List Value) : Check DaySet :=
  match Check.all weekday 0 items with
  | .error e => .error e
  | .ok days =>
    match DaySet.ofList? days with
    | some s => .ok s
    | none => .fault .tooFewItems

def days : Value → Check DaySet
  | .list items => daySet items
  | .tuple items => daySet items
  | .set items => daySet items
  | _ => .fault .notSet

/-- The fields of a mode of a kind. -/
def modeOfKind? (v : Value) (kind : String) : Option (Check Mode) :=
  if kind = "weekly_days" then some ((Field.required v "days" days).map .weeklyDays)
  else if kind = "monthly_day" then some ((Field.required v "day" monthDay).map .monthlyDay)
  else if kind = "monthly_nth_weekday" then
    some (Check.map₂ .monthlyNth (Field.required v "position" position)
      (Field.required v "weekday" weekday))
  else if kind = "yearly_date" then
    some (Check.map₂ .yearlyDate (Field.required v "month" month)
      (Field.required v "day" monthDay))
  else if kind = "yearly_nth_weekday" then
    some (Check.and (Check.map₂ .yearlyNth (Field.required v "position" position)
      (Field.required v "weekday" weekday)) (Field.required v "month" month))
  else none

/-- The last second of an ending.  A day stands for its last second. -/
def lastSecond : Value → Check Second
  | .moment (.day d) => .ok (Second.endOfDate d)
  | v => (FormTime.checkInstant v).map Instant.second

/-- The fields of an ending of a kind. -/
def endingOfKind? (v : Value) (kind : String) : Option (Check Ending) :=
  if kind = "never" then some (.ok .never)
  else if kind = "after" then some ((Field.required v "count" positive).map .after)
  else if kind = "on" then some ((Field.required v "until" lastSecond).map .on)
  else none

/-- A form that carries its kind in a field. -/
def tagged {α : Type} (ofKind? : Value → String → Option (Check α)) (v : Value) : Check α :=
  match v with
  | .map _ =>
    match v.field? "kind" with
    | none => .fault .tagMissing
    | some (.text kind) =>
      match ofKind? v kind with
      | some c => Check.at kind c
      | none => .fault .tagUnknown
    | some _ => .fault .tagUnknown
  | _ => .fault .notTagged

def mode : Value → Check (Option Mode)
  | .null => .ok none
  | v => (tagged modeOfKind? v).map some

/-- The fields of a rule. -/
structure Fields where
  frequency : Frequency
  interval : Positive
  mode : Option Mode
  ending : Ending

def fields (v : Value) : Check Fields :=
  Check.and (Check.and (Check.map₂ Fields.mk (Field.required v "frequency" frequency)
    (Field.optional v "interval" Positive.one positive))
    (Field.optional v "mode" none mode))
    (Field.optional v "end" .never (tagged endingOfKind?))

/-- The rule with these fields, if the mode fits the frequency. -/
def assemble (f : Fields) : Check Rule :=
  match Pattern.ofMode? f.frequency f.mode with
  | some p => .ok ⟨p, f.interval, f.ending⟩
  | none =>
    .fault (.mismatch ((f.mode.map Mode.title).getD "" ++ " is not valid for " ++
      f.frequency.name ++ " rules"))

end RuleForm

/-- The rule of a form. -/
def Rule.ofForm (v : Value) : Check Rule :=
  match v with
  | .map _ =>
    match RuleForm.fields v with
    | .error e => .error e
    | .ok f => RuleForm.assemble f
  | _ => .fault .notForm

/-! ## Writing -/

open Json (object)

def Mode.toForm (m : Mode) : Value :=
  let weekday (w : Weekday) : String × Value := ("weekday", .int w.index)
  let position (p : Position) : String × Value := ("position", .int p.number)
  object (("kind", .text m.kind) ::
    match m with
    | .weeklyDays s => [("days", .list (s.days.map fun w => .int w.index))]
    | .monthlyDay d => [("day", .int d.1)]
    | .monthlyNth p w => [position p, weekday w]
    | .yearlyDate m d => [("month", .int m.1), ("day", .int d.1)]
    | .yearlyNth p w m => [position p, weekday w, ("month", .int m.1)])

def Ending.toForm : Ending → Value
  | .never => object [("kind", .text "never")]
  | .after n => object [("kind", .text "after"), ("count", .int n.1)]
  | .on t => object [("kind", .text "on"), ("until", .text t.instant.toIso)]

/-- The form of a rule. -/
def Rule.toForm (r : Rule) : Value :=
  object [("frequency", .text r.pattern.frequency.name), ("interval", .int r.interval.1),
    ("mode", ((r.pattern.mode.map Mode.toForm).getD .null)), ("end", r.ending.toForm)]

end Recurrence
