import Recurrence.Rule.Reader

/-!
# Rules in words

A rule reads as an English phrase, such as `every 2 weeks on Monday, Wednesday, 10 times`.  Days
that the rule leaves to the start of the event are named from it.

* `ordinal`: `1st`, `2nd`, `3rd`, `4th`
* `Rule.render`: the phrase of a rule
* `describe`: the phrase of a rule text, with `Repeats` for a text without a rule
-/

namespace Recurrence

open Text

/-- The name of a month. -/
def monthName : Nat → String
  | 1 => "January"
  | 2 => "February"
  | 3 => "March"
  | 4 => "April"
  | 5 => "May"
  | 6 => "June"
  | 7 => "July"
  | 8 => "August"
  | 9 => "September"
  | 10 => "October"
  | 11 => "November"
  | 12 => "December"
  | _ => ""

/-- The letters after a number: 11 to 19 take `th`, and so do 10 and 20; the remainder is that of
the division that rounds down. -/
def ordinalSuffix (i : Int) : String :=
  let hundred := i.emod 100
  if 10 ≤ hundred ∧ hundred ≤ 20 then "th"
  else if i.emod 10 = 1 then "st"
  else if i.emod 10 = 2 then "nd"
  else if i.emod 10 = 3 then "rd"
  else "th"

def ordinal (i : Int) : String := String.ofList (signed i) ++ ordinalSuffix i

namespace Position

def text (p : Position) : String :=
  match p with
  | last => "last"
  | p => ordinal p.number

end Position

namespace Frequency

def unit : Frequency → String
  | daily => "day"
  | weekly => "week"
  | monthly => "month"
  | yearly => "year"

def units : Frequency → String
  | daily => "days"
  | weekly => "weeks"
  | monthly => "months"
  | yearly => "years"

end Frequency

/-- The numeral of a count. -/
def numeral (n : Nat) : String := String.ofList (decimal n)

/-- The days on which a pattern repeats, with those of the anchor where it names none. -/
def Pattern.phrase (anchor : Instant) : Pattern → String
  | .daily => ""
  | .weekly days =>
    let days := (days.map (·.days)).getD [anchor.weekday]
    " on " ++ String.intercalate ", " (days.map Weekday.name)
  | .monthly (some (.nth p w)) => " on the " ++ p.text ++ " " ++ w.name
  | .monthly (some (.day d)) => " on the " ++ ordinal d.1
  | .monthly none => " on the " ++ ordinal anchor.date.day
  | .yearly (some (.nth p w m)) => " on the " ++ p.text ++ " " ++ w.name ++ " of " ++ monthName m.1
  | .yearly (some (.date m d)) => " on " ++ monthName m.1 ++ " " ++ numeral d.1
  | .yearly none => " on " ++ monthName anchor.date.month ++ " " ++ numeral anchor.date.day

def Ending.phrase : Ending → String
  | .never => ""
  | .after n => ", " ++ numeral n.1 ++ (if n.1 = 1 then " time" else " times")
  | .on t =>
    let d := t.instant.date
    " until " ++ monthName d.month ++ " " ++ numeral d.day ++ ", " ++ numeral d.year

namespace Rule

/-- The rule in words. -/
def render (r : Rule) (anchor : Instant) : String :=
  let f := r.pattern.frequency
  let every := if r.interval.1 = 1 then "every " ++ f.unit
    else "every " ++ numeral r.interval.1 ++ " " ++ f.units
  every ++ r.pattern.phrase anchor ++ r.ending.phrase

end Rule

/-- What is said of a rule that cannot be put into words. -/
def fallbackText : String := "Repeats"

/-- The rule of a text in words. -/
def describe (rule : String) (anchor : Stamp) : String :=
  match Rule.decode? rule, anchor.utc with
  | some r, .ok t => r.render t
  | _, _ => fallbackText

end Recurrence
