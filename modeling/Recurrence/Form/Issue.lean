import Recurrence.Calendar.Instant

/-!
# What is wrong with a form

A form is checked field by field.  Each fault is an `Issue` with the path of the field; the issues of
all fields are reported together, in the order of the fields.  A time outside the calendar is no
issue of a field: it ends the check.

* `Fault`, `Issue`, `FormError`
* `FormError.message`
* `Check`: the outcome of a check
* `Check.map₂`, `Check.at`, `Check.all`: two fields, the path of a field, the items of a list
-/

namespace Recurrence

/-- What can be wrong with a field. -/
inductive Fault where
  | missing
  | unknownMember
  | notInteger
  | integerText
  | integerTextTooLong
  | fractionalInteger
  | infiniteInteger
  | tooSmall
  | tooLarge
  | notAllowed
  | notForm
  | notTagged
  | tagMissing
  | tagUnknown
  | notSet
  | tooFewItems
  | notText
  | notList
  | notTime
  | timeNumber
  | timeText
  /-- the fields are right one by one and do not fit together -/
  | mismatch (text : String)
deriving DecidableEq

/-- The name under which a fault is reported. -/
def Fault.name : Fault → String
  | missing => "missing"
  | unknownMember => "enum"
  | notInteger => "int_type"
  | integerText => "int_parsing"
  | integerTextTooLong => "int_parsing_size"
  | fractionalInteger => "int_from_float"
  | infiniteInteger => "finite_number"
  | tooSmall => "greater_than_equal"
  | tooLarge => "less_than_equal"
  | notAllowed => "literal_error"
  | notForm => "model_type"
  | notTagged => "model_attributes_type"
  | tagMissing => "union_tag_not_found"
  | tagUnknown => "union_tag_invalid"
  | notSet => "frozen_set_type"
  | tooFewItems => "too_short"
  | notText => "string_type"
  | notList => "list_type"
  | notTime => "datetime_type"
  | timeNumber => "datetime_parsing"
  | timeText => "datetime_from_date_parsing"
  | mismatch text => "value_error(Value error, " ++ text ++ ")"

/-- A fault and the path of the field that has it. -/
structure Issue where
  path : List String
  fault : Fault
deriving DecidableEq

def Issue.message (i : Issue) : String :=
  String.intercalate "." i.path ++ ":" ++ i.fault.name

/-- Why a form is refused. -/
inductive FormError where
  | issues (l : List Issue)
  | time (e : TimeError)
deriving DecidableEq

def FormError.message : FormError → String
  | issues l => String.intercalate "; " (l.map Issue.message)
  | time _ => ""

/-- The outcome of a check. -/
abbrev Check (α : Type) := Except FormError α

namespace Check

def fault {α : Type} (f : Fault) : Check α := .error (.issues [⟨[], f⟩])

/-- The issues under a step of the path. -/
def «at» {α : Type} (step : String) : Check α → Check α
  | .error (.issues l) => .error (.issues (l.map fun i => ⟨step :: i.path, i.fault⟩))
  | c => c

/-- Two fields together.  A time outside the calendar goes before all issues. -/
def map₂ {α β γ : Type} (f : α → β → γ) : Check α → Check β → Check γ
  | .ok a, .ok b => .ok (f a b)
  | .error (.time e), _ => .error (.time e)
  | _, .error (.time e) => .error (.time e)
  | .error (.issues l), .error (.issues m) => .error (.issues (l ++ m))
  | .error e, .ok _ => .error e
  | .ok _, .error e => .error e

/-- One field after others. -/
def and {α β : Type} (f : Check (α → β)) (a : Check α) : Check β := map₂ (fun f a => f a) f a

/-- The items of a list, numbered from `n`. -/
def all {α β : Type} (check : α → Check β) (n : Nat) : List α → Check (List β)
  | [] => .ok []
  | a :: as => map₂ (· :: ·) (Check.at (toString n) (check a)) (all check (n + 1) as)

end Check

end Recurrence
