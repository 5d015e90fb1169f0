import Recurrence.Form.Issue
import Recurrence.Text.Decimal
import Recurrence.Value.Basic

/-!
# Fields of a form

The checks that forms are made of.

* `Field.required`, `Field.optional`: a field by its name
* `Field.text`, `Field.texts`: texts
* `Field.int`, `Field.between`: integers, which may also be given as a text, as a floating-point
  number without a fraction, or as yes or no
-/

namespace Recurrence.Field

open Text

/-- The field `name` of a form, which has to be there. -/
def required {α : Type} (v : Value) (name : String) (check : Value → Check α) : Check α :=
  Check.at name (match v.field? name with
    | some x => check x
    | none => .fault .missing)

/-- The field `name` of a form, or `default` where it is left out. -/
def optional {α : Type} (v : Value) (name : String) (default : α) (check : Value → Check α) :
    Check α :=
  match v.field? name with
  | some x => Check.at name (check x)
  | none => .ok default

/-! ## Texts -/

def text : Value → Check String
  | .text s => .ok s
  | _ => .fault .notText

/-- A text or nothing. -/
def textOrNull : Value → Check (Option String)
  | .null => .ok none
  | v => (text v).map some

def texts : Value → Check (List String)
  | .list items => Check.all text 0 items
  | .tuple items => Check.all text 0 items
  | .set items => Check.all text 0 items
  | _ => .fault .notList

/-! ## Integers -/

/-- The text without a point that only zeros follow. -/
def withoutZeroFraction (s : List Char) : List Char :=
  match s.reverse.dropWhile (· == '0') with
  | '.' :: front => front.reverse
  | _ => s

/-- An integer as a text: digits of ASCII with single underscores between them, a sign in front of
them, white space around them. -/
def intText (s : List Char) : Check Int :=
  let (negative, r) := takeSign (stripNumeral s)
  let body := withoutZeroFraction r
  match digitRun? body with
  | some ds =>
    if !body.all fun c => isAsciiDigit c || c == '_' then .fault .integerText
    else if maxDigits < ds.length then .fault .integerTextTooLong
    else .ok (withSign negative (ofDigits ds))
  | none => .fault .integerText

/-- An integer.  A floating-point number has to be one without a fraction and of 64 bits. -/
def int : Value → Check Int
  | .int i => .ok i
  | .bool b => .ok (if b then 1 else 0)
  | .float x =>
    match x with
    | .finite _ m e =>
      let s := Binary64.scale m e
      if s.1 % s.2 ≠ 0 then .fault .fractionalInteger
      else
        match x.truncate? with
        | some i => if i.natAbs < twoTo 63 then .ok i else .fault .integerTextTooLong
        | none => .fault .infiniteInteger
    | _ => .fault .infiniteInteger
  | .text s => intText s.toList
  | _ => .fault .notInteger

/-- An integer of at least `lo` and, if given, at most `hi`. -/
def between (lo : Int) (hi : Option Int) (v : Value) : Check Int :=
  match int v with
  | .error e => .error e
  | .ok i =>
    if i < lo then .fault .tooSmall
    else if hi.any (· < i) then .fault .tooLarge
    else .ok i

end Recurrence.Field
