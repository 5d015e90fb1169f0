import Recurrence.Calendar.Instant
import Recurrence.Numeric.Shortest

/-!
# Values of documents

What a form, a stored rule or a configuration file may hold: the values of common document formats,
with calendar days and time stamps among them.

* `Value`
* `Value.same`: equality, by which keys are told apart; numbers are equal if their values are
* `Value.field?`: the entry of a map under a text key
* `Value.kind`: the name of the kind of value, as messages have it
-/

namespace Recurrence

/-- A value of a document.  `enclosing` stands for a list or, if `curly`, a map that the value
itself is a part of. -/
inductive Value where
  | null
  | bool (b : Bool)
  | int (i : Int)
  | float (x : Binary64)
  | text (s : String)
  | bytes (bs : List UInt8)
  | moment (m : Moment)
  | list (items : List Value)
  | tuple (items : List Value)
  | set (items : List Value)
  | map (entries : List (Value × Value))
  | enclosing (curly : Bool)

namespace Value

instance : Inhabited Value := ⟨null⟩

/-- The number that a value is; yes and no are one and zero. -/
def number? : Value → Option (Int ⊕ Binary64)
  | bool b => some (.inl (if b then 1 else 0))
  | int i => some (.inl i)
  | float x => some (.inr x)
  | _ => none

/-- An integer as a multiple of a power of two, without rounding. -/
def exactInt (i : Int) : Binary64 := .finite (i < 0) i.natAbs 0

def sameNumber : Int ⊕ Binary64 → Int ⊕ Binary64 → Bool
  | .inl a, .inl b => a == b
  | .inl a, .inr y => (exactInt a).compare? y == some .eq
  | .inr x, .inl b => x.compare? (exactInt b) == some .eq
  | .inr x, .inr y => x.compare? y == some .eq

/-- Whether two moments are the same day, or the same instant.  A stamp with an offset is never the
same as one without. -/
def sameMoment : Moment → Moment → Bool
  | .day a, .day b => a == b
  | .stamp a, .stamp b => a.offset.isSome == b.offset.isSome && a.utcMicros == b.utcMicros
  | _, _ => false

mutual

def same : Value → Value → Bool
  | null, null => true
  | text a, text b => a == b
  | bytes a, bytes b => a == b
  | moment a, moment b => sameMoment a b
  | list a, list b => sameAll a b
  | tuple a, tuple b => sameAll a b
  | a, b =>
    match a.number?, b.number? with
    | some x, some y => sameNumber x y
    | _, _ => false

def sameAll : List Value → List Value → Bool
  | [], [] => true
  | a :: as, b :: bs => same a b && sameAll as bs
  | _, _ => false

end

/-- The entry of a map under a text key, if the value is a map and has it. -/
def field? (v : Value) (key : String) : Option Value :=
  match v with
  | map entries =>
    (entries.find? fun e => match e.1 with
      | text s => s == key
      | _ => false).map (·.2)
  | _ => none

/-- The name of the kind of value. -/
def kind : Value → String
  | null => "NoneType"
  | bool _ => "bool"
  | int _ => "int"
  | float _ => "float"
  | text _ => "str"
  | bytes _ => "bytes"
  | moment (.day _) => "date"
  | moment (.stamp _) => "datetime"
  | list _ => "list"
  | tuple _ => "tuple"
  | set _ => "set"
  | map _ => "dict"
  | enclosing curly => if curly then "dict" else "list"

/-- Whether a value counts as yes: all but nothing, no, zero and what is empty. -/
def isTruthy : Value → Bool
  | null => false
  | bool b => b
  | int i => i != 0
  | float x => !x.isZero
  | text s => s != ""
  | bytes bs => !bs.isEmpty
  | moment _ => true
  | list items => !items.isEmpty
  | tuple items => !items.isEmpty
  | set items => !items.isEmpty
  | map entries => !entries.isEmpty
  | enclosing _ => true

end Value

end Recurrence
