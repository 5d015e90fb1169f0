import Recurrence.Rule.Writer
import Recurrence.Text.Quoted

/-!
# Reading rules

A rule text is read token by token.  What is wrong with a token is a `Complaint`; the token is then
taken as absent.  Reading tolerantly ignores the complaints, reading strictly fails with the first
of them.  Both fail on a text without a known frequency.

* `Complaint`, `RuleError`: what can be wrong, and `RuleError.message`
* `Reading`: a value with the complaints that arose on the way to it
* `Rule.read`: the rule of a text with all complaints
* `Rule.decode?`, `Rule.parse`: the tolerant and the strict reader
-/

namespace Recurrence

open Text

/-- What is wrong with a token. -/
inductive Complaint where
  /-- the value of a number key is no number -/
  | malformed (key : Key) (raw : List Char)
  /-- the number is too small or too large -/
  | outOfRange (key : Key) (value : Int)
  /-- the number of a position is none of -1, 1, 2, 3 and 4 -/
  | unsupportedPosition (value : Int)
  /-- an item of a list of weekdays is no weekday -/
  | unknownWeekday (item : List Char)
  /-- the last second is no compact time stamp -/
  | malformedUntil (raw : List Char)
deriving DecidableEq

namespace Complaint

def message : Complaint → String
  | malformed key raw => "malformed " ++ key.name ++ "=" ++ String.ofList (quoted raw)
  | outOfRange key value => "out of range " ++ key.name ++ "=" ++ String.ofList (signed value)
  | unsupportedPosition value => "unsupported BYSETPOS=" ++ String.ofList (signed value)
  | unknownWeekday item => "unknown weekday " ++ String.ofList (quoted item)
  | malformedUntil raw => "malformed UNTIL=" ++ String.ofList (quoted raw)

end Complaint

/-- Why a rule text is refused. -/
inductive RuleError where
  /-- what is stored is not a text; `kind` says what it is -/
  | notText (kind : String)
  | missingFrequency (rule : String)
  | unknownFrequency (raw : List Char) (rule : String)
  | complaint (c : Complaint) (rule : String)
deriving DecidableEq

namespace RuleError

def message : RuleError → String
  | notText kind => "Rule must be a string, got " ++ kind
  | missingFrequency rule => "Rule missing required FREQ: " ++ quotedString rule
  | unknownFrequency raw rule =>
    "Unsupported FREQ=" ++ String.ofList (quoted raw) ++ " in rule " ++ quotedString rule
  | complaint c rule => c.message ++ " in rule " ++ quotedString rule

end RuleError

/-- A value and the complaints that arose on the way to it, in their order. -/
structure Reading (α : Type) where
  value : α
  complaints : List Complaint

namespace Reading

def pure {α : Type} (a : α) : Reading α := ⟨a, []⟩

/-- A value that stands in for a faulty one. -/
def complain {α : Type} (a : α) (c : Complaint) : Reading α := ⟨a, [c]⟩

/-- Goes on reading with what has been read. -/
def andThen {α β : Type} (x : Reading α) (f : α → Reading β) : Reading β :=
  let y := f x.value
  ⟨y.value, x.complaints ++ y.complaints⟩

def map {α β : Type} (f : α → β) (x : Reading α) : Reading β := ⟨f x.value, x.complaints⟩

end Reading

namespace TokenList

/-- The value that counts for a key. -/
def get? (l : TokenList) (key : Key) : Option (List Char) := l.value? key.chars

/-! ## Numbers -/

/-- The number of a key, if it has one and it lies between the bounds given. -/
def readNumber (l : TokenList) (key : Key) (least most : Option Int) : Reading (Option Int) :=
  match l.get? key with
  | none => .pure none
  | some raw =>
    match readInt? raw with
    | none => .complain none (.malformed key raw)
    | some i =>
      if (least.any fun lo => decide (i < lo)) || (most.any fun hi => decide (hi < i)) then
        .complain none (.outOfRange key i)
      else .pure (some i)

def positive? (i : Int) : Option Positive :=
  if h : 0 < i.toNat then some ⟨i.toNat, h⟩ else none

def readPositive (l : TokenList) (key : Key) : Reading (Option Positive) :=
  (l.readNumber key (some 1) none).map fun i => i.bind positive?

def upTo? (most : Nat) (i : Int) : Option { n : Nat // 1 ≤ n ∧ n ≤ most } :=
  if h : 1 ≤ i.toNat ∧ i.toNat ≤ most then some ⟨i.toNat, h⟩ else none

/-- The number of a key that counts from 1 up to a bound. -/
def readUpTo (l : TokenList) (key : Key) (most : Nat) :
    Reading (Option { n : Nat // 1 ≤ n ∧ n ≤ most }) :=
  (l.readNumber key (some 1) (some most)).map fun i => i.bind (upTo? most)

def readMonthDay (l : TokenList) : Reading (Option MonthDay) := l.readUpTo .byMonthDay 31

def readMonth (l : TokenList) : Reading (Option Month) := l.readUpTo .byMonth 12

def readPosition (l : TokenList) : Reading (Option Position) :=
  (l.readNumber .bySetPos none none).andThen fun i =>
    match i with
    | none => .pure none
    | some i =>
      match Position.ofNumber? i with
      | some p => .pure (some p)
      | none => .complain none (.unsupportedPosition i)

/-! ## Weekdays -/

/-- A number of one or two digits, with or without a sign. -/
def ordinal? (s : List Char) : Option Int :=
  let digits (ds : List Char) : Option Nat :=
    match ds.map digitValue? with
    | [some a] => some a
    | [some a, some b] => some (10 * a + b)
    | _ => none
  match s with
  | '+' :: ds => (digits ds).map Int.ofNat
  | '-' :: ds => (digits ds).map fun n => -Int.ofNat n
  | ds => (digits ds).map Int.ofNat

/-- A weekday, with or without a number in front of it. -/
structure DayItem where
  ordinal : Option Int
  weekday : Weekday

/-- An item of a list of weekdays: a two-letter code behind an optional number. -/
def dayItem? (item : List Char) : Option DayItem :=
  let t := upper (strip item)
  let n := t.length - 2
  match Weekday.ofCode? (String.ofList (t.drop n)) with
  | none => none
  | some w =>
    if n = 0 then some ⟨none, w⟩
    else (ordinal? (t.take n)).map fun i => ⟨some i, w⟩

def readItems : List (List Char) → Reading (List DayItem)
  | [] => .pure []
  | item :: rest =>
    match dayItem? item with
    | some d => (readItems rest).map (d :: ·)
    | none =>
      let r := readItems rest
      ⟨r.value, .unknownWeekday item :: r.complaints⟩

/-- The weekdays of a rule, those of an empty value being none. -/
def readDays (l : TokenList) : Reading (List DayItem) :=
  match l.get? .byDay with
  | none | some [] => .pure []
  | some raw => readItems (splitOn ',' raw)

/-- The position and the weekday of a rule.  The position has a key of its own, and stands in front
of the first weekday where that key gives none. -/
def readNth (l : TokenList) : Reading (Option (Position × Weekday)) :=
  l.readDays.andThen fun days =>
    match days with
    | [] => .pure none
    | d :: _ =>
      l.readPosition.map fun p =>
        match p with
        | some p => some (p, d.weekday)
        | none => (d.ordinal.bind Position.ofNumber?).map (·, d.weekday)

/-! ## Patterns and endings -/

def readPattern (l : TokenList) : Frequency → Reading Pattern
  | .daily => .pure .daily
  | .weekly => l.readDays.map fun days => .weekly (DaySet.ofList? (days.map (·.weekday)))
  | .monthly =>
    l.readMonthDay.andThen fun d =>
      match d with
      | some d => .pure (.monthly (some (.day d)))
      | none => l.readNth.map fun nth => .monthly (nth.map fun n => .nth n.1 n.2)
  | .yearly =>
    l.readMonth.andThen fun m =>
      match m with
      | none => .pure (.yearly none)
      | some m =>
        l.readMonthDay.andThen fun d =>
          match d with
          | some d => .pure (.yearly (some (.date m d)))
          | none => l.readNth.map fun nth => .yearly (nth.map fun n => .nth n.1 n.2 m)

/-- The ending of a rule; a count goes before a last second. -/
def readEnding (l : TokenList) : Reading Ending :=
  (l.readPositive .count).andThen fun n =>
    match n with
    | some n => .pure (.after n)
    | none =>
      match l.get? .untilTime with
      | none | some [] => .pure .never
      | some raw =>
        match Compact.read? raw with
        | some t => .pure (.on t)
        | none => .complain .never (.malformedUntil raw)

def readRule (l : TokenList) (f : Frequency) : Reading Rule :=
  (l.readPositive .interval).andThen fun interval =>
    (l.readPattern f).andThen fun pattern =>
      l.readEnding.map fun ending => ⟨pattern, interval.getD Positive.one, ending⟩

end TokenList

namespace Rule

/-- The rule of a text, with all that is wrong with its tokens. -/
def read (s : String) : Except RuleError (Reading Rule) :=
  let l := TokenList.ofText s.toList
  match l.get? .freq with
  | none | some [] => .error (.missingFrequency s)
  | some raw =>
    match Frequency.ofName? (String.ofList (upper raw)) with
    | none => .error (.unknownFrequency raw s)
    | some f => .ok (l.readRule f)

/-- The rule of a text; faulty tokens are taken as absent. -/
def decode? (s : String) : Option Rule :=
  match read s with
  | .ok r => some r.value
  | .error _ => none

/-- The rule of a text without faulty tokens. -/
def parse (s : String) : Except RuleError Rule :=
  match read s with
  | .error e => .error e
  | .ok ⟨r, []⟩ => .ok r
  | .ok ⟨_, c :: _⟩ => .error (.complaint c s)

end Rule

end Recurrence
