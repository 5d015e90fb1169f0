import Recurrence.Text.Digit
import Recurrence.Text.Split

/-!
# Tags

Every node of a document has a tag that says what kind of value it stands for.  A plain scalar that
is not tagged gets its tag from its spelling.

* `Tag`, `Tag.ofName`
* `isInteger`, `isFloating`: the spellings of numbers
* `readTime?`: the spelling of a day or a time
* `Tag.ofPlain`: the tag of a plain scalar
-/

namespace Recurrence.Yaml

open Text

/-- A kind of value.  `defaultValue` is the sign `=`, and `unknown` is any tag without a meaning. -/
inductive Tag where
  | null
  | bool
  | int
  | float
  | binary
  | time
  | text
  | list
  | map
  | set
  | pairs
  | merge
  | defaultValue
  | unknown
deriving DecidableEq, Repr

/-- The front of the names of the known tags. -/
def commonLead : List Char := "tag:yaml.org,2002:".toList

def knownTags : List (String × Tag) :=
  [("null", .null), ("bool", .bool), ("int", .int), ("float", .float), ("binary", .binary),
    ("timestamp", .time), ("str", .text), ("seq", .list), ("map", .map), ("set", .set),
    ("omap", .pairs), ("pairs", .pairs), ("merge", .merge), ("value", .defaultValue)]

/-- The tag with a full name. -/
def Tag.ofName (name : List Char) : Tag :=
  ((knownTags.find? fun t => commonLead ++ t.1.toList == name).map (·.2)).getD .unknown

/-! ## Words -/

/-- A word in small letters, with a capital, or in capitals. -/
def spellings (word : String) : List (List Char) :=
  let s := word.toList
  [s, (s.head?.map Char.toUpper).toList ++ s.tail, s.map Char.toUpper]

def isSpelling (words : List String) (s : List Char) : Bool :=
  words.any fun w => (spellings w).contains s

/-- The word is a truth value. -/
def isTruth (s : List Char) : Bool := isSpelling ["yes", "no", "true", "false", "on", "off"] s

def isNull (s : List Char) : Bool := s == ['~'] || isSpelling ["null"] s

/-! ## Numbers -/

/-- The text without a sign in front of it. -/
def unsigned : List Char → List Char
  | '+' :: s => s
  | '-' :: s => s
  | s => s

def isDigitOr_ (c : Char) : Bool := isAsciiDigit c || c == '_'

/-- A digit with digits and underscores behind it. -/
def isDigits : List Char → Bool
  | [] => false
  | c :: s => isAsciiDigit c && s.all isDigitOr_

def startsWithNonzero : List Char → Bool
  | c :: _ => c != '0'
  | [] => false

/-- A part of a number in base sixty, behind a colon. -/
def isSixtieth : List Char → Bool
  | [a] => isAsciiDigit a
  | [a, b] => isAsciiDigit a && isAsciiDigit b && decide (a.toNat < '6'.toNat)
  | _ => false

/-- At least two parts between colons, of which the first passes a test. -/
def isSexagesimal (first : List Char → Bool) (s : List Char) : Bool :=
  match splitOn ':' s with
  | p :: q :: ps => first p && (q :: ps).all isSixtieth
  | _ => false

/-- The spelling of an integer: binary, octal, decimal, hexadecimal or in base sixty. -/
def isInteger (s : List Char) : Bool :=
  let u := unsigned s
  (match u with
    | ['0'] => true
    | '0' :: 'b' :: r => r ≠ [] && r.all fun c => c == '0' || c == '1' || c == '_'
    | '0' :: 'x' :: r => r ≠ [] && r.all fun c => (hexDigit? c).isSome || c == '_'
    | '0' :: r => r ≠ [] && r.all fun c => ('0' ≤ c && c ≤ '7') || c == '_'
    | _ => isDigits u) ||
  isSexagesimal (fun p => isDigits p && startsWithNonzero p) u

/-- Nothing, or an exponent with its sign. -/
def isExponent : List Char → Bool
  | [] => true
  | e :: sign :: r =>
    (e == 'e' || e == 'E') && (sign == '+' || sign == '-') && r ≠ [] && r.all isAsciiDigit
  | _ => false

/-- Digits and underscores, and perhaps an exponent. -/
def isFraction (s : List Char) : Bool := isExponent (s.dropWhile isDigitOr_)

/-- The spelling of a floating-point number: with a point, in base sixty with a point at the end, or
a word for what is no finite number. -/
def isFloating (s : List Char) : Bool :=
  let u := unsigned s
  (match cutAt '.' u with
    | (whole, some fraction) =>
      (isDigits whole && isFraction fraction) ||
        (isSexagesimal isDigits whole && fraction.all isDigitOr_)
    | (_, none) => false) ||
  (match s with
    | '.' :: r => (isDigits (r.takeWhile isDigitOr_) && isFraction r) ||
      ["nan", "NaN", "NAN"].any (·.toList == r)
    | _ => false) ||
  (match u with
    | '.' :: r => ["inf", "Inf", "INF"].any (·.toList == r)
    | _ => false)

/-! ## Times -/

/-- A time of day, and how far its clock is ahead of universal time, all in digits. -/
structure ClockText where
  hour : List Char
  minute : List Char
  second : List Char
  fraction : List Char
  /-- sign, hours and minutes of the distance from universal time; both are empty for `Z` -/
  zone : Option (Bool × List Char × List Char)

/-- A day, and perhaps a time of day, all in digits. -/
structure TimeText where
  year : List Char
  month : List Char
  day : List Char
  clock : Option ClockText

/-- One or two digits, and what follows. -/
def twoDigits? : List Char → Option (List Char × List Char)
  | a :: b :: r =>
    if isAsciiDigit a then if isAsciiDigit b then some ([a, b], r) else some ([a], b :: r) else none
  | [a] => if isAsciiDigit a then some ([a], []) else none
  | [] => none

/-- A distance from universal time, up to the end. -/
def readZone? : List Char → Option (Option (Bool × List Char × List Char))
  | [] => some none
  | s =>
    match s.dropWhile fun c => c == ' ' || c == '\t' with
    | ['Z'] => some (some (false, [], []))
    | sign :: r =>
      if sign = '+' ∨ sign = '-' then
        match twoDigits? r with
        | some (h, []) => some (some (sign == '-', h, []))
        | some (h, [':', a, b]) =>
          if isAsciiDigit a && isAsciiDigit b then some (some (sign == '-', h, [a, b])) else none
        | _ => none
      else none
    | [] => none

/-- A time of day, up to the end. -/
def readClock? (s : List Char) : Option ClockText :=
  match twoDigits? s with
  | some (hour, ':' :: a :: b :: ':' :: c :: d :: r) =>
    if [a, b, c, d].all isAsciiDigit then
      let (fraction, r) := match r with
        | '.' :: r => (r.takeWhile isAsciiDigit, r.dropWhile isAsciiDigit)
        | r => ([], r)
      (readZone? r).map fun zone => ⟨hour, [a, b], [c, d], fraction, zone⟩
    else none
  | _ => none

/-- What stands between a day and a time of day: a letter or blanks. -/
def dropJoint? : List Char → Option (List Char)
  | c :: r =>
    if c = 'T' ∨ c = 't' then some r
    else if c = ' ' ∨ c = '\t' then some (r.dropWhile fun c => c == ' ' || c == '\t')
    else none
  | [] => none

/-- The spelling of a day or of a time: four digits of the year, and one or two of every other part
but minutes and seconds. -/
def readTime? (s : List Char) : Option TimeText :=
  match s with
  | a :: b :: c :: d :: '-' :: r =>
    if [a, b, c, d].all isAsciiDigit then
      match twoDigits? r with
      | some (month, '-' :: r) =>
        match twoDigits? r with
        | some (day, []) => some ⟨[a, b, c, d], month, day, none⟩
        | some (day, r) =>
          ((dropJoint? r).bind readClock?).map fun t => ⟨[a, b, c, d], month, day, some t⟩
        | none => none
      | _ => none
    else none
  | _ => none

/-- The spelling of a time.  A day alone has two digits for month and day. -/
def isTime (s : List Char) : Bool :=
  match readTime? s with
  | some t => t.clock.isSome || s.length == 10
  | none => false

/-! ## Plain scalars -/

/-- The text without a line feed at its end. -/
def beforeFinalBreak (s : List Char) : List Char :=
  if s.getLast? = some '\n' then s.dropLast else s

/-- The tag of a plain scalar; what no other tag fits is a text. -/
def Tag.ofPlain (s : List Char) : Tag :=
  if s = [] then .null
  else
    let s := beforeFinalBreak s
    if isTruth s then .bool
    else if isFloating s then .float
    else if isInteger s then .int
    else if s = ['<', '<'] then .merge
    else if isNull s then .null
    else if isTime s then .time
    else if s = ['='] then .defaultValue
    else if s = ['!'] ∨ s = ['&'] ∨ s = ['*'] then .unknown
    else .text

example : Tag.ofPlain "1:30".toList = .int := by decide

example : Tag.ofPlain "1e3".toList = .text := by decide

example : Tag.ofPlain "-.5".toList = .text := by decide

end Recurrence.Yaml
