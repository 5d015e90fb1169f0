import Recurrence.Rule.Basic
import Recurrence.Rule.Token
import Recurrence.Timestamp.Compact

/-!
# Writing rules

A rule has one canonical text.  Its tokens come in a fixed order: frequency, interval, the tokens of
the mode, and at most one of count and until.

* `Key`: the keys that have a meaning
* `Rule.toTokens`: the tokens of a rule
* `Rule.encode`: its text
-/

namespace Recurrence

open Text

/-- The keys that have a meaning. -/
inductive Key where
  | freq | interval | byDay | byMonthDay | byMonth | bySetPos | count | untilTime
deriving DecidableEq, Repr

def Key.name : Key → String
  | freq => "FREQ"
  | interval => "INTERVAL"
  | byDay => "BYDAY"
  | byMonthDay => "BYMONTHDAY"
  | byMonth => "BYMONTH"
  | bySetPos => "BYSETPOS"
  | count => "COUNT"
  | untilTime => "UNTIL"

namespace Key

def chars (k : Key) : List Char := k.name.toList

def token (k : Key) (value : List Char) : Token := ⟨k.chars, some value⟩

end Key

namespace Mode

/-- The tokens that say which days are chosen. -/
def toTokens : Mode → List Token
  | weeklyDays days => [Key.byDay.token (joinWith ',' (days.days.map (·.code.toList)))]
  | monthlyDay d => [Key.byMonthDay.token (decimal d.1)]
  | monthlyNth p w => [Key.byDay.token w.code.toList, Key.bySetPos.token (signed p.number)]
  | yearlyDate m d => [Key.byMonth.token (decimal m.1), Key.byMonthDay.token (decimal d.1)]
  | yearlyNth p w m =>
    [Key.byMonth.token (decimal m.1), Key.byDay.token w.code.toList,
      Key.bySetPos.token (signed p.number)]

end Mode

namespace Ending

def toTokens : Ending → List Token
  | never => []
  | after n => [Key.count.token (decimal n.1)]
  | on t => [Key.untilTime.token t.instant.compactChars]

end Ending

namespace Rule

/-- The canonical tokens of a rule. -/
def toTokens (r : Rule) : List Token :=
  Key.freq.token r.pattern.frequency.name.toList :: Key.interval.token (decimal r.interval.1) ::
    ((r.pattern.mode.map Mode.toTokens).getD [] ++ r.ending.toTokens)

def encodeChars (r : Rule) : List Char := TokenList.toText ⟨rulePrefix, r.toTokens⟩

/-- The canonical text of a rule. -/
def encode (r : Rule) : String := String.ofList r.encodeChars

end Rule

end Recurrence
