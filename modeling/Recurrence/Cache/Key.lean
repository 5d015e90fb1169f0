import Recurrence.Expansion.Series
import Recurrence.Numeric.Binary64

/-!
# The key of an expansion

The key of an expansion holds its series' name, rule and duration, the two bounds of the window and
all cancelled starts.

* `CacheKey`
* `CacheKey.of`: the key of an expansion between two stamps
* `sortedTexts`: the texts of a set of instants, each once, in their order
-/

namespace Recurrence

/-- What an expansion depends on; `duration` is in seconds. -/
structure CacheKey where
  id : String
  lower : String
  upper : String
  rule : String
  duration : Binary64
  exceptions : List String
deriving DecidableEq

/-- A text in an ordered list without repetitions. -/
def insertText (s : String) : List String → List String
  | [] => [s]
  | t :: rest => if s = t then t :: rest else if s < t then s :: t :: rest else t :: insertText s rest

/-- The texts of instants, each once, in the order of their characters. -/
def sortedTexts (l : List Instant) : List String :=
  l.foldl (fun acc t => insertText t.toIso acc) []

/-- The duration of a series in seconds. -/
def Series.seconds (s : Series) : Binary64 := Binary64.ofRatio false s.duration microsPerSecond

/-- The key of the expansion of a series between two stamps, with further cancelled starts. -/
def CacheKey.of (s : Series) (lower upper : Stamp) (extra : List Instant) : CacheKey where
  id := s.id
  lower := lower.toIso
  upper := upper.toIso
  rule := s.rule
  duration := s.seconds
  exceptions := sortedTexts (s.exceptions ++ extra)

end Recurrence
