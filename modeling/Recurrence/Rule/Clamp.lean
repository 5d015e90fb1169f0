import Recurrence.Rule.Writer

/-!
# Clamping rule texts

Two changes of the ending are made on the text itself, so that unknown tokens, their order and the
prefix stay as they are.

* `TokenList.clampAt`: stop at a last second; a count is dropped
* `TokenList.recount`: another count
* `clampUntil`, `withCount`: the same on whole texts
-/

namespace Recurrence

open Text

namespace TokenList

/-- The tokens with the first last-second token set to `value`; further ones and all counts are
dropped.  `written` says that the value already stands. -/
def clampTokens (value : List Char) : (written : Bool) → List Token → List Token
  | false, [] => [Key.untilTime.token value]
  | true, [] => []
  | written, t :: ts =>
    if t.name = Key.count.chars then clampTokens value written ts
    else if t.name = Key.untilTime.chars then
      if written then clampTokens value written ts
      else ⟨t.key, some value⟩ :: clampTokens value true ts
    else t :: clampTokens value written ts

def clampAt (l : TokenList) (t : Instant) : TokenList :=
  ⟨l.lead, clampTokens t.compactChars false l.tokens⟩

/-- Whether some token has the key of the frequency. -/
def hasFrequency (l : TokenList) : Bool := l.tokens.any fun t => t.name == Key.freq.chars

/-- The tokens with every count set to `n`. -/
def recount (l : TokenList) (n : Nat) : TokenList :=
  ⟨l.lead, l.tokens.map fun t =>
    if t.name = Key.count.chars then ⟨t.key, some (decimal n)⟩ else t⟩

end TokenList

/-- The last second that lies wholly before a cutoff on a whole second: the instant one second
before it. -/
def secondBefore (cutoff : Instant) : Except TimeError Instant :=
  match cutoff.shift? (-1000000) with
  | some t => .ok t
  | none => .error .outOfRange

/-- The rule text changed so that nothing starts at the cutoff or later.  A text without a
frequency is left alone. -/
def clampUntil (rule : String) (cutoff : Stamp) : Except TimeError String :=
  let l := TokenList.ofText rule.toList
  if l.hasFrequency then do
    let last ← secondBefore (← cutoff.utc)
    pure (String.ofList (l.clampAt last).toText)
  else .ok rule

/-- The rule text with another count. -/
def withCount (rule : String) (n : Nat) : String :=
  String.ofList ((TokenList.ofText rule.toList).recount n).toText

end Recurrence
