import Recurrence.Text.Blank
import Recurrence.Text.Split
import Recurrence.Text.Uppercase

/-!
# The tokens of a rule text

A rule is stored as text, such as `RRULE:FREQ=WEEKLY;INTERVAL=2;BYDAY=MO,WE`: an optional prefix and
tokens with semicolons between them.  A token is a key, mostly with a value after an equals sign.
Here the text is taken apart and put together again with the spelling of every part kept.

* `Token`: a key with or without a value
* `TokenList`: the prefix and the tokens of a text
* `TokenList.ofText`, `TokenList.toText`: taking apart and putting together
* `Token.name`: the key without blanks and in upper case
* `TokenList.value?`: the value that counts for a key

A text that is taken apart and put together again loses the white space around it and the parts without
a key (`toText_ofText`).
-/

namespace Recurrence

open Text

/-- A key, and the text after its equals sign if it has one. -/
structure Token where
  key : List Char
  value : Option (List Char)
deriving DecidableEq

/-- The prefix of a rule text as it is spelled there, and the tokens in their order. -/
structure TokenList where
  lead : List Char
  tokens : List Token
deriving DecidableEq

/-- The prefix that a rule text may start with, in upper case. -/
def rulePrefix : List Char := "RRULE:".toList

namespace Token

/-- The key without white space around it, in upper case. -/
def nameOf (key : List Char) : List Char := upper (strip key)

def name (t : Token) : List Char := nameOf t.key

/-- A part of a rule text as a token, unless its key is blank. -/
def ofPart? (part : List Char) : Option Token :=
  let c := cutAt '=' part
  if strip c.1 = [] then none else some ⟨c.1, c.2⟩

def toPart (t : Token) : List Char :=
  match t.value with
  | none => t.key
  | some v => t.key ++ '=' :: v

theorem toPart_cutAt (s : List Char) : toPart ⟨(cutAt '=' s).1, (cutAt '=' s).2⟩ = s := by
  induction s with
  | nil => rfl
  | cons c r ih =>
    by_cases h : c = '='
    · subst h; rfl
    · simp only [cutAt, if_neg h]
      cases hv : (cutAt '=' r).2 with
      | none => simpa [toPart, hv] using ih
      | some v => simpa [toPart, hv] using ih

theorem toPart_of_ofPart? {s : List Char} {t : Token} (h : ofPart? s = some t) :
    t.toPart = s := by
  simp only [ofPart?] at h
  split at h
  · exact absurd h (by simp)
  · cases h
    exact toPart_cutAt s

end Token

namespace TokenList

/-- The prefix as it is spelled in a text, and the rest of the text. -/
def cutLead (s : List Char) : List Char × List Char :=
  if upper (s.take rulePrefix.length) = rulePrefix then
    (s.take rulePrefix.length, s.drop rulePrefix.length)
  else ([], s)

/-- Takes a rule text apart; white space around it and parts without a key are dropped. -/
def ofText (s : List Char) : TokenList :=
  let c := cutLead (strip s)
  ⟨c.1, (splitOn ';' c.2).filterMap Token.ofPart?⟩

/-- Puts a rule text together. -/
def toText (l : TokenList) : List Char :=
  l.lead ++ joinWith ';' (l.tokens.map Token.toPart)

/-- The value that counts for a key, given in upper case: that of the last token with this key and
a value, without the white space around it. -/
def value? (l : TokenList) (name : List Char) : Option (List Char) :=
  l.tokens.reverse.findSome? fun t => if t.name = name then t.value.map strip else none

theorem cutLead_append (s : List Char) : (cutLead s).1 ++ (cutLead s).2 = s := by
  unfold cutLead
  split
  · exact List.take_append_drop _ _
  · rfl

/-- The tokens of some parts, written out, are the parts that have a key. -/
theorem map_toPart_filterMap (ps : List (List Char)) :
    (ps.filterMap Token.ofPart?).map Token.toPart = ps.filter fun p => (Token.ofPart? p).isSome := by
  induction ps with
  | nil => rfl
  | cons p ps ih =>
    cases hp : Token.ofPart? p with
    | none => rw [List.filterMap_cons_none hp, ih, List.filter_cons_of_neg (by simp [hp])]
    | some t =>
      rw [List.filterMap_cons_some hp, List.map_cons, Token.toPart_of_ofPart? hp, ih,
        List.filter_cons_of_pos (by simp [hp])]

/-- What is left of a text that is taken apart and put together again. -/
theorem toText_ofText (s : List Char) :
    (ofText s).toText = (cutLead (strip s)).1 ++
      joinWith ';' ((splitOn ';' (cutLead (strip s)).2).filter fun p => (Token.ofPart? p).isSome) := by
  rw [ofText, toText, map_toPart_filterMap]

end TokenList

end Recurrence
