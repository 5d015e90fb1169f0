import Recurrence.Numeric.Number

/-!
# A bounded store whose entries expire

An entry lives for a fixed time from when it was put in.  When the store is full, the entry whose
last use lies furthest back makes room.  Looking an entry up counts as a use and does not prolong
its life.  Every operation is told what the clock shows.

* `Timed`: the store; its entries stand in the order in which they were put in
* `Timed.get?`, `Timed.put`: looking up and putting in
* `Timed.expire`: drops the entries at the front that have expired
* `Timed.clear`: drops all entries

Only entries that make room for another one are counted as evictions.
-/

namespace Recurrence

/-- A value with the time from which it no longer counts, and the number of its last use. -/
structure Entry (κ ν : Type) where
  key : κ
  value : ν
  expires : Number
  used : Nat

/-- A store of at most `capacity` entries, each of which lives for `ttl`.  `uses` is the number of
the next use. -/
structure Timed (κ ν : Type) where
  capacity : Nat
  ttl : Number
  entries : List (Entry κ ν)
  uses : Nat
  evictions : Nat

/-- Why a value cannot be put in. -/
inductive PutError where
  /-- the store has no room for a single entry -/
  | noRoom
  /-- the time at which the entry would expire cannot be formed -/
  | noExpiry
deriving DecidableEq

namespace Entry

variable {κ ν : Type}

/-- An entry lives as long as the clock shows less than the time at which it expires. -/
def isLive (now : Number) (e : Entry κ ν) : Bool := now.lt e.expires

end Entry

namespace Timed

variable {κ ν : Type} [DecidableEq κ]

def empty (capacity : Nat) (ttl : Number) : Timed κ ν := ⟨capacity, ttl, [], 0, 0⟩

def size (c : Timed κ ν) : Nat := c.entries.length

/-- The entry under a key, live or not. -/
def find? (c : Timed κ ν) (k : κ) : Option (Entry κ ν) := c.entries.find? (·.key = k)

/-- The store after a use of the entry under a key. -/
def touch (c : Timed κ ν) (k : κ) : Timed κ ν :=
  { c with
    entries := c.entries.map fun e => if e.key = k then { e with used := c.uses } else e
    uses := c.uses + 1 }

/-- The value under a key, if it is live, and the store after its use. -/
def get? (c : Timed κ ν) (now : Number) (k : κ) : Option (ν × Timed κ ν) :=
  match c.find? k with
  | some e => if e.isLive now then some (e.value, c.touch k) else none
  | none => none

/-- The store without the entries at its front that have expired. -/
def expire (c : Timed κ ν) (now : Number) : Timed κ ν :=
  { c with entries := c.entries.dropWhile (!·.isLive now) }

/-- The entry whose last use lies furthest back. -/
def leastUsed : List (Entry κ ν) → Option (Entry κ ν)
  | [] => none
  | e :: rest =>
    match leastUsed rest with
    | some f => if f.used < e.used then some f else some e
    | none => some e

/-- The store without the entry whose last use lies furthest back. -/
def evict (c : Timed κ ν) : Timed κ ν :=
  match leastUsed c.entries with
  | some e =>
    { c with
      entries := c.entries.filter (·.key ≠ e.key)
      evictions := c.evictions + 1 }
  | none => c

/-- The store with a new last entry. -/
def append (c : Timed κ ν) (k : κ) (v : ν) (expires : Number) : Timed κ ν :=
  { c with
    entries := c.entries.filter (·.key ≠ k) ++ [⟨k, v, expires, c.uses⟩]
    uses := c.uses + 1 }

/-- Puts a value in, after expired entries are dropped. -/
def put (c : Timed κ ν) (now : Number) (k : κ) (v : ν) : Except PutError (Timed κ ν) :=
  let c := c.expire now
  if c.capacity = 0 then .error .noRoom
  else
    match now.add? c.ttl with
    | none => .error .noExpiry
    | some expires =>
      if (c.find? k).isNone && decide (c.capacity ≤ c.size) then .ok (c.evict.append k v expires)
      else .ok (c.append k v expires)

def clear (c : Timed κ ν) : Timed κ ν := { c with entries := [] }

end Timed

end Recurrence
