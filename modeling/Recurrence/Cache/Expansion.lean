import Recurrence.Cache.Key
import Recurrence.Cache.Timed
import Recurrence.Config.Basic

/-!
# Remembered expansions

Expanding a series gives the same occurrences for the same key, so they are remembered in a bounded
store.  The statistics count the lookups that found something and those that did not.

* `ExpansionCache`, `ExpansionCache.create`, `ExpansionCache.ofConfig`
* `ExpansionCache.expand`: the occurrences, from the store or computed
* `ExpansionCache.stats`, `ExpansionCache.clear`, `ExpansionCache.clearStats`
* `SharedCache`: a cache that comes into being with its first use
-/

namespace Recurrence

/-- Why an expansion through the cache fails. -/
inductive CacheError where
  /-- a time lies outside the calendar -/
  | time (e : TimeError)
  /-- the occurrences cannot be put into the store -/
  | put (e : PutError)
  /-- the size of a store cannot be less than nothing -/
  | negativeSize
deriving DecidableEq

structure ExpansionCache where
  store : Timed CacheKey (List Occurrence)
  hits : Nat
  misses : Nat

structure CacheStats where
  hits : Nat
  misses : Nat
  hitRate : Binary64
  evictions : Nat
  currentSize : Nat
  maxSize : Nat
  ttl : Number

namespace ExpansionCache

def create (maxSize : Int) (ttl : Number) : Except CacheError ExpansionCache :=
  if maxSize < 0 then .error .negativeSize
  else .ok ⟨Timed.empty maxSize.toNat ttl, 0, 0⟩

def ofConfig (c : Config) : ExpansionCache :=
  ⟨Timed.empty c.cacheMaxSize.1 (.int c.cacheTtlSeconds.1), 0, 0⟩

/-- The occurrences in a window at the time `now`, and the cache afterwards.  A lookup that finds
nothing is counted even if the occurrences then cannot be put in. -/
def expand (c : ExpansionCache) (now : Number) (s : Series) (lower upper : Moment)
    (extra : List Stamp) : Except CacheError (List Occurrence) × ExpansionCache :=
  match lower.opening, upper.closing, instantsOf extra with
  | .error e, _, _ => (.error (.time e), c)
  | _, .error e, _ => (.error (.time e), c)
  | _, _, .error e => (.error (.time e), c)
  | .ok lower, .ok upper, .ok excluded =>
    let key := CacheKey.of s (Stamp.ofInstant lower) (Stamp.ofInstant upper) excluded
    match c.store.get? now key with
    | some (found, store) => (.ok found, { c with store, hits := c.hits + 1 })
    | none =>
      let c := { c with misses := c.misses + 1 }
      match s.expandBetween lower upper extra with
      | .error e => (.error (.time e), c)
      | .ok found =>
        match c.store.put now key found with
        | .ok store => (.ok found, { c with store })
        | .error e => (.error (.put e), { c with store := c.store.expire now })

/-- The share of the lookups that found something, in percent with two decimal places. -/
def hitRate (hits misses : Nat) : Binary64 :=
  if hits + misses = 0 then Binary64.zero
  else ((Binary64.ofRatio false hits (hits + misses)).mul (Binary64.ofInt 100)).roundPlaces 2

/-- The statistics at the time `now`, after expired entries are dropped. -/
def stats (c : ExpansionCache) (now : Number) : CacheStats × ExpansionCache :=
  let store := c.store.expire now
  ({ hits := c.hits
     misses := c.misses
     hitRate := hitRate c.hits c.misses
     evictions := store.evictions
     currentSize := store.size
     maxSize := store.capacity
     ttl := store.ttl }, { c with store })

def clear (c : ExpansionCache) : ExpansionCache := { c with store := c.store.clear }

def clearStats (c : ExpansionCache) : ExpansionCache :=
  { store := { c.store with evictions := 0 }, hits := 0, misses := 0 }

end ExpansionCache

/-- A cache that may not exist yet. -/
abbrev SharedCache := Option ExpansionCache

/-- The cache, made according to the configuration if it does not exist yet. -/
def SharedCache.get (c : SharedCache) (config : Option Config) : ExpansionCache :=
  match c with
  | some c => c
  | none => ExpansionCache.ofConfig (config.getD Config.default)

end Recurrence
