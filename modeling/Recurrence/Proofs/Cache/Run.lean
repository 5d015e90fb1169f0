import Recurrence.Proofs.Cache.History
import Recurrence.Proofs.Cache.Key

/-!
# Runs of a cache

A run is a list of calls, the last call first, each with what the clock shows when it is made
(`ExpansionCache.run`).  What a call does is told by cases: an expansion whose times cannot be had
changes nothing, one that is found is answered from the store, and any other is computed and put into
the store, unless the time at which it would expire cannot be formed (`ExpansionCache.ask_cases`).

The history of a run lists the keys of the expansions that were answered, with their times, and the times
at which expired entries were dropped (`ExpansionCache.history`).  After any run the store is as its
history tells (`ExpansionCache.fits_run`), and the history has only times from the calls
(`ExpansionCache.ascending_history`).
-/

namespace Recurrence

/-- What an expansion is asked for. -/
structure ExpansionRequest where
  series : Series
  lower : Moment
  upper : Moment
  extra : List Stamp

namespace ExpansionRequest

/-- The key of the expansion, if its times can be had. -/
def key? (q : ExpansionRequest) : Except TimeError CacheKey :=
  match q.lower.opening, q.upper.closing, instantsOf q.extra with
  | .error e, _, _ => .error e
  | _, .error e, _ => .error e
  | _, _, .error e => .error e
  | .ok lower, .ok upper, .ok excluded =>
    .ok (CacheKey.of q.series (Stamp.ofInstant lower) (Stamp.ofInstant upper) excluded)

/-- The expansion without a cache. -/
def uncached (q : ExpansionRequest) : Except TimeError (List Occurrence) :=
  q.series.expand q.lower q.upper q.extra

variable {q q' : ExpansionRequest} {k : CacheKey} {e : TimeError}

theorem key?_eq_ok (h : q.key? = .ok k) :
    ∃ lower upper excluded, q.lower.opening = .ok lower ∧ q.upper.closing = .ok upper ∧
      instantsOf q.extra = .ok excluded ∧
      CacheKey.of q.series (Stamp.ofInstant lower) (Stamp.ofInstant upper) excluded = k := by
  unfold key? at h
  split at h
  · cases h
  · cases h
  · cases h
  · rename_i lower upper excluded hlower hupper hexcluded
    exact ⟨lower, upper, excluded, hlower, hupper, hexcluded, Except.ok.inj h⟩

/-- An expansion whose times can be had succeeds. -/
theorem uncached_eq_ok (h : q.key? = .ok k) : ∃ found, q.uncached = .ok found := by
  obtain ⟨lower, upper, excluded, hlower, hupper, hexcluded, -⟩ := key?_eq_ok h
  exact ⟨_, (Series.expand_of_bounds hlower hupper _ _).trans
    (Series.expandBetween_eq_shown _ _ _ hexcluded)⟩

/-- **Equal keys have equal expansions** where series with the same name and rule start at the same
time, and durations that differ also do so in seconds. -/
theorem uncached_eq_of_key (h : q.key? = .ok k) (h' : q'.key? = .ok k)
    (hsame : q.series.id = q'.series.id → q.series.rule = q'.series.rule →
      q.series.start = q'.series.start ∧
        (q.series.duration = q'.series.duration ∨ q.series.seconds ≠ q'.series.seconds)) :
    q.uncached = q'.uncached := by
  obtain ⟨lower, upper, excluded, hlower, hupper, hexcluded, hkey⟩ := key?_eq_ok h
  obtain ⟨lower', upper', excluded', hlower', hupper', hexcluded', hkey'⟩ := key?_eq_ok h'
  obtain ⟨hid, rfl, rfl, hrule, hseconds, hcancelled⟩ := CacheKey.of_eq_iff.1 (hkey.trans hkey'.symm)
  obtain ⟨hstart, hdurations⟩ := hsame hid hrule
  have hduration := hdurations.resolve_right fun hne => hne hseconds
  have hfirst : q.series.firstStart = q'.series.firstStart := by
    unfold Series.firstStart Series.rule?
    rw [hrule, hstart]
  have hshown : q.series.shown lower upper excluded = q'.series.shown lower upper excluded' :=
    Series.shown_eq_of_firstStart hrule hfirst hduration hcancelled
  unfold uncached
  rw [Series.expand_of_bounds hlower hupper, Series.expand_of_bounds hlower' hupper',
    Series.expandBetween_eq_shown _ _ _ hexcluded, Series.expandBetween_eq_shown _ _ _ hexcluded',
    hshown, Series.ofStart?_congr hid hduration]

end ExpansionRequest

/-- A call of a cache, with what the clock shows. -/
inductive CacheCall where
  | expand (now : Number) (q : ExpansionRequest)
  | stats (now : Number)
  | clear
  | clearStats

namespace CacheCall

def reading? : CacheCall → Option Number
  | expand now _ => some now
  | stats now => some now
  | clear => none
  | clearStats => none

def request? : CacheCall → Option ExpansionRequest
  | expand _ q => some q
  | stats _ => none
  | clear => none
  | clearStats => none

/-- What the clock showed in a run. -/
def readings (calls : List CacheCall) : List Number := calls.filterMap reading?

/-- What was asked for in a run. -/
def requests (calls : List CacheCall) : List ExpansionRequest := calls.filterMap request?

/-- The clock never went back in a run, whose last call is the first of the list. -/
def Ascending (calls : List CacheCall) : Prop :=
  (readings calls).Pairwise fun later earlier => earlier.le later = true

instance (calls : List CacheCall) : Decidable (Ascending calls) :=
  inferInstanceAs (Decidable (List.Pairwise _ _))

end CacheCall

namespace ExpansionCache

open CacheCall

/-! ## Calls and runs -/

def ask (c : ExpansionCache) (now : Number) (q : ExpansionRequest) :
    Except CacheError (List Occurrence) × ExpansionCache :=
  c.expand now q.series q.lower q.upper q.extra

/-- The cache after a call. -/
def after (c : ExpansionCache) : CacheCall → ExpansionCache
  | .expand now q => (c.ask now q).2
  | .stats now => (c.stats now).2
  | .clear => c.clear
  | .clearStats => c.clearStats

/-- The cache after a run, whose last call is the first of the list. -/
def run (c : ExpansionCache) : List CacheCall → ExpansionCache
  | [] => c
  | call :: earlier => (c.run earlier).after call

/-- The expansion is counted as found. -/
def isHit (c : ExpansionCache) (now : Number) (q : ExpansionRequest) : Bool :=
  decide ((c.ask now q).2.hits = c.hits + 1)

/-- The expansion is counted as not found. -/
def isMiss (c : ExpansionCache) (now : Number) (q : ExpansionRequest) : Bool :=
  decide ((c.ask now q).2.misses = c.misses + 1)

/-- What a call does to the store.  An expansion that fails asks for no key. -/
def events (c : ExpansionCache) : CacheCall → History CacheKey
  | .expand now q =>
    match q.key?, (c.ask now q).1 with
    | .error _, _ => []
    | .ok _, .error _ => [.purged now]
    | .ok k, .ok _ => if c.isHit now q then [.found k now] else [.stored k now, .purged now]
  | .stats now => [.purged now]
  | .clear => [.cleared]
  | .clearStats => []

/-- What a run does to the store. -/
def history (c : ExpansionCache) : List CacheCall → History CacheKey
  | [] => []
  | call :: earlier => (c.run earlier).events call ++ c.history earlier

variable {c : ExpansionCache} {now ttl : Number} {q : ExpansionRequest} {k : CacheKey}
  {calls : List CacheCall}

/-- **What an expansion does.** -/
theorem ask_cases (hroom : 0 < c.store.capacity) (now : Number) (q : ExpansionRequest) :
    (∃ e, q.key? = .error e ∧ c.ask now q = (.error (.time e), c)) ∨
      ∃ k found, q.key? = .ok k ∧ q.uncached = .ok found ∧
        ((∃ v store, c.store.get? now k = some (v, store) ∧
            c.ask now q = (.ok v, ⟨store, c.hits + 1, c.misses⟩)) ∨
          c.store.get? now k = none ∧
            ((∃ x, now.add? c.store.ttl = some x ∧
                c.ask now q =
                  (.ok found, ⟨(c.store.expire now).insert k found x, c.hits, c.misses + 1⟩)) ∨
              now.add? c.store.ttl = none ∧
                c.ask now q =
                  (.error (.put .noExpiry), ⟨c.store.expire now, c.hits, c.misses + 1⟩))) := by
  cases hlower : q.lower.opening with
  | error e => exact .inl ⟨e, by rw [ExpansionRequest.key?, hlower], by rw [ask, expand, hlower]⟩
  | ok lower =>
    cases hupper : q.upper.closing with
    | error e =>
      exact .inl ⟨e, by rw [ExpansionRequest.key?, hlower, hupper], by rw [ask, expand, hlower, hupper]⟩
    | ok upper =>
      cases hextra : instantsOf q.extra with
      | error e =>
        exact .inl ⟨e, by rw [ExpansionRequest.key?, hlower, hupper, hextra],
          by rw [ask, expand, hlower, hupper, hextra]⟩
      | ok excluded =>
        have hkey : q.key? = .ok (CacheKey.of q.series (Stamp.ofInstant lower)
            (Stamp.ofInstant upper) excluded) := by
          rw [ExpansionRequest.key?, hlower, hupper, hextra]
        obtain ⟨found, hfound⟩ := ExpansionRequest.uncached_eq_ok hkey
        have hbetween : q.series.expandBetween lower upper q.extra = .ok found :=
          (Series.expand_of_bounds hlower hupper q.series q.extra).symm.trans hfound
        refine .inr ⟨_, found, hkey, hfound, ?_⟩
        unfold ask expand
        rw [hlower, hupper, hextra]
        simp only [hbetween]
        split
        · rename_i v store hget
          exact .inl ⟨v, store, hget, rfl⟩
        · rename_i hget
          refine .inr ⟨hget, ?_⟩
          rw [Timed.put_eq _ _ _ _ hroom]
          cases hx : now.add? c.store.ttl with
          | some x => exact .inl ⟨x, rfl, rfl⟩
          | none => exact .inr ⟨rfl, rfl⟩

/-! ## What a run keeps -/

theorem capacity_ttl_after (hroom : 0 < c.store.capacity) (call : CacheCall) :
    (c.after call).store.capacity = c.store.capacity ∧ (c.after call).store.ttl = c.store.ttl := by
  cases call with
  | stats now => exact ⟨rfl, rfl⟩
  | clear => exact ⟨rfl, rfl⟩
  | clearStats => exact ⟨rfl, rfl⟩
  | expand now q =>
    rw [after]
    rcases ask_cases hroom now q with ⟨e, -, hask⟩ |
      ⟨k, found, -, -, ⟨v, store, hget, hask⟩ | ⟨-, ⟨x, -, hask⟩ | ⟨-, hask⟩⟩⟩
    · rw [hask]
      exact ⟨rfl, rfl⟩
    · obtain ⟨e, -, -, -, rfl⟩ := Timed.get?_eq_some_iff.1 hget
      rw [hask]
      exact ⟨rfl, rfl⟩
    · rw [hask]
      exact ⟨rfl, rfl⟩
    · rw [hask]
      exact ⟨rfl, rfl⟩

theorem capacity_ttl_run (hroom : 0 < c.store.capacity) (calls : List CacheCall) :
    (c.run calls).store.capacity = c.store.capacity ∧ (c.run calls).store.ttl = c.store.ttl := by
  induction calls with
  | nil => exact ⟨rfl, rfl⟩
  | cons call earlier ih =>
    obtain ⟨hcapacity, httl⟩ := capacity_ttl_after (ih.1.symm ▸ hroom) call
    exact ⟨hcapacity.trans ih.1, httl.trans ih.2⟩

theorem run_capacity_pos (hroom : 0 < c.store.capacity) (calls : List CacheCall) :
    0 < (c.run calls).store.capacity := (capacity_ttl_run hroom calls).1.symm ▸ hroom

theorem isHit_of_ask {answer : Except CacheError (List Occurrence)} {c' : ExpansionCache}
    (h : c.ask now q = (answer, c')) : c.isHit now q = decide (c'.hits = c.hits + 1) := by
  rw [isHit, h]

theorem isMiss_of_ask {answer : Except CacheError (List Occurrence)} {c' : ExpansionCache}
    (h : c.ask now q = (answer, c')) : c.isMiss now q = decide (c'.misses = c.misses + 1) := by
  rw [isMiss, h]

theorem counted_eq (hroom : 0 < c.store.capacity) (hk : q.key? = .ok k) (now : Number) :
    c.isHit now q = (c.store.get? now k).isSome ∧ c.isMiss now q = (c.store.get? now k).isNone := by
  rcases ask_cases hroom now q with ⟨e, he, -⟩ |
    ⟨k', found, hk', -, ⟨v, store, hget, hask⟩ | ⟨hget, ⟨x, -, hask⟩ | ⟨-, hask⟩⟩⟩
  · rw [hk] at he
    cases he
  all_goals
    obtain rfl : k = k' := Except.ok.inj (hk.symm.trans hk')
    rw [isHit_of_ask hask, isMiss_of_ask hask, hget]
    simp

/-- An expansion is counted as found exactly if the store finds its key. -/
theorem isHit_eq (hroom : 0 < c.store.capacity) (hk : q.key? = .ok k) (now : Number) :
    c.isHit now q = (c.store.get? now k).isSome := (counted_eq hroom hk now).1

/-- An expansion is counted as not found exactly if the store does not find its key. -/
theorem isMiss_eq (hroom : 0 < c.store.capacity) (hk : q.key? = .ok k) (now : Number) :
    c.isMiss now q = (c.store.get? now k).isNone := (counted_eq hroom hk now).2

/-- One call leads from a store that is as its history tells to one that is. -/
theorem fits_after {past : History CacheKey} (hroom : 0 < c.store.capacity) (h : c.store.Fits past)
    (call : CacheCall) : (c.after call).store.Fits (c.events call ++ past) := by
  cases call with
  | stats now => exact h.purged now
  | clear => exact Timed.fits_cleared c.store past
  | clearStats => exact h.evictions_irrelevant 0
  | expand now q =>
    rw [after, events]
    rcases ask_cases hroom now q with ⟨e, hk, hask⟩ |
      ⟨k, found, hk, -, ⟨v, store, hget, hask⟩ | ⟨hget, ⟨x, hx, hask⟩ | ⟨-, hask⟩⟩⟩
    · rw [hk, hask]
      exact h
    · have hhit : c.isHit now q = true := by rw [isHit_eq hroom hk, hget]; rfl
      rw [hk, hask]
      simp only [hhit, if_true]
      exact h.found hget
    · have hhit : c.isHit now q = false := by rw [isHit_eq hroom hk, hget]; rfl
      rw [hk, hask]
      simp only [hhit]
      exact (h.purged now).stored hroom hx k found
    · rw [hk, hask]
      exact h.purged now

/-- **After any run the store is as its history tells.** -/
theorem fits_run (hroom : 0 < c.store.capacity) (h : c.store.Fits []) (calls : List CacheCall) :
    (c.run calls).store.Fits (c.history calls) := by
  induction calls with
  | nil => exact h
  | cons call earlier ih => exact fits_after (run_capacity_pos hroom earlier) ih call

theorem create_eq_ok {maxSize : Int} (h : create maxSize ttl = .ok c) (hsize : 1 ≤ maxSize) :
    c.store = Timed.empty maxSize.toNat ttl ∧ c.hits = 0 ∧ c.misses = 0 ∧ 0 < c.store.capacity := by
  unfold create at h
  rw [if_neg (by omega)] at h
  obtain rfl := Except.ok.inj h
  refine ⟨rfl, rfl, rfl, ?_⟩
  show 0 < maxSize.toNat
  omega

/-- A run of a new cache keeps its size and its lifetime, and its store is as its history tells. -/
theorem run_of_create {maxSize : Int} (h : create maxSize ttl = .ok c) (hsize : 1 ≤ maxSize)
    (calls : List CacheCall) :
    0 < (c.run calls).store.capacity ∧ (c.run calls).store.capacity = maxSize.toNat ∧
      (c.run calls).store.ttl = ttl ∧ (c.run calls).store.Fits (c.history calls) := by
  obtain ⟨hstore, -, -, hroom⟩ := create_eq_ok h hsize
  obtain ⟨hcapacity, httl⟩ := capacity_ttl_run hroom calls
  refine ⟨run_capacity_pos hroom calls, ?_, ?_, fits_run hroom (hstore ▸ Timed.fits_empty _ _) calls⟩
  · rw [hcapacity, hstore]
    rfl
  · rw [httl, hstore]
    rfl

/-! ## The times in a history -/

theorem reading_of_mem_events {r : Number} {call : CacheCall} (h : r ∈ (c.events call).readings) :
    call.reading? = some r := by
  obtain ⟨e, he, hr⟩ := List.mem_filterMap.1 h
  cases call with
  | stats now => rw [List.mem_singleton.1 he] at hr; exact hr
  | clear => rw [List.mem_singleton.1 he] at hr; cases hr
  | clearStats => exact absurd he List.not_mem_nil
  | expand now q =>
    rw [events] at he
    split at he
    · exact absurd he List.not_mem_nil
    · rw [List.mem_singleton.1 he] at hr
      exact hr
    · split at he
      · rw [List.mem_singleton.1 he] at hr
        exact hr
      · rcases List.mem_pair.1 he with rfl | rfl <;> exact hr

theorem mem_readings_of_history {r : Number} (h : r ∈ (c.history calls).readings) :
    r ∈ readings calls := by
  induction calls with
  | nil => exact absurd h List.not_mem_nil
  | cons call earlier ih =>
    rw [history, History.readings, List.filterMap_append, List.mem_append] at h
    rcases h with h | h
    · exact List.mem_filterMap.2 ⟨call, List.mem_cons_self, reading_of_mem_events h⟩
    · obtain ⟨d, hd, hr⟩ := List.mem_filterMap.1 (ih h)
      exact List.mem_filterMap.2 ⟨d, List.mem_cons_of_mem call hd, hr⟩

/-- **The times in a history do not go back**, if those of the calls do not and each of them is a
time. -/
theorem ascending_history (h : Ascending calls) (htimes : ∀ r ∈ readings calls, r.le r = true) :
    (c.history calls).Ascending := by
  induction calls with
  | nil => exact List.Pairwise.nil
  | cons call earlier ih =>
    have hevents : ∀ r ∈ ((c.run earlier).events call).readings, call.reading? = some r :=
      fun r hr => reading_of_mem_events hr
    have hsplit : ∀ r, call.reading? = some r → readings (call :: earlier) = r :: readings earlier :=
      fun r hr => List.filterMap_cons_some hr
    unfold History.Ascending
    rw [history, History.readings, List.filterMap_append, List.pairwise_append]
    refine ⟨?_, ih ?_ fun r hr => htimes r ?_, fun r hr s hs => ?_⟩
    · refine List.pairwise_of_forall_mem_list fun r hr s hs => ?_
      obtain rfl : r = s := Option.some.inj ((hevents r hr).symm.trans (hevents s hs))
      exact htimes r (by rw [hsplit r (hevents r hr)]; exact List.mem_cons_self)
    · exact h.sublist ((List.sublist_cons_self call earlier).filterMap _)
    · exact ((List.sublist_cons_self call earlier).filterMap _).subset hr
    · unfold Ascending at h
      rw [hsplit r (hevents r hr)] at h
      exact (List.pairwise_cons.1 h).1 s (mem_readings_of_history hs)

end ExpansionCache

end Recurrence
