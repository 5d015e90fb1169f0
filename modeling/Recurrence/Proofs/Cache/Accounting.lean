import Recurrence.Proofs.Cache.Hit
import Recurrence.Proofs.Numeric.Rounding
import Recurrence.Proofs.Order

/-!
# What the statistics of a cache count

Expired entries are dropped from the front of the store only.  If no entry expires before one that was
put in earlier, these are all that have expired (`Timed.Lined.expire_entries`).  Then putting a value in
costs another entry its place exactly if the store is full of entries that live
(`Timed.Lined.victim?_isSome`).

So along a clock whose sums with the lifetime do not go back, the statistics say how many expansions there
were, how many entries live, and how many expansions were not found while the cache was full of living
ones (`ExpansionCache.accounting`).  The sums do not go back if the clock does not and shows only integers
or only floating point (`CacheCall.expiriesAscend_of_alike`).  Along one that shows both they may, since
only the latter are rounded; then entries are counted that have expired
(`ExpansionCache.expired_entry_counted`).
-/

namespace Recurrence

namespace Timed

variable {κ ν : Type} {c : Timed κ ν} {now x : Number}

/-- No entry expires before one that was put in earlier. -/
def Lined (c : Timed κ ν) : Prop := c.entries.Pairwise fun e f => f.expires.Outlasts e.expires

/-- The entries that live. -/
def live (c : Timed κ ν) (now : Number) : List (Entry κ ν) := c.entries.filter (·.isLive now)

/-- **All that have expired are dropped**, since they stand in front. -/
theorem Lined.expire_entries (h : c.Lined) (now : Number) : (c.expire now).entries = c.live now :=
  dropWhile_eq_filter h fun _ _ houtlasts hlive => houtlasts now hlive

theorem Lined.expire (h : c.Lined) (now : Number) : (c.expire now).Lined :=
  h.sublist (c.expire_sublist now)

variable [DecidableEq κ] {k : κ} {v : ν} {past : History κ}

theorem Lined.touch (h : c.Lined) (k : κ) : (c.touch k).Lined := by
  unfold Lined
  rw [touch_entries, List.pairwise_map]
  refine h.imp fun houtlasts => ?_
  rwa [Entry.expires_usedAt, Entry.expires_usedAt]

theorem Lined.insert (h : c.Lined) (hlast : ∀ e ∈ c.entries, x.Outlasts e.expires) :
    (c.insert k v x).Lined := by
  unfold Lined
  rw [insert_entries, List.pairwise_append]
  refine ⟨h.sublist List.filter_sublist, List.pairwise_singleton _ _, fun e he f hf => ?_⟩
  rw [List.mem_singleton.1 hf]
  exact hlast e (List.mem_filter.1 he).1

/-- **Room is made at the expense of another entry exactly if the store is full of entries that live.** -/
theorem Lined.victim?_isSome (h : c.Lined) (htracks : c.Tracks past) (hroom : 0 < c.capacity)
    (hget : c.get? now k = none) :
    ((c.expire now).victim? k).isSome = decide ((c.live now).length = c.capacity) := by
  have habsent : ∀ e ∈ (c.expire now).entries, e.key ≠ k := by
    rintro e he rfl
    rw [h.expire_entries] at he
    obtain ⟨hmem, hlive⟩ := List.mem_filter.1 he
    have hexpired := get?_eq_none_iff.1 hget e (htracks.find?_eq hmem)
    rw [Entry.isLive, hexpired] at hlive
    cases hlive
  have hsize : (c.expire now).size = (c.live now).length := by rw [size, h.expire_entries]
  have hle : (c.live now).length ≤ c.capacity :=
    Nat.le_trans (List.length_filter_le _ _) htracks.room
  have hcapacity : (c.expire now).capacity = c.capacity := rfl
  unfold victim?
  rw [find?_isNone_iff.2 habsent, Bool.true_and, hsize, hcapacity]
  by_cases hfull : (c.live now).length = c.capacity
  · rw [decide_eq_true hfull.ge, if_pos rfl, decide_eq_true hfull, Option.isSome_iff_ne_none]
    intro hnone
    have hempty : (c.expire now).size = 0 := congrArg List.length (leastUsed_eq_none_iff.1 hnone)
    omega
  · rw [decide_eq_false (by omega), if_neg (by decide), decide_eq_false hfull]
    rfl

end Timed

open CacheCall

/-- The sums of what the clock showed with a lifetime do not go back in a run, whose last call is the first
of the list. -/
def CacheCall.ExpiriesAscend (ttl : Number) (calls : List CacheCall) : Prop :=
  (readings calls).Pairwise fun later earlier =>
    ∀ x x', earlier.add? ttl = some x → later.add? ttl = some x' → x'.Outlasts x

/-- **The sums do not go back along a clock that does not**, if it shows only integers or only floating
point. -/
theorem CacheCall.expiriesAscend_of_alike {calls : List CacheCall} {kind : Bool}
    (halike : ∀ r ∈ readings calls, r.isInt = kind) (h : Ascending calls) (ttl : Number) :
    ExpiriesAscend ttl calls := by
  refine List.Pairwise.imp_of_mem ?_ h
  intro later earlier hlater hearlier hle x x' hx hx'
  exact Number.add?_outlasts ((halike earlier hearlier).trans (halike later hlater).symm) hle hx hx'

namespace ExpansionCache

variable {c : ExpansionCache} {maxSize : Int} {now ttl : Number} {q : ExpansionRequest}
  {call : CacheCall} {calls : List CacheCall}

/-- The expansions of a run since the statistics were last reset. -/
def expansions : List CacheCall → Nat
  | [] => 0
  | .expand _ _ :: earlier => expansions earlier + 1
  | .stats _ :: earlier => expansions earlier
  | .clear :: earlier => expansions earlier
  | .clearStats :: _ => 0

/-- The expansions of a run since the statistics were last reset that were not found while the cache was
full of entries that live. -/
def fullMisses (c : ExpansionCache) : List CacheCall → Nat
  | [] => 0
  | .expand now q :: earlier =>
    c.fullMisses earlier +
      if (c.run earlier).isMiss now q ∧
          ((c.run earlier).store.live now).length = (c.run earlier).store.capacity then 1 else 0
  | .stats _ :: earlier => c.fullMisses earlier
  | .clear :: earlier => c.fullMisses earlier
  | .clearStats :: _ => 0

/-- Whether a call that is an expansion gives occurrences. -/
def succeeds (c : ExpansionCache) : CacheCall → Bool
  | .expand now q => (c.ask now q).1.toBool
  | .stats _ => true
  | .clear => true
  | .clearStats => true

/-- Whether all expansions of a run give occurrences. -/
def allSucceed (c : ExpansionCache) : List CacheCall → Bool
  | [] => true
  | call :: earlier => (c.run earlier).succeeds call && c.allSucceed earlier

/-- A successful expansion is found, or computed and put in. -/
theorem ask_cases_of_succeeds (hroom : 0 < c.store.capacity)
    (h : c.succeeds (.expand now q) = true) :
    ∃ k, q.key? = .ok k ∧
      ((∃ v store, c.store.get? now k = some (v, store) ∧
          c.ask now q = (.ok v, ⟨store, c.hits + 1, c.misses⟩)) ∨
        c.store.get? now k = none ∧ ∃ found x, now.add? c.store.ttl = some x ∧
          c.ask now q = (.ok found, ⟨(c.store.expire now).insert k found x, c.hits, c.misses + 1⟩)) := by
  rw [succeeds] at h
  rcases ask_cases hroom now q with ⟨e, -, hask⟩ |
    ⟨k, found, hk, -, hfound | ⟨hget, ⟨x, hx, hask⟩ | ⟨-, hask⟩⟩⟩
  · rw [hask] at h
    cases h
  · exact ⟨k, hk, .inl hfound⟩
  · exact ⟨k, hk, .inr ⟨hget, found, x, hx, hask⟩⟩
  · rw [hask] at h
    cases h

/-! ## No entry expires before an earlier one -/

theorem lined_after (hroom : 0 < c.store.capacity) (h : c.store.Lined)
    (hlast : ∀ now x, call.reading? = some now → now.add? c.store.ttl = some x →
      ∀ e ∈ c.store.entries, x.Outlasts e.expires) : (c.after call).store.Lined := by
  cases call with
  | stats now => exact h.expire now
  | clear => exact List.Pairwise.nil
  | clearStats => exact h
  | expand now q =>
    rw [after]
    rcases ask_cases hroom now q with ⟨e, -, hask⟩ |
      ⟨k, found, -, -, ⟨v, store, hget, hask⟩ | ⟨-, ⟨x, hx, hask⟩ | ⟨-, hask⟩⟩⟩
    · rw [hask]
      exact h
    · obtain ⟨-, -, -, -, rfl⟩ := Timed.get?_eq_some_iff.1 hget
      rw [hask]
      exact h.touch k
    · rw [hask]
      refine (h.expire now).insert fun e he => ?_
      exact hlast now x rfl hx e ((c.store.expire_sublist now).subset he)
    · rw [hask]
      exact h.expire now

/-- **No entry expires before an earlier one** if the sums of the clock with the lifetime do not go
back. -/
theorem lined_run (hroom : 0 < c.store.capacity) (hempty : c.store.entries = [])
    (h : ExpiriesAscend c.store.ttl calls) : (c.run calls).store.Lined := by
  induction calls with
  | nil =>
    unfold run Timed.Lined
    rw [hempty]
    exact List.Pairwise.nil
  | cons call earlier ih =>
    have hearlier : ExpiriesAscend c.store.ttl earlier :=
      h.sublist ((List.sublist_cons_self call earlier).filterMap _)
    have httl : (c.run earlier).store.ttl = c.store.ttl := (capacity_ttl_run hroom earlier).2
    have hfits : (c.run earlier).store.Fits (c.history earlier) :=
      fits_run hroom (Timed.fits_of_empty hempty fun _ => rfl) earlier
    refine lined_after (run_capacity_pos hroom earlier) (ih hearlier) fun now x hnow hx e he => ?_
    obtain ⟨t, ht, hexpires⟩ := hfits.expires e he
    rw [httl] at hx hexpires
    have ht : t ∈ readings earlier := mem_readings_of_history (History.storedAt?_mem_readings ht)
    unfold ExpiriesAscend readings at h
    rw [List.filterMap_cons_some hnow] at h
    exact (List.pairwise_cons.1 h).1 t ht e.expires x hexpires hx

/-! ## What is counted -/

/-- A call adds to the counts what it should. -/
theorem counts_after (hroom : 0 < c.store.capacity) {past : History CacheKey}
    (htracks : c.store.Tracks past) (hlined : c.store.Lined)
    (hsuccess : c.succeeds (.expand now q) = true) :
    (c.ask now q).2.hits + (c.ask now q).2.misses = c.hits + c.misses + 1 ∧
      (c.ask now q).2.store.evictions = c.store.evictions +
        if c.isMiss now q ∧ (c.store.live now).length = c.store.capacity then 1 else 0 := by
  obtain ⟨k, hk, ⟨v, store, hget, hask⟩ | ⟨hget, found, x, hx, hask⟩⟩ :=
    ask_cases_of_succeeds hroom hsuccess
  · have hmiss : c.isMiss now q = false := by rw [isMiss_eq hroom hk, hget]; rfl
    obtain ⟨-, -, -, -, rfl⟩ := Timed.get?_eq_some_iff.1 hget
    rw [hask, hmiss, if_neg fun h => absurd h.1 nofun]
    exact ⟨Nat.add_right_comm _ _ _, rfl⟩
  · have hmiss : c.isMiss now q = true := by rw [isMiss_eq hroom hk, hget]; rfl
    have hvictim := hlined.victim?_isSome htracks hroom hget
    rw [hask, hmiss]
    refine ⟨rfl, ?_⟩
    show c.store.evictions + _ = _
    rw [hvictim]
    simp only [decide_eq_true_eq, true_and]

/-- Nothing has happened to a cache. -/
structure Fresh (c : ExpansionCache) : Prop where
  entries : c.store.entries = []
  hits : c.hits = 0
  misses : c.misses = 0
  evictions : c.store.evictions = 0

/-- **The counts of a run** are those of its calls. -/
theorem counts_run (hroom : 0 < c.store.capacity) (hfresh : c.Fresh)
    (hsuccess : c.allSucceed calls = true) (hexpiries : ExpiriesAscend c.store.ttl calls) :
    (c.run calls).hits + (c.run calls).misses = expansions calls ∧
      (c.run calls).store.evictions = c.fullMisses calls := by
  induction calls with
  | nil => exact ⟨by rw [run, hfresh.hits, hfresh.misses]; rfl, hfresh.evictions⟩
  | cons call earlier ih =>
    rw [allSucceed, Bool.and_eq_true] at hsuccess
    have hearlier : ExpiriesAscend c.store.ttl earlier :=
      hexpiries.sublist ((List.sublist_cons_self call earlier).filterMap _)
    obtain ⟨hcount, hevicted⟩ := ih hsuccess.2 hearlier
    cases call with
    | stats now => exact ⟨hcount, hevicted⟩
    | clear => exact ⟨hcount, hevicted⟩
    | clearStats => exact ⟨rfl, rfl⟩
    | expand now q =>
      have hfits : (c.run earlier).store.Fits (c.history earlier) :=
        fits_run hroom (Timed.fits_of_empty hfresh.entries fun _ => rfl) earlier
      obtain ⟨hone, hvictim⟩ := counts_after (run_capacity_pos hroom earlier) hfits.toTracks
        (lined_run hroom hfresh.entries hearlier) hsuccess.1
      refine ⟨hone.trans ?_, hvictim.trans ?_⟩
      · rw [hcount]
        rfl
      · rw [hevicted]
        rfl

/-- **What the statistics count**, if the sums of the clock with the lifetime do not go back: the
expansions since the last reset, the entries that live, and the expansions since then that were not found
while the cache was full of entries that live. -/
theorem accounting (hc : create maxSize ttl = .ok c) (hsize : 1 ≤ maxSize)
    (hsuccess : c.allSucceed calls = true) (hexpiries : ExpiriesAscend ttl calls) (now : Number) :
    ((c.run calls).stats now).1.hits + ((c.run calls).stats now).1.misses = expansions calls ∧
      ((c.run calls).stats now).1.currentSize = ((c.run calls).store.live now).length ∧
      ((c.run calls).stats now).1.currentSize ≤ maxSize ∧
      ((c.run calls).stats now).1.evictions = c.fullMisses calls := by
  obtain ⟨hstore, hhits, hmisses, hroom⟩ := create_eq_ok hc hsize
  have hfresh : c.Fresh := ⟨by rw [hstore]; rfl, hhits, hmisses, by rw [hstore]; rfl⟩
  obtain ⟨-, hcapacity, -, hfits⟩ := run_of_create hc hsize calls
  have httl : c.store.ttl = ttl := by rw [hstore]; rfl
  rw [← httl] at hexpiries
  obtain ⟨hcount, hevicted⟩ := counts_run hroom hfresh hsuccess hexpiries
  have hlined := lined_run hroom hfresh.entries hexpiries
  have hlive : ((c.run calls).store.expire now).size = ((c.run calls).store.live now).length := by
    rw [Timed.size, hlined.expire_entries]
  have hle : ((c.run calls).store.live now).length ≤ (c.run calls).store.capacity :=
    Nat.le_trans (List.length_filter_le _ _) hfits.room
  refine ⟨hcount, hlive, ?_, hevicted⟩
  show (((c.run calls).store.expire now).size : Int) ≤ maxSize
  rw [hlive]
  omega

/-- An eviction at 2, an expiry at 12, and a new entry after everything was dropped. -/
def busyRun : List CacheCall :=
  [.expand (.int 13) runRequest, .clear, .expand (.int 12) runRequest, .expand (.int 2) classRequest,
    .expand (.int 1) runRequest, .expand (.int 0) runRequest]

theorem accounting_busyRun :
    ((single.run busyRun).stats (.int 14)).1.hits + ((single.run busyRun).stats (.int 14)).1.misses = 5 ∧
      ((single.run busyRun).stats (.int 14)).1.currentSize = 1 ∧
      ((single.run busyRun).stats (.int 14)).1.evictions = 1 := by
  have hc : create 1 (.int 10) = .ok single := rfl
  have hascending : Ascending busyRun := by decide
  have halike : ∀ r ∈ readings busyRun, r.isInt = true := by decide
  have hexpiries : ExpiriesAscend (.int 10) busyRun := expiriesAscend_of_alike halike hascending _
  obtain ⟨hcount, hsize, -, hevictions⟩ :=
    accounting hc (by decide) (by decide +kernel) hexpiries (.int 14)
  refine ⟨hcount.trans rfl, hsize.trans (by decide +kernel), hevictions.trans (by decide +kernel)⟩

/-- The run is asked for when the clock shows the integer zero, the classes when it shows zero in floating
point.  Only the second sum is rounded. -/
def mixedRun : List CacheCall :=
  [.expand (.float Binary64.zero) classRequest, .expand (.int 0) runRequest]

/-- **An expired entry is counted.**  The clock does not go back, but the classes expire before the run,
which was put in earlier; the statistics count both entries. -/
theorem expired_entry_counted :
    ∃ c, create 512 (.int (2 ^ 53 + 1)) = .ok c ∧ c.allSucceed mixedRun = true ∧
      Ascending (.stats (.int (2 ^ 53)) :: mixedRun) ∧
      ((c.run mixedRun).stats (.int (2 ^ 53))).1.currentSize = 2 ∧
      ((c.run mixedRun).store.live (.int (2 ^ 53))).length = 1 := by
  refine ⟨⟨Timed.empty 512 (.int (2 ^ 53 + 1)), 0, 0⟩, rfl, ?_⟩
  decide +kernel

end ExpansionCache

end Recurrence
