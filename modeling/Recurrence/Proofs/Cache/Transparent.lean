import Recurrence.Proofs.Cache.Hit

/-!
# The cache answers as if it were not there

Everything in the store was computed for an earlier call with the same key
(`ExpansionCache.remembers_run`).  So what a cache answers is the expansion itself, as long as series
with the same name and rule start at the same time and do not differ in their duration by less than their
keys tell (`ExpansionCache.ask_run`), whatever has been dropped before and however the clock goes.

The one exception is a computed expansion that cannot be put into the store, since the clock and the
lifetime have no sum: then the call fails although the occurrences are known
(`ExpansionCache.fails_without_expiry`).
-/

namespace Recurrence

open CacheCall

namespace ExpansionCache

variable {c : ExpansionCache} {maxSize : Int} {now ttl : Number} {q : ExpansionRequest} {k : CacheKey}
  {asked : List ExpansionRequest} {calls : List CacheCall}

/-- What is in the store was computed for one of the requests. -/
def Remembers (asked : List ExpansionRequest) (c : ExpansionCache) : Prop :=
  ∀ e ∈ c.store.entries, ∃ p ∈ asked, p.key? = .ok e.key ∧ p.uncached = .ok e.value

theorem Remembers.mono {asked' : List ExpansionRequest} {c' : ExpansionCache} (h : c.Remembers asked)
    (hasked : asked ⊆ asked') (hentries : c'.store.entries ⊆ c.store.entries) :
    c'.Remembers asked' := by
  intro e he
  obtain ⟨p, hp, hanswer⟩ := h e (hentries he)
  exact ⟨p, hasked hp, hanswer⟩

/-- A call leaves only what was there, and what it computes itself. -/
theorem remembers_after (hroom : 0 < c.store.capacity) (h : c.Remembers asked) (call : CacheCall) :
    (c.after call).Remembers (call.request?.toList ++ asked) := by
  have hasked : asked ⊆ call.request?.toList ++ asked := List.subset_append_right _ _
  cases call with
  | stats now => exact h.mono hasked (c.store.expire_sublist now).subset
  | clear => exact h.mono hasked (List.nil_subset _)
  | clearStats => exact h.mono hasked (List.Subset.refl _)
  | expand now q =>
    rw [after]
    rcases ask_cases hroom now q with ⟨e, -, hask⟩ |
      ⟨k, found, hk, hfound, ⟨v, store, hget, hask⟩ | ⟨-, ⟨x, -, hask⟩ | ⟨-, hask⟩⟩⟩
    · rw [hask]
      exact h.mono hasked (List.Subset.refl _)
    · obtain ⟨-, -, -, -, rfl⟩ := Timed.get?_eq_some_iff.1 hget
      rw [hask]
      intro e he
      obtain ⟨d, hd, rfl⟩ := Timed.mem_touch.1 he
      obtain ⟨p, hp, hanswer⟩ := h d hd
      rw [Entry.key_usedAt, Entry.value_usedAt]
      exact ⟨p, hasked hp, hanswer⟩
    · rw [hask]
      intro e he
      rcases Timed.mem_insert.1 he with rfl | ⟨he, -⟩
      · exact ⟨q, List.mem_cons_self, hk, hfound⟩
      · obtain ⟨p, hp, hanswer⟩ := h e ((c.store.expire_sublist now).subset he)
        exact ⟨p, hasked hp, hanswer⟩
    · rw [hask]
      exact h.mono hasked (c.store.expire_sublist now).subset

/-- **What is in the store was computed in the run.** -/
theorem remembers_run (hroom : 0 < c.store.capacity) (h : c.Remembers []) (calls : List CacheCall) :
    (c.run calls).Remembers (requests calls) := by
  induction calls with
  | nil => exact h
  | cons call earlier ih =>
    have hrequests : requests (call :: earlier) = call.request?.toList ++ requests earlier := by
      unfold requests
      rw [List.filterMap_cons]
      cases call.request? <;> rfl
    rw [hrequests]
    exact remembers_after (run_capacity_pos hroom earlier) ih call

/-- **The cache answers with the expansion itself**, unless it has to be computed and the time at which it
would expire cannot be formed. -/
theorem ask_run (hc : create maxSize ttl = .ok c) (hsize : 1 ≤ maxSize) (hk : q.key? = .ok k)
    (hsame : ∀ p ∈ requests calls, p.series.id = q.series.id → p.series.rule = q.series.rule →
      p.series.start = q.series.start ∧
        (p.series.duration = q.series.duration ∨ p.series.seconds ≠ q.series.seconds)) :
    ∃ found, q.uncached = .ok found ∧
      ((c.run calls).ask now q).1 =
        if (c.run calls).isMiss now q = true ∧ now.add? ttl = none then .error (.put .noExpiry)
        else .ok found := by
  obtain ⟨hstore, -, -, hroom⟩ := create_eq_ok hc hsize
  obtain ⟨hpos, -, httl, -⟩ := run_of_create hc hsize calls
  have hremembers : (c.run calls).Remembers (requests calls) :=
    remembers_run hroom (by rw [Remembers, hstore]; nofun) calls
  rw [isMiss_eq hpos hk]
  rcases ask_cases hpos now q with ⟨e, he, -⟩ |
    ⟨k', found, hk', hfound, ⟨v, store, hget, hask⟩ | ⟨hget, ⟨x, hx, hask⟩ | ⟨hx, hask⟩⟩⟩
  · rw [hk] at he
    cases he
  all_goals
    obtain rfl : k = k' := Except.ok.inj (hk.symm.trans hk')
    refine ⟨found, hfound, ?_⟩
    rw [hask, hget]
  · obtain ⟨e, hfind, -, rfl, -⟩ := Timed.get?_eq_some_iff.1 hget
    obtain ⟨he, rfl⟩ := Timed.exists_of_find? hfind
    obtain ⟨p, hp, hpkey, hpfound⟩ := hremembers e he
    have heq := ExpansionRequest.uncached_eq_of_key hpkey hk (hsame p hp)
    rw [if_neg (by simp)]
    exact congrArg Except.ok (Except.ok.inj (hpfound.symm.trans (heq.trans hfound)))
  · rw [if_neg (by rw [← httl, hx]; simp)]
  · rw [if_pos ⟨rfl, httl ▸ hx⟩]

/-- The run is computed, loses its place to the classes, and is computed again. -/
def displacedRun : List CacheCall :=
  [.expand (.int 2) runRequest, .stats (.int 1), .expand (.int 1) classRequest,
    .expand (.int 0) runRequest]

theorem ask_run_displacedRun :
    ∃ found, runRequest.uncached = .ok found ∧ found ≠ [] ∧
      ((single.run displacedRun).ask (.int 3) runRequest).1 = .ok found := by
  have hc : create 1 (.int 10) = .ok single := rfl
  have hk : runRequest.key? = .ok runKey := by decide +kernel
  have hsame : ∀ p ∈ requests displacedRun, p.series.id = runRequest.series.id →
      p.series.rule = runRequest.series.rule → p.series.start = runRequest.series.start ∧
        (p.series.duration = runRequest.series.duration ∨
          p.series.seconds ≠ runRequest.series.seconds) := by
    intro p hp _ _
    have hp : p ∈ [runRequest, classRequest, runRequest] := hp
    simp only [List.mem_cons, List.not_mem_nil, or_false] at hp
    rcases hp with rfl | rfl | rfl <;> exact ⟨rfl, .inl rfl⟩
  obtain ⟨found, hfound, hanswer⟩ := ask_run hc (by decide) hk hsame
  refine ⟨found, hfound, ?_, hanswer.trans (if_neg fun h => absurd h.2 nofun)⟩
  rintro rfl
  exact absurd hfound (by decide +kernel)

/-- **An expansion that cannot expire fails.**  With a lifetime that is too large for floating point and a
clock that shows floating point, nothing can be put into the cache, and the call fails although there are
occurrences. -/
theorem fails_without_expiry :
    ∃ c, create 512 (.int (10 ^ 309)) = .ok c ∧
      (c.ask (.float Binary64.zero) runRequest).1 = .error (.put .noExpiry) ∧
      ∃ found, runRequest.uncached = .ok found ∧ found ≠ [] := by
  refine ⟨⟨Timed.empty 512 (.int (10 ^ 309)), 0, 0⟩, rfl, by decide +kernel, ?_⟩
  obtain ⟨found, hfound⟩ := ExpansionRequest.uncached_eq_ok (q := runRequest) (k := runKey)
    (by decide +kernel)
  refine ⟨found, hfound, ?_⟩
  rintro rfl
  exact absurd hfound (by decide +kernel)

end ExpansionCache

end Recurrence
