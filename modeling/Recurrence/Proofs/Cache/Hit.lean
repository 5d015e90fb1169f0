import Recurrence.Proofs.Cache.Run

/-!
# When an expansion is found in the cache

For a clock that never goes back it can be told from the history of a run which expansions are found
(`ExpansionCache.hit_rule`).  An expansion lives from when it was last computed, however often it has been
found since.  As long as it lives it is found, unless it was crowded out: unless since it was last asked
for as many others were asked for as there is room for.  It may be found even then, if some of them
expired before it; but not if the clock has not moved.
-/

namespace Recurrence

open History CacheCall

namespace ExpansionCache

variable {c : ExpansionCache} {maxSize : Int} {now ttl : Number} {q : ExpansionRequest} {k : CacheKey}
  {calls : List CacheCall}

/-- **Which expansions are found.** -/
theorem hit_rule (hc : create maxSize ttl = .ok c) (hsize : 1 ≤ maxSize) (hk : q.key? = .ok k)
    (hclock : Ascending (.expand now q :: calls)) :
    ((c.run calls).isHit now q = true →
      ∃ t x, storedAt? k (c.history calls) = some t ∧ t.add? ttl = some x ∧ now.lt x = true) ∧
    (∀ t x, storedAt? k (c.history calls) = some t → t.add? ttl = some x → now.lt x = true →
      (othersSince k (c.history calls)).length < maxSize → (c.run calls).isHit now q = true) ∧
    ∀ t, askedAt? k (c.history calls) = some t → now.le t = true →
      maxSize ≤ (othersSince k (c.history calls)).length → (c.run calls).isMiss now q = true := by
  obtain ⟨hroom, hcapacity, httl, hfits⟩ := run_of_create hc hsize calls
  obtain ⟨hlast, hearlier⟩ := List.pairwise_cons.1 hclock
  have hpast : ∀ r ∈ (c.history calls).readings, r.le now = true := fun r hr =>
    hlast r (mem_readings_of_history hr)
  rw [isHit_eq hroom hk, isMiss_eq hroom hk]
  refine ⟨fun hhit => ?_, fun t x ht hx hlive hfew => ?_, fun t ht hstill hmany => ?_⟩
  · obtain ⟨⟨v, store⟩, hget⟩ := Option.isSome_iff_exists.1 hhit
    exact httl ▸ hfits.lives_of_get? hget
  · refine hfits.get?_isSome hpast ht (httl.symm ▸ hx) hlive ?_
    rw [hcapacity]
    omega
  · have hascending : (c.history calls).Ascending :=
      ascending_history hearlier fun r hr => Number.le_refl_of_le (hlast r hr)
    have hnone : (c.run calls).store.get? now k = none := by
      refine hfits.get?_eq_none hascending (fun r hr => Number.le_trans (hpast r hr) hstill) ht
        (hpast t (askedAt?_mem_readings ht)) ?_
      rw [hcapacity]
      omega
    rw [hnone]
    rfl

/-- The run in the first two days of 2024. -/
def runRequest : ExpansionRequest where
  series := CacheKey.morningRun
  lower := .stamp (Stamp.ofInstant CacheKey.twoDays.1)
  upper := .stamp (Stamp.ofInstant CacheKey.twoDays.2)
  extra := []

/-- The classes in the same two days. -/
def classRequest : ExpansionRequest := { runRequest with series := CacheKey.mondayClass }

def runKey : CacheKey :=
  CacheKey.of CacheKey.morningRun (Stamp.ofInstant CacheKey.twoDays.1)
    (Stamp.ofInstant CacheKey.twoDays.2) []

/-- A cache with room for one expansion, which lives for ten seconds. -/
def single : ExpansionCache := ⟨Timed.empty 1 (.int 10), 0, 0⟩

/-- The run, asked for at 0 and again at 9 and 10, is found at 9 and no longer at 10.  When the classes
have taken its place, it is not found either. -/
theorem hit_rule_single :
    (single.run [.expand (.int 0) runRequest]).isHit (.int 9) runRequest = true ∧
      (single.run [.expand (.int 9) runRequest, .expand (.int 0) runRequest]).isHit (.int 10)
        runRequest = false ∧
      (single.run [.expand (.int 0) classRequest, .expand (.int 0) runRequest]).isMiss (.int 0)
        runRequest = true := by
  have hc : create 1 (.int 10) = .ok single := rfl
  have hk : runRequest.key? = .ok runKey := by decide +kernel
  refine ⟨?_, Bool.eq_false_iff.2 fun hhit => ?_, ?_⟩
  · have hclock : Ascending [.expand (.int 9) runRequest, .expand (.int 0) runRequest] := by
      decide
    exact (hit_rule hc (by decide) hk hclock).2.1 (.int 0) (.int 10) (by decide +kernel)
      rfl rfl (by decide +kernel)
  · have hclock : Ascending [.expand (.int 10) runRequest, .expand (.int 9) runRequest,
        .expand (.int 0) runRequest] := by
      decide
    obtain ⟨t, x, ht, hx, hlive⟩ := (hit_rule hc (by decide) hk hclock).1 hhit
    have hstored : storedAt? runKey (single.history [.expand (.int 9) runRequest,
        .expand (.int 0) runRequest]) = some (.int 0) := by decide +kernel
    rw [hstored] at ht
    obtain rfl := Option.some.inj ht
    obtain rfl := Option.some.inj hx
    exact absurd hlive (by decide)
  · have hclock : Ascending [.expand (.int 0) runRequest, .expand (.int 0) classRequest,
        .expand (.int 0) runRequest] := by
      decide
    exact (hit_rule hc (by decide) hk hclock).2.2 (.int 0) (by decide +kernel) rfl
      (by decide +kernel)

end ExpansionCache

end Recurrence
