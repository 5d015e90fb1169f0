import Mathlib.Data.List.Dedup
import Mathlib.Data.List.Perm.Subperm
import Recurrence.Proofs.Cache.Timed

/-!
# What a store holds, told from its history

A history says which keys a store was asked for and when, when expired entries were dropped, and when
it was cleared.  `Timed.Fits` says of a store what its history tells: when each entry expires, the order
in which the entries were last used, which keys it still must hold, and which of them are held besides
an entry that was used just now.  An empty store fits the empty history (`Timed.fits_empty`), and each
operation leads from a store that fits to one that fits (`Timed.Fits.purged`, `Timed.Fits.found`,
`Timed.Fits.stored`, `Timed.Fits.cleared`).

What a store that fits answers can be told without looking into it: it finds a key only as long as the
value that was last put in under it lives (`Timed.Fits.lives_of_get?`), it finds a key that has not been
crowded out (`Timed.Fits.get?_isSome`), and while the clock stands it does not find a key that has
(`Timed.Fits.get?_eq_none`).
-/

namespace Recurrence

/-- What happens to a store. -/
inductive StoreEvent (κ : Type) where
  /-- the key is looked up and found -/
  | found (k : κ) (now : Number)
  /-- a value is put in under the key -/
  | stored (k : κ) (now : Number)
  /-- expired entries are dropped -/
  | purged (now : Number)
  /-- all entries are dropped -/
  | cleared

/-- What happened to a store, the last event first. -/
abbrev History (κ : Type) := List (StoreEvent κ)

namespace StoreEvent

variable {κ : Type}

/-- The key that the store was asked for. -/
def key? : StoreEvent κ → Option κ
  | found k _ => some k
  | stored k _ => some k
  | purged _ => none
  | cleared => none

/-- What the clock showed. -/
def reading? : StoreEvent κ → Option Number
  | found _ now => some now
  | stored _ now => some now
  | purged now => some now
  | cleared => none

end StoreEvent

namespace History

variable {κ : Type} [DecidableEq κ]

def readings (past : History κ) : List Number := past.filterMap StoreEvent.reading?

/-- The clock never went back. -/
def Ascending (past : History κ) : Prop := past.readings.Pairwise fun later earlier =>
  earlier.le later = true

/-- When a value was last put in under a key, unless the store was cleared since. -/
def storedAt? (k : κ) : History κ → Option Number
  | [] => none
  | .cleared :: _ => none
  | .stored k' now :: past => if k' = k then some now else storedAt? k past
  | .found _ _ :: past => storedAt? k past
  | .purged _ :: past => storedAt? k past

/-- When the store was last asked for a key. -/
def askedAt? (k : κ) : History κ → Option Number
  | [] => none
  | e :: past => if e.key? = some k then e.reading? else askedAt? k past

/-- The other keys that the store was asked for since it was last asked for a key, each once. -/
def othersSince (k : κ) (past : History κ) : List κ :=
  ((past.takeWhile fun e => decide (e.key? ≠ some k)).filterMap StoreEvent.key?).dedup

variable {past : History κ} {e : StoreEvent κ} {k k' : κ} {t : Number}

theorem nodup_othersSince (k : κ) (past : History κ) : (othersSince k past).Nodup :=
  List.nodup_dedup _

theorem mem_othersSince_cons :
    k' ∈ othersSince k (e :: past) ↔ e.key? ≠ some k ∧ (e.key? = some k' ∨ k' ∈ othersSince k past) := by
  unfold othersSince
  rw [List.mem_dedup, List.mem_dedup]
  by_cases hk : e.key? = some k
  · rw [List.takeWhile_cons_of_neg (by simp [hk])]
    simp [hk]
  · rw [List.takeWhile_cons_of_pos (by simp [hk]), List.filterMap_cons]
    cases hkey : e.key? with
    | none => simp
    | some j =>
      have hne : some j ≠ some k := fun h => hk (hkey.trans h)
      simp [hne, eq_comm]

theorem othersSince_silent (h : e.key? = none) : othersSince k (e :: past) = othersSince k past := by
  unfold othersSince
  rw [List.takeWhile_cons_of_pos (by simp [h]), List.filterMap_cons, h]

theorem self_notMem_othersSince (k : κ) (past : History κ) : k ∉ othersSince k past := by
  induction past with
  | nil => exact List.not_mem_nil
  | cons e past ih =>
    rw [mem_othersSince_cons]
    rintro ⟨hne, hk | hk⟩
    · exact hne hk
    · exact ih hk

/-- Asking for another key makes the others no fewer. -/
theorem length_othersSince_le (h : e.key? ≠ some k) :
    (othersSince k past).length ≤ (othersSince k (e :: past)).length :=
  ((nodup_othersSince k past).subperm fun _ hk' => mem_othersSince_cons.2 ⟨h, .inr hk'⟩).length_le

theorem askedAt?_mem_readings (h : askedAt? k past = some t) : t ∈ past.readings := by
  induction past with
  | nil => cases h
  | cons e past ih =>
    rw [askedAt?] at h
    rw [readings, List.mem_filterMap]
    split at h
    · exact ⟨e, List.mem_cons_self, h⟩
    · obtain ⟨d, hd, hdt⟩ := List.mem_filterMap.1 (ih h)
      exact ⟨d, List.mem_cons_of_mem e hd, hdt⟩

theorem storedAt?_mem_readings (h : storedAt? k past = some t) : t ∈ past.readings := by
  induction past with
  | nil => cases h
  | cons e past ih =>
    cases e with
    | cleared => cases h
    | found k' now => exact List.mem_cons_of_mem now (ih h)
    | purged now => exact List.mem_cons_of_mem now (ih h)
    | stored k' now =>
      rw [storedAt?] at h
      split at h
      · rw [← Option.some.inj h]
        exact List.mem_cons_self
      · exact List.mem_cons_of_mem now (ih h)

end History

open History

variable {κ ν : Type} [DecidableEq κ]

/-- What the history of a store says of its entries. -/
structure Timed.Tracks (past : History κ) (c : Timed κ ν) : Prop where
  nodup : (c.entries.map Entry.key).Nodup
  room : c.size ≤ c.capacity
  used_lt : ∀ e ∈ c.entries, e.used < c.uses
  used_inj : ∀ e ∈ c.entries, ∀ f ∈ c.entries, e.used = f.used → e.key = f.key
  /-- entries live from when they were put in -/
  expires : ∀ e ∈ c.entries, ∃ t, storedAt? e.key past = some t ∧ t.add? c.ttl = some e.expires
  /-- the numbers of the last uses tell which key was asked for later -/
  recent : ∀ e ∈ c.entries, ∀ f ∈ c.entries, e.used < f.used ↔ f.key ∈ othersSince e.key past

/-- A key is lost only by expiry or to as many other keys as there is room for. -/
def Timed.Keeps (past : History κ) (c : Timed κ ν) : Prop :=
  ∀ k t x, storedAt? k past = some t → t.add? c.ttl = some x →
    (∃ e ∈ c.entries, e.key = k) ∨ c.capacity ≤ (othersSince k past).length ∨
      ∃ r ∈ past.readings, r.lt x = false

/-- While the clock stands, no key is lost that was asked for after one that is still held and lives:
its entry lives too, or stands behind the other one and cannot be dropped before it. -/
def Timed.Stands (past : History κ) (c : Timed κ ν) : Prop :=
  past.Ascending → ∀ e ∈ c.entries, ∀ t, askedAt? e.key past = some t →
    (∀ r ∈ past.readings, r.le t = true) → t.lt e.expires = true → ∀ k ∈ othersSince e.key past,
      ∃ f ∈ c.entries, f.key = k ∧ (t.lt f.expires = true ∨ [e, f].Sublist c.entries)

/-- A store that is as its history tells. -/
structure Timed.Fits (past : History κ) (c : Timed κ ν) : Prop extends c.Tracks past where
  keeps : c.Keeps past
  stands : c.Stands past

namespace Timed

variable {past : History κ} {c c' : Timed κ ν} {e e₀ f : Entry κ ν} {now t x : Number} {k : κ} {v : ν}

namespace Tracks

theorem eq_of_key (h : c.Tracks past) (he : e ∈ c.entries) (hf : f ∈ c.entries)
    (hkey : e.key = f.key) : e = f := List.inj_on_of_nodup_map h.nodup he hf hkey

theorem find?_eq (h : c.Tracks past) (he : e ∈ c.entries) : c.find? e.key = some e := by
  cases hfind : c.find? e.key with
  | none => exact absurd rfl (find?_isNone_iff.1 (by rw [hfind]; rfl) e he)
  | some f =>
    obtain ⟨hf, hkey⟩ := exists_of_find? hfind
    rw [h.eq_of_key hf he hkey]

/-- The time at which an entry expires is told by its key. -/
theorem expires_eq (h : c.Tracks past) (he : e ∈ c.entries) (ht : storedAt? e.key past = some t)
    (hx : t.add? c.ttl = some x) : e.expires = x := by
  obtain ⟨t', ht', hx'⟩ := h.expires e he
  rw [Option.some.inj (ht'.symm.trans ht)] at hx'
  exact Option.some.inj (hx'.symm.trans hx)

/-- If no entry was used before this one, then all others were asked for after it. -/
theorem size_le_othersSince (h : c.Tracks past) (he : e ∈ c.entries)
    (hleast : ∀ f ∈ c.entries, e.used ≤ f.used) (habsent : ∀ f ∈ c.entries, f.key ≠ k) :
    c.size ≤ (othersSince e.key (.stored k now :: past)).length := by
  have hsub : k :: (c.entries.map Entry.key).erase e.key ⊆
      othersSince e.key (.stored k now :: past) := by
    intro j hj
    refine mem_othersSince_cons.2 ⟨fun hk => habsent e he (Option.some.inj hk).symm, ?_⟩
    rcases List.mem_cons.1 hj with rfl | hj
    · exact .inl rfl
    · obtain ⟨hne, hj⟩ := h.nodup.mem_erase_iff.1 hj
      obtain ⟨f, hf, rfl⟩ := List.mem_map.1 hj
      have hlt : e.used < f.used :=
        Nat.lt_of_le_of_ne (hleast f hf) fun heq => hne (h.used_inj e he f hf heq).symm
      exact .inr ((h.recent e he f hf).1 hlt)
  have hnodup : (k :: (c.entries.map Entry.key).erase e.key).Nodup := by
    refine List.nodup_cons.2 ⟨fun hmem => ?_, h.nodup.erase _⟩
    obtain ⟨f, hf, hfk⟩ := List.mem_map.1 (List.mem_of_mem_erase hmem)
    exact habsent f hf hfk
  have hlength := (hnodup.subperm hsub).length_le
  rw [List.length_cons, List.length_erase_of_mem (List.mem_map_of_mem he), List.length_map] at hlength
  have hpos : 0 < c.entries.length := List.length_pos_of_mem he
  show c.entries.length ≤ _
  omega

end Tracks

/-! ## Nothing happened yet, or everything was dropped -/

theorem fits_of_empty (h : c.entries = []) (hstored : ∀ k, storedAt? k past = none) :
    c.Fits past where
  nodup := by rw [h]; exact List.nodup_nil
  room := by rw [size, h]; exact Nat.zero_le _
  used_lt := by rw [h]; nofun
  used_inj := by rw [h]; nofun
  expires := by rw [h]; nofun
  recent := by rw [h]; nofun
  keeps k t x ht := by rw [hstored k] at ht; cases ht
  stands _ := by rw [h]; nofun

theorem fits_empty (capacity : Nat) (ttl : Number) : (empty capacity ttl : Timed κ ν).Fits [] :=
  fits_of_empty rfl fun _ => rfl

theorem fits_cleared (c : Timed κ ν) (past : History κ) : c.clear.Fits (.cleared :: past) :=
  fits_of_empty rfl fun _ => rfl

/-- The number of evictions is not in the history. -/
theorem Fits.evictions_irrelevant (h : c.Fits past) (n : Nat) :
    ({ c with evictions := n } : Timed κ ν).Fits past where
  nodup := h.nodup
  room := h.room
  used_lt := h.used_lt
  used_inj := h.used_inj
  expires := h.expires
  recent := h.recent
  keeps := h.keeps
  stands := h.stands

/-! ## Expired entries are dropped -/

theorem Tracks.purged (h : c.Tracks past) (now : Number) :
    (c.expire now).Tracks (.purged now :: past) := by
  have hmem : ∀ {e}, e ∈ (c.expire now).entries → e ∈ c.entries := fun he =>
    (c.expire_sublist now).subset he
  refine
    { nodup := h.nodup.sublist ((c.expire_sublist now).map Entry.key)
      room := Nat.le_trans (c.expire_sublist now).length_le h.room
      used_lt := fun e he => h.used_lt e (hmem he)
      used_inj := fun e he f hf => h.used_inj e (hmem he) f (hmem hf)
      expires := fun e he => h.expires e (hmem he)
      recent := fun e he f hf => ?_ }
  rw [othersSince_silent rfl]
  exact h.recent e (hmem he) f (hmem hf)

theorem Keeps.purged (h : c.Keeps past) (htracks : c.Tracks past) (now : Number) :
    (c.expire now).Keeps (.purged now :: past) := by
  intro k t x ht hx
  rw [othersSince_silent rfl]
  rcases h k t x ht hx with ⟨e, he, rfl⟩ | hcrowded | ⟨r, hr, hlate⟩
  · cases hlive : now.lt x with
    | false => exact .inr (.inr ⟨now, List.mem_cons_self, hlive⟩)
    | true =>
      rw [← htracks.expires_eq he ht hx] at hlive
      exact .inl ⟨e, mem_expire_of_isLive he hlive, rfl⟩
  · exact .inr (.inl hcrowded)
  · exact .inr (.inr ⟨r, List.mem_cons_of_mem now hr, hlate⟩)

theorem Stands.purged (h : c.Stands past) (now : Number) :
    (c.expire now).Stands (.purged now :: past) := by
  intro hascending e he t ht hstill hlive k hk
  rw [othersSince_silent rfl] at hk
  have hnow : now.le t = true := hstill now List.mem_cons_self
  obtain ⟨f, hf, hkey, hheld⟩ := h hascending.of_cons e ((c.expire_sublist now).subset he) t ht
    (fun r hr => hstill r (List.mem_cons_of_mem now hr)) hlive k hk
  rcases hheld with hflive | hbehind
  · exact ⟨f, mem_expire_of_isLive hf (Number.lt_of_le_of_lt hnow hflive), hkey, .inl hflive⟩
  · have hbehind' : [e, f].Sublist (c.expire now).entries :=
      pair_sublist_dropWhile hbehind (not_isLive_eq_false (Number.lt_of_le_of_lt hnow hlive))
    exact ⟨f, hbehind'.subset (by simp), hkey, .inr hbehind'⟩

theorem Fits.purged (h : c.Fits past) (now : Number) : (c.expire now).Fits (.purged now :: past) where
  toTracks := h.toTracks.purged now
  keeps := h.keeps.purged h.toTracks now
  stands := h.stands.purged now

/-! ## A key is looked up and found -/

theorem mem_touch : e ∈ (c.touch k).entries ↔ ∃ d ∈ c.entries, d.usedAt k c.uses = e := List.mem_map

theorem Tracks.found (h : c.Tracks past) (now : Number) (k : κ) :
    (c.touch k).Tracks (.found k now :: past) := by
  have hkeys : (c.touch k).entries.map Entry.key = c.entries.map Entry.key := by
    rw [touch_entries, List.map_map]
    exact List.map_congr_left fun e _ => Entry.key_usedAt
  have hsize : (c.touch k).size = c.size := List.length_map _
  refine
    { nodup := hkeys ▸ h.nodup
      room := hsize ▸ h.room
      used_lt := fun e he => ?_
      used_inj := fun e he f hf heq => ?_
      expires := fun e he => ?_
      recent := fun e he f hf => ?_ }
  all_goals obtain ⟨d, hd, rfl⟩ := mem_touch.1 he
  · have hlt := h.used_lt d hd
    rw [Entry.used_usedAt]
    show _ < c.uses + 1
    split <;> omega
  · obtain ⟨d', hd', rfl⟩ := mem_touch.1 hf
    have hlt := h.used_lt d hd
    have hlt' := h.used_lt d' hd'
    rw [Entry.used_usedAt, Entry.used_usedAt] at heq
    rw [Entry.key_usedAt, Entry.key_usedAt]
    by_cases hk : d.key = k <;> by_cases hk' : d'.key = k
    · rw [hk, hk']
    · rw [if_pos hk, if_neg hk'] at heq
      omega
    · rw [if_neg hk, if_pos hk'] at heq
      omega
    · rw [if_neg hk, if_neg hk'] at heq
      exact h.used_inj d hd d' hd' heq
  · rw [Entry.key_usedAt, Entry.expires_usedAt]
    exact h.expires d hd
  · obtain ⟨d', hd', rfl⟩ := mem_touch.1 hf
    have hlt := h.used_lt d hd
    have hlt' := h.used_lt d' hd'
    rw [Entry.used_usedAt, Entry.used_usedAt, Entry.key_usedAt, Entry.key_usedAt, mem_othersSince_cons]
    simp only [StoreEvent.key?, ne_eq, Option.some.injEq]
    by_cases hk : d.key = k
    · rw [if_pos hk]
      refine iff_of_false ?_ fun hothers => hothers.1 hk.symm
      split <;> omega
    · rw [if_neg hk]
      by_cases hk' : d'.key = k
      · rw [if_pos hk']
        exact iff_of_true hlt ⟨Ne.symm hk, .inl hk'.symm⟩
      · rw [if_neg hk', h.recent d hd d' hd']
        exact ⟨fun hothers => ⟨Ne.symm hk, .inr hothers⟩,
          fun hothers => hothers.2.resolve_left (Ne.symm hk')⟩

theorem Keeps.found (h : c.Keeps past) (he₀ : e₀ ∈ c.entries) (now : Number) :
    (c.touch e₀.key).Keeps (.found e₀.key now :: past) := by
  have hheld : ∀ e ∈ c.entries, ∃ f ∈ (c.touch e₀.key).entries, f.key = e.key := fun e he =>
    ⟨e.usedAt e₀.key c.uses, List.mem_map_of_mem he, Entry.key_usedAt⟩
  intro k t x ht hx
  rcases h k t x ht hx with ⟨e, he, rfl⟩ | hcrowded | ⟨r, hr, hlate⟩
  · exact .inl (hheld e he)
  · by_cases hk : e₀.key = k
    · exact .inl (hk ▸ hheld e₀ he₀)
    · refine .inr (.inl (Nat.le_trans hcrowded (length_othersSince_le ?_)))
      exact fun heq => hk (Option.some.inj heq)
  · exact .inr (.inr ⟨r, List.mem_cons_of_mem now hr, hlate⟩)

theorem Stands.found (h : c.Stands past) (he₀ : e₀ ∈ c.entries) (hlive₀ : now.lt e₀.expires = true) :
    (c.touch e₀.key).Stands (.found e₀.key now :: past) := by
  intro hascending e he t ht hstill hlive k hk
  obtain ⟨d, hd, rfl⟩ := mem_touch.1 he
  rw [Entry.key_usedAt] at ht hk
  rw [Entry.expires_usedAt] at hlive
  obtain ⟨hkey, hothers⟩ := mem_othersSince_cons.1 hk
  have hasked : askedAt? d.key past = some t := by
    rwa [askedAt?, if_neg hkey] at ht
  obtain ⟨hlast, hearlier⟩ := List.pairwise_cons.1 hascending
  rcases hothers with hself | hothers
  · -- the clock has not moved since, so what lives now lived then
    obtain rfl : e₀.key = k := Option.some.inj hself
    have htnow : t.le now = true := hlast t (askedAt?_mem_readings hasked)
    refine ⟨e₀.usedAt e₀.key c.uses, List.mem_map_of_mem he₀, Entry.key_usedAt, .inl ?_⟩
    rw [Entry.expires_usedAt]
    exact Number.lt_of_le_of_lt htnow hlive₀
  · obtain ⟨f, hf, hfkey, hheld⟩ := h hearlier d hd t hasked
      (fun r hr => hstill r (List.mem_cons_of_mem now hr)) hlive k hothers
    refine ⟨f.usedAt e₀.key c.uses, List.mem_map_of_mem hf, by rw [Entry.key_usedAt, hfkey], ?_⟩
    rw [Entry.expires_usedAt]
    exact hheld.imp id fun hbehind => hbehind.map (Entry.usedAt e₀.key c.uses)

theorem Fits.found (h : c.Fits past) (hget : c.get? now k = some (v, c')) :
    c'.Fits (.found k now :: past) := by
  obtain ⟨e₀, hfind, hlive, -, rfl⟩ := get?_eq_some_iff.1 hget
  obtain ⟨he₀, rfl⟩ := exists_of_find? hfind
  exact
    { toTracks := h.toTracks.found now e₀.key
      keeps := h.keeps.found he₀ now
      stands := h.stands.found he₀ hlive }

/-! ## A value is put in -/

theorem mem_insert :
    e ∈ (c.insert k v x).entries ↔
      e = ⟨k, v, x, c.uses⟩ ∨ e ∈ c.entries ∧ c.stays k e = true := by
  rw [insert_entries, List.mem_append, List.mem_singleton, List.mem_filter, or_comm]

/-- The new entry stands behind the others. -/
theorem pair_sublist_insert (he : e ∈ c.entries) (hstays : c.stays k e = true) :
    [e, ⟨k, v, x, c.uses⟩].Sublist (c.insert k v x).entries :=
  (List.singleton_sublist.2 (List.mem_filter.2 ⟨he, hstays⟩)).append (List.Sublist.refl _)

theorem Tracks.stored (h : c.Tracks past) (hroom : 0 < c.capacity) (hx : now.add? c.ttl = some x)
    (k : κ) (v : ν) : (c.insert k v x).Tracks (.stored k now :: past) := by
  refine
    { nodup := ?_
      room := ?_
      used_lt := fun e he => ?_
      used_inj := fun e he f hf heq => ?_
      expires := fun e he => ?_
      recent := fun e he f hf => ?_ }
  · rw [insert_entries, List.map_append, List.map_singleton, List.nodup_append_comm]
    refine List.nodup_cons.2 ⟨fun hmem => ?_, h.nodup.sublist (List.filter_sublist.map Entry.key)⟩
    obtain ⟨e, he, hk⟩ := List.mem_map.1 hmem
    exact (stays_iff.1 (List.mem_filter.1 he).2).1 hk
  · have hlt := length_stays_lt hroom h.room (k := k)
    rw [size, insert_entries, List.length_append, List.length_singleton]
    exact hlt
  · show e.used < c.uses + 1
    rcases mem_insert.1 he with rfl | ⟨he, -⟩
    · exact Nat.lt_succ_self _
    · exact Nat.lt_succ_of_lt (h.used_lt e he)
  · rcases mem_insert.1 he with rfl | ⟨he, -⟩ <;> rcases mem_insert.1 hf with rfl | ⟨hf, -⟩
    · rfl
    · exact absurd heq (Nat.ne_of_gt (h.used_lt f hf))
    · exact absurd heq (Nat.ne_of_lt (h.used_lt e he))
    · exact h.used_inj e he f hf heq
  · rcases mem_insert.1 he with rfl | ⟨he, hstays⟩
    · exact ⟨now, if_pos rfl, hx⟩
    · obtain ⟨t, ht, hexpires⟩ := h.expires e he
      refine ⟨t, ?_, hexpires⟩
      rw [storedAt?, if_neg (stays_iff.1 hstays).1.symm, ht]
  · rw [mem_othersSince_cons]
    simp only [StoreEvent.key?, ne_eq, Option.some.injEq]
    rcases mem_insert.1 he with rfl | ⟨he, hstays⟩
    · refine iff_of_false ?_ fun hothers => hothers.1 rfl
      rcases mem_insert.1 hf with rfl | ⟨hf, -⟩
      · exact Nat.lt_irrefl _
      · exact Nat.lt_asymm (h.used_lt f hf)
    · have hk : k ≠ e.key := (stays_iff.1 hstays).1.symm
      rcases mem_insert.1 hf with rfl | ⟨hf, hfstays⟩
      · exact iff_of_true (h.used_lt e he) ⟨hk, .inl rfl⟩
      · rw [h.recent e he f hf]
        exact ⟨fun hothers => ⟨hk, .inr hothers⟩,
          fun hothers => hothers.2.resolve_left (stays_iff.1 hfstays).1.symm⟩

theorem Keeps.stored (h : c.Keeps past) (htracks : c.Tracks past) (now x : Number) (k : κ) (v : ν) :
    (c.insert k v x).Keeps (.stored k now :: past) := by
  intro k' t x' ht hx'
  by_cases hk : k = k'
  · exact .inl ⟨⟨k, v, x, c.uses⟩, mem_insert.2 (.inl rfl), hk⟩
  · rw [storedAt?, if_neg hk] at ht
    rcases h k' t x' ht hx' with ⟨e, he, rfl⟩ | hcrowded | ⟨r, hr, hlate⟩
    · rcases c.stays_or (Ne.symm hk) with hstays | ⟨g, hg, hgkey, habsent, hfull, hleast⟩
      · exact .inl ⟨e, mem_insert.2 (.inr ⟨he, hstays⟩), rfl⟩
      · obtain rfl : e = g := htracks.eq_of_key he hg hgkey
        exact .inr (.inl (Nat.le_trans hfull (htracks.size_le_othersSince he hleast habsent)))
    · refine .inr (.inl (Nat.le_trans hcrowded (length_othersSince_le ?_)))
      exact fun heq => hk (Option.some.inj heq)
    · exact .inr (.inr ⟨r, List.mem_cons_of_mem now hr, hlate⟩)

theorem Stands.stored (h : c.Stands past) (htracks : c.Tracks past) (now x : Number) (k : κ) (v : ν) :
    (c.insert k v x).Stands (.stored k now :: past) := by
  intro hascending e he t ht hstill hlive k' hk'
  obtain ⟨hkey, hothers⟩ := mem_othersSince_cons.1 hk'
  rcases mem_insert.1 he with rfl | ⟨he, hstays⟩
  · exact absurd rfl hkey
  · by_cases hk : k = k'
    · exact ⟨⟨k, v, x, c.uses⟩, mem_insert.2 (.inl rfl), hk, .inr (pair_sublist_insert he hstays)⟩
    · have hasked : askedAt? e.key past = some t := by
        rwa [askedAt?, if_neg hkey] at ht
      have hothers : k' ∈ othersSince e.key past :=
        hothers.resolve_left fun heq => hk (Option.some.inj heq)
      obtain ⟨f, hf, rfl, hheld⟩ := h hascending.of_cons e he t hasked
        (fun r hr => hstill r (List.mem_cons_of_mem now hr)) hlive k' hothers
      rcases c.stays_or (Ne.symm hk) with hfstays | ⟨g, hg, hgkey, -, -, hleast⟩
      · refine ⟨f, mem_insert.2 (.inr ⟨hf, hfstays⟩), rfl, hheld.imp id fun hbehind => ?_⟩
        exact (pair_sublist_filter hbehind hstays hfstays).trans (List.sublist_append_left _ _)
      · -- the entry that makes room was used before the one that is still held
        obtain rfl : f = g := htracks.eq_of_key hf hg hgkey
        exact absurd (hleast e he) (Nat.not_le_of_lt ((htracks.recent e he f hf).2 hothers))

theorem Fits.stored (h : c.Fits past) (hroom : 0 < c.capacity) (hx : now.add? c.ttl = some x) (k : κ)
    (v : ν) : (c.insert k v x).Fits (.stored k now :: past) where
  toTracks := h.toTracks.stored hroom hx k v
  keeps := h.keeps.stored h.toTracks now x k v
  stands := h.stands.stored h.toTracks now x k v

/-! ## What a store answers -/

/-- **A key is found only while the value that was last put in under it lives**; looking it up does not
prolong that. -/
theorem Tracks.lives_of_get? (h : c.Tracks past) (hget : c.get? now k = some (v, c')) :
    ∃ t x, storedAt? k past = some t ∧ t.add? c.ttl = some x ∧ now.lt x = true := by
  obtain ⟨e, hfind, hlive, -, -⟩ := get?_eq_some_iff.1 hget
  obtain ⟨he, rfl⟩ := exists_of_find? hfind
  obtain ⟨t, ht, hx⟩ := h.expires e he
  exact ⟨t, e.expires, ht, hx, hlive⟩

/-- **A key that lives and has not been crowded out is found.** -/
theorem Fits.get?_isSome (h : c.Fits past) (hclock : ∀ r ∈ past.readings, r.le now = true)
    (ht : storedAt? k past = some t) (hx : t.add? c.ttl = some x) (hlive : now.lt x = true)
    (hfew : (othersSince k past).length < c.capacity) : (c.get? now k).isSome = true := by
  rcases h.keeps k t x ht hx with ⟨e, he, rfl⟩ | hcrowded | ⟨r, hr, hlate⟩
  · rw [← h.expires_eq he ht hx] at hlive
    rw [get?_eq_some_iff.2 ⟨e, h.find?_eq he, hlive, rfl, rfl⟩]
    rfl
  · exact absurd hfew (Nat.not_lt_of_le hcrowded)
  · rw [Number.lt_of_le_of_lt (hclock r hr) hlive] at hlate
    exact absurd hlate nofun

/-- **A key that has been crowded out since the clock last moved is not found.** -/
theorem Fits.get?_eq_none (h : c.Fits past) (hascending : past.Ascending)
    (hclock : ∀ r ∈ past.readings, r.le t = true) (ht : askedAt? k past = some t)
    (htnow : t.le now = true) (hmany : c.capacity ≤ (othersSince k past).length) :
    c.get? now k = none := by
  refine get?_eq_none_iff.2 fun e hfind => Bool.eq_false_iff.2 fun hlive => ?_
  obtain ⟨he, rfl⟩ := exists_of_find? hfind
  have hheld := h.stands hascending e he t ht hclock (Number.lt_of_le_of_lt htnow hlive)
  -- then the store would hold the key besides all the others
  have hsub : e.key :: othersSince e.key past ⊆ c.entries.map Entry.key := by
    intro j hj
    rcases List.mem_cons.1 hj with rfl | hj
    · exact List.mem_map_of_mem he
    · obtain ⟨f, hf, rfl, -⟩ := hheld j hj
      exact List.mem_map_of_mem hf
  have hnodup : (e.key :: othersSince e.key past).Nodup :=
    List.nodup_cons.2 ⟨self_notMem_othersSince _ _, nodup_othersSince _ _⟩
  have hlength := (hnodup.subperm hsub).length_le
  rw [List.length_cons, List.length_map] at hlength
  have hroom : c.entries.length ≤ c.capacity := h.room
  omega

end Timed

end Recurrence
