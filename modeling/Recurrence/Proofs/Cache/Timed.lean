import Mathlib.Data.List.Nodup
import Mathlib.Data.List.TakeWhile
import Recurrence.Cache.Timed
import Recurrence.Proofs.Numeric.Number

/-!
# What a store does to its entries

Each operation of a store is described by what it does to the list of entries: a lookup changes no
entry but the one that it finds (`Timed.get?_eq_some_iff`), and dropping expired entries keeps all that
live (`Timed.mem_expire_of_isLive`).

Putting a value in drops expired entries, keeps of the others those that stay and appends a new one
(`Timed.put_eq_ok_iff`, `Timed.insert_entries`).  Besides an entry with the same key only one has to
go, if the store is full: one whose last use lies furthest back (`Timed.stays_or`).  So there is room
for the new one (`Timed.length_stays_lt`).
-/

namespace Recurrence

namespace Entry

variable {κ ν : Type} [DecidableEq κ]

/-- The entry after a use of a key, with the number of that use. -/
def usedAt (k : κ) (n : Nat) (e : Entry κ ν) : Entry κ ν :=
  if e.key = k then { e with used := n } else e

variable {k : κ} {n : Nat} {e : Entry κ ν}

@[simp] theorem key_usedAt : (e.usedAt k n).key = e.key := by
  unfold usedAt
  split <;> rfl

@[simp] theorem value_usedAt : (e.usedAt k n).value = e.value := by
  unfold usedAt
  split <;> rfl

@[simp] theorem expires_usedAt : (e.usedAt k n).expires = e.expires := by
  unfold usedAt
  split <;> rfl

theorem used_usedAt : (e.usedAt k n).used = if e.key = k then n else e.used := by
  unfold usedAt
  split <;> rfl

end Entry

section Lists

variable {α : Type} {p : α → Bool} {a b : α} {l : List α}

theorem mem_dropWhile_of_not (ha : a ∈ l) (hp : p a = false) : a ∈ l.dropWhile p := by
  have happend : a ∈ l.takeWhile p ++ l.dropWhile p := by
    rw [List.takeWhile_append_dropWhile]
    exact ha
  refine (List.mem_append.1 happend).resolve_left fun hmem => ?_
  rw [List.mem_takeWhile_imp hmem] at hp
  exact absurd hp nofun

/-- Of two elements in their order, the second is not dropped if the first is not. -/
theorem pair_sublist_dropWhile (h : [a, b].Sublist l) (hp : p a = false) :
    [a, b].Sublist (l.dropWhile p) := by
  induction l with
  | nil => exact absurd (List.sublist_nil.1 h) (List.cons_ne_nil _ _)
  | cons d l ih =>
    by_cases hd : p d = true
    · rw [List.dropWhile_cons_of_pos hd]
      cases h with
      | cons _ h => exact ih h
      | cons_cons _ h => rw [hp] at hd; exact absurd hd nofun
    · rwa [List.dropWhile_cons_of_neg hd]

theorem pair_sublist_filter (h : [a, b].Sublist l) (ha : p a = true) (hb : p b = true) :
    [a, b].Sublist (l.filter p) := by
  have hpair : [a, b].filter p = [a, b] := by
    rw [List.filter_cons_of_pos ha, List.filter_cons_of_pos hb, List.filter_nil]
  rw [← hpair]
  exact h.filter p

end Lists

namespace Timed

variable {κ ν : Type} {c c' : Timed κ ν} {e g : Entry κ ν} {l : List (Entry κ ν)} {now x : Number}

/-! ## Dropping expired entries -/

theorem expire_entries (c : Timed κ ν) (now : Number) :
    (c.expire now).entries = c.entries.dropWhile fun e => !e.isLive now := rfl

theorem expire_sublist (c : Timed κ ν) (now : Number) :
    (c.expire now).entries.Sublist c.entries := List.dropWhile_sublist _

theorem not_isLive_eq_false (h : now.lt e.expires = true) : (!e.isLive now) = false := by
  rw [Entry.isLive, h]
  rfl

theorem mem_expire_of_isLive (he : e ∈ c.entries) (hlive : now.lt e.expires = true) :
    e ∈ (c.expire now).entries :=
  mem_dropWhile_of_not he (not_isLive_eq_false hlive)

/-! ## The entry whose last use lies furthest back -/

theorem leastUsed_eq_none_iff : leastUsed l = none ↔ l = [] := by
  cases l with
  | nil => exact ⟨fun _ => rfl, fun _ => rfl⟩
  | cons e l =>
    refine ⟨fun h => ?_, nofun⟩
    rw [leastUsed] at h
    split at h
    · split at h <;> exact absurd h nofun
    · exact absurd h nofun

theorem leastUsed_spec (h : leastUsed l = some g) : g ∈ l ∧ ∀ e ∈ l, g.used ≤ e.used := by
  induction l generalizing g with
  | nil => exact absurd h nofun
  | cons d l ih =>
    rw [leastUsed] at h
    split at h
    · rename_i f hf
      obtain ⟨hmem, hleast⟩ := ih hf
      split at h
      · rename_i hlt
        rw [← Option.some.inj h]
        refine ⟨List.mem_cons_of_mem d hmem, fun e he => ?_⟩
        rcases List.mem_cons.1 he with rfl | he
        · exact Nat.le_of_lt hlt
        · exact hleast e he
      · rename_i hle
        rw [← Option.some.inj h]
        refine ⟨List.mem_cons_self, fun e he => ?_⟩
        rcases List.mem_cons.1 he with rfl | he
        · exact Nat.le_refl _
        · exact Nat.le_trans (Nat.le_of_not_lt hle) (hleast e he)
    · rename_i hnone
      rw [leastUsed_eq_none_iff.1 hnone, ← Option.some.inj h]
      refine ⟨List.mem_cons_self, fun e he => ?_⟩
      rw [List.mem_singleton.1 he]

variable [DecidableEq κ] {k : κ} {v : ν}

/-! ## Looking up -/

theorem exists_of_find? (h : c.find? k = some e) : e ∈ c.entries ∧ e.key = k := by
  have hkey := List.find?_some (p := fun e : Entry κ ν => decide (e.key = k)) h
  exact ⟨List.mem_of_find?_eq_some h, of_decide_eq_true hkey⟩

theorem find?_isNone_iff : (c.find? k).isNone = true ↔ ∀ e ∈ c.entries, e.key ≠ k := by
  rw [Option.isNone_iff_eq_none, find?, List.find?_eq_none]
  simp only [decide_eq_true_eq, ne_eq]

/-- **A lookup finds an entry that lives**, and changes nothing but its last use. -/
theorem get?_eq_some_iff :
    c.get? now k = some (v, c') ↔
      ∃ e, c.find? k = some e ∧ now.lt e.expires = true ∧ e.value = v ∧ c.touch k = c' := by
  unfold get?
  cases hfind : c.find? k with
  | none => simp
  | some e =>
    by_cases hlive : now.lt e.expires = true
    · simp [Entry.isLive, hlive]
    · simp [Entry.isLive, hlive]

theorem get?_eq_none_iff :
    c.get? now k = none ↔ ∀ e, c.find? k = some e → now.lt e.expires = false := by
  unfold get?
  cases hfind : c.find? k with
  | none => simp
  | some e => cases hlive : now.lt e.expires <;> simp [Entry.isLive, hlive]

theorem touch_entries (c : Timed κ ν) (k : κ) :
    (c.touch k).entries = c.entries.map (Entry.usedAt k c.uses) := rfl

/-! ## Putting in -/

/-- The entry that makes room for a key: the one whose last use lies furthest back, if the store is full
and does not hold the key. -/
def victim? (c : Timed κ ν) (k : κ) : Option (Entry κ ν) :=
  if (c.find? k).isNone && decide (c.capacity ≤ c.size) then leastUsed c.entries else none

/-- Whether an entry stays when a value is put in under a key. -/
def stays (c : Timed κ ν) (k : κ) (e : Entry κ ν) : Bool :=
  decide (e.key ≠ k) && (c.victim? k).all fun g => decide (e.key ≠ g.key)

/-- The store with a new last entry, for which room is made. -/
def insert (c : Timed κ ν) (k : κ) (v : ν) (x : Number) : Timed κ ν where
  capacity := c.capacity
  ttl := c.ttl
  entries := c.entries.filter (c.stays k) ++ [⟨k, v, x, c.uses⟩]
  uses := c.uses + 1
  evictions := c.evictions + if (c.victim? k).isSome then 1 else 0

theorem insert_entries (c : Timed κ ν) (k : κ) (v : ν) (x : Number) :
    (c.insert k v x).entries = c.entries.filter (c.stays k) ++ [⟨k, v, x, c.uses⟩] := rfl

theorem victim?_eq_some (h : c.victim? k = some g) :
    (∀ e ∈ c.entries, e.key ≠ k) ∧ c.capacity ≤ c.size ∧ g ∈ c.entries ∧
      ∀ e ∈ c.entries, g.used ≤ e.used := by
  unfold victim? at h
  split at h
  · rename_i hfull
    rw [Bool.and_eq_true, decide_eq_true_eq, find?_isNone_iff] at hfull
    obtain ⟨hmem, hleast⟩ := leastUsed_spec h
    exact ⟨hfull.1, hfull.2, hmem, hleast⟩
  · cases h

theorem victim?_eq_none (h : c.victim? k = none) (hroom : 0 < c.capacity) :
    (∃ e ∈ c.entries, e.key = k) ∨ c.size < c.capacity := by
  unfold victim? at h
  split at h
  · rename_i hfull
    rw [Bool.and_eq_true, decide_eq_true_eq] at hfull
    have hempty : c.size = 0 := congrArg List.length (leastUsed_eq_none_iff.1 h)
    exact .inr (by omega)
  · rename_i hfull
    rw [Bool.and_eq_true, decide_eq_true_eq, find?_isNone_iff] at hfull
    by_cases hkey : ∃ e ∈ c.entries, e.key = k
    · exact .inl hkey
    · refine .inr (Nat.lt_of_not_le fun hle => hfull ⟨fun e he hk => hkey ⟨e, he, hk⟩, hle⟩)

theorem stays_iff : c.stays k e = true ↔ e.key ≠ k ∧ ∀ g, c.victim? k = some g → e.key ≠ g.key := by
  unfold stays
  cases c.victim? k with
  | none => simp
  | some g => simp

/-- **What does not stay makes room**: it has the key itself, or its last use lies furthest back in a
full store. -/
theorem stays_or (c : Timed κ ν) {k : κ} {e : Entry κ ν} (hk : e.key ≠ k) :
    c.stays k e = true ∨
      ∃ g ∈ c.entries, e.key = g.key ∧ (∀ f ∈ c.entries, f.key ≠ k) ∧ c.capacity ≤ c.size ∧
        ∀ f ∈ c.entries, g.used ≤ f.used := by
  by_cases hstays : c.stays k e = true
  · exact .inl hstays
  · right
    rw [stays_iff] at hstays
    by_contra hnone
    refine hstays ⟨hk, fun g hg hkey => hnone ?_⟩
    obtain ⟨habsent, hfull, hmem, hleast⟩ := victim?_eq_some hg
    exact ⟨g, hmem, hkey, habsent, hfull, hleast⟩

/-- **There is room for one more** beside the entries that stay. -/
theorem length_stays_lt (hroom : 0 < c.capacity) (hsize : c.size ≤ c.capacity) :
    (c.entries.filter (c.stays k)).length < c.capacity := by
  have hgone : ∀ e ∈ c.entries, c.stays k e ≠ true →
      (c.entries.filter (c.stays k)).length < c.size := fun e he hstays =>
    List.length_filter_lt_length_iff_exists.2 ⟨e, he, by simpa using hstays⟩
  cases hvictim : c.victim? k with
  | none =>
    rcases victim?_eq_none hvictim hroom with ⟨e, he, hk⟩ | hlt
    · have hlt := hgone e he fun h => (stays_iff.1 h).1 hk
      omega
    · have hle : (c.entries.filter (c.stays k)).length ≤ c.size := List.length_filter_le _ _
      omega
  | some g =>
    have hlt := hgone g (victim?_eq_some hvictim).2.2.1 fun h => (stays_iff.1 h).2 g hvictim rfl
    omega

theorem evict_eq (h : leastUsed c.entries = some g) :
    c.evict =
      { c with
        entries := c.entries.filter (·.key ≠ g.key)
        evictions := c.evictions + 1 } := by
  unfold evict
  rw [h]

theorem append_of_victim?_none (h : c.victim? k = none) : c.append k v x = c.insert k v x := by
  unfold append insert
  have hstays : c.stays k = fun e => decide (e.key ≠ k) := by
    funext e
    rw [stays, h, Option.all_none, Bool.and_true]
  rw [hstays, h]
  rfl

theorem append_evict (h : c.victim? k = some g) : c.evict.append k v x = c.insert k v x := by
  have hleast : leastUsed c.entries = some g := by
    unfold victim? at h
    split at h
    · exact h
    · cases h
  have hfilter : (c.entries.filter (·.key ≠ g.key)).filter (·.key ≠ k) =
      c.entries.filter (c.stays k) := by
    rw [List.filter_filter]
    refine List.filter_congr fun e _ => ?_
    rw [stays, h, Option.all_some]
  unfold append insert
  rw [evict_eq hleast, h]
  simp only [hfilter, Option.isSome_some, if_true]

/-- **Putting a value in** drops expired entries, makes room and appends. -/
theorem put_eq (c : Timed κ ν) (now : Number) (k : κ) (v : ν) (hroom : 0 < c.capacity) :
    c.put now k v =
      match now.add? c.ttl with
      | none => .error .noExpiry
      | some x => .ok ((c.expire now).insert k v x) := by
  have hzero : (c.expire now).capacity ≠ 0 := Nat.pos_iff_ne_zero.1 hroom
  have httl : (c.expire now).ttl = c.ttl := rfl
  unfold put
  simp only [if_neg hzero, httl]
  cases now.add? c.ttl with
  | none => rfl
  | some x =>
    simp only
    split
    · rename_i hfull
      cases hvictim : (c.expire now).victim? k with
      | some g => rw [append_evict hvictim]
      | none =>
        -- a full store is not empty
        exfalso
        have hleast : leastUsed (c.expire now).entries = none := by
          unfold victim? at hvictim
          rwa [if_pos hfull] at hvictim
        rw [Bool.and_eq_true, decide_eq_true_eq] at hfull
        have hempty : (c.expire now).size = 0 :=
          congrArg List.length (leastUsed_eq_none_iff.1 hleast)
        omega
    · rename_i hroomy
      rw [append_of_victim?_none (if_neg hroomy)]

end Timed

end Recurrence
