import Recurrence.Form.Event
import Recurrence.Proofs.Cache.Run
import Recurrence.Proofs.Calendar.Stamp
import Recurrence.Proofs.Event.Faulty
import Recurrence.Proofs.Expansion.Survivors
import Recurrence.Rule.Preset
import Recurrence.Rule.Summary

/-!
# Only instants count

A caller gives times as stamps, on a clock of universal time or of any other offset.  Two stamps may
show different dates and still name the same instant (`Stamp.SameTime`).

Nothing depends on more than the instants.  Series that are made of the same instants differ at most in
the order of their cancelled starts (`Times.Alike.series`), and then they have the same occurrences and
the same key, so that a cache cannot tell them apart (`Times.Alike.interchangeable`).  Every edit looks
at the instant of its stamp alone.  The texts of cancelled starts are kept as they are, but what is kept
does not depend on how they spell their instants (`EventRecord.split_of_respelled`,
`excludeOccurrence_of_respelled`).

`Times.Alike.sameResults` puts all this together.
-/

namespace Recurrence

/-! ## The same instants -/

namespace Stamp

/-- Two stamps name the same instant of the calendar. -/
def SameTime (a b : Stamp) : Prop := a.InCalendar ∧ a.utcMicros = b.utcMicros

theorem SameTime.symm {a b : Stamp} (h : a.SameTime b) : b.SameTime a := by
  obtain ⟨hcalendar, hmicros⟩ := h
  unfold InCalendar at hcalendar
  rw [hmicros] at hcalendar
  exact ⟨hcalendar, hmicros.symm⟩

theorem SameTime.utc_eq {a b : Stamp} (h : a.SameTime b) : a.utc = b.utc := by
  unfold utc
  rw [h.2]

theorem SameTime.exists_utc {a b : Stamp} (h : a.SameTime b) :
    ∃ t, a.utc = .ok t ∧ b.utc = .ok t := by
  obtain ⟨t, ht⟩ := exists_utc_iff.2 h.1
  exact ⟨t, ht, h.utc_eq ▸ ht⟩

end Stamp

/-- The stamps name the same instants, in any order and any number of times. -/
def SameTimes (l l' : List Stamp) : Prop :=
  (∀ a ∈ l, ∃ b ∈ l', a.SameTime b) ∧ ∀ b ∈ l', ∃ a ∈ l, a.SameTime b

theorem SameTimes.nil : SameTimes [] [] :=
  ⟨fun _ ha => absurd ha List.not_mem_nil, fun _ hb => absurd hb List.not_mem_nil⟩

theorem SameTimes.singleton {a b : Stamp} (h : a.SameTime b) : SameTimes [a] [b] :=
  ⟨List.forall_mem_singleton.2 ⟨b, List.mem_cons_self, h⟩,
    List.forall_mem_singleton.2 ⟨a, List.mem_cons_self, h⟩⟩

theorem SameTimes.instantsOf {l l' : List Stamp} (h : SameTimes l l') :
    ∃ i i', instantsOf l = .ok i ∧ instantsOf l' = .ok i' ∧ ∀ t, t ∈ i ↔ t ∈ i' := by
  obtain ⟨i, hi⟩ := exists_instantsOf_iff.2 fun a ha =>
    let ⟨_, _, hab⟩ := h.1 a ha
    Stamp.exists_utc_iff.2 hab.1
  obtain ⟨i', hi'⟩ := exists_instantsOf_iff.2 fun b hb =>
    let ⟨_, _, hab⟩ := h.2 b hb
    Stamp.exists_utc_iff.2 hab.symm.1
  refine ⟨i, i', hi, hi', fun t => ?_⟩
  rw [mem_of_instantsOf hi, mem_of_instantsOf hi']
  constructor
  · rintro ⟨a, ha, ht⟩
    obtain ⟨b, hb, hab⟩ := h.1 a ha
    exact ⟨b, hb, hab.utc_eq ▸ ht⟩
  · rintro ⟨b, hb, ht⟩
    obtain ⟨a, ha, hab⟩ := h.2 b hb
    exact ⟨a, ha, hab.utc_eq.trans ht⟩

namespace Moment

/-- Two moments begin with the same instant. -/
def SameOpening (m m' : Moment) : Prop :=
  m.InCalendar ∧ m'.InCalendar ∧ m.openingMicros = m'.openingMicros

/-- Two moments end with the same instant. -/
def SameClosing (m m' : Moment) : Prop :=
  m.InCalendar ∧ m'.InCalendar ∧ m.closingMicros = m'.closingMicros

theorem SameOpening.exists_opening {m m' : Moment} (h : m.SameOpening m') :
    ∃ t, m.opening = .ok t ∧ m'.opening = .ok t := by
  obtain ⟨t, ht⟩ := (bounds_of_inCalendar h.1).1
  exact ⟨t, ht, opening_eq_ok_iff.2 ((opening_eq_ok_iff.1 ht).trans h.2.2)⟩

theorem SameClosing.exists_closing {m m' : Moment} (h : m.SameClosing m') :
    ∃ t, m.closing = .ok t ∧ m'.closing = .ok t := by
  obtain ⟨t, ht⟩ := (bounds_of_inCalendar h.1).2
  exact ⟨t, ht, closing_eq_ok_iff.2 ((closing_eq_ok_iff.1 ht).trans h.2.2)⟩

end Moment

/-- The times that a caller gives: those of an event, a window with further cancelled starts, and the
point at which the event is edited. -/
structure Times where
  start : Stamp
  finish : Stamp
  exceptions : List Stamp
  lower : Moment
  upper : Moment
  extra : List Stamp
  point : Stamp

namespace Times

/-- The same instants in two notations. -/
structure Alike (x y : Times) : Prop where
  start : x.start.SameTime y.start
  finish : x.finish.SameTime y.finish
  exceptions : SameTimes x.exceptions y.exceptions
  lower : x.lower.SameOpening y.lower
  upper : x.upper.SameClosing y.upper
  extra : SameTimes x.extra y.extra
  point : x.point.SameTime y.point

/-- The series with these times. -/
def series (x : Times) (id rule : String) : Check Series :=
  Series.ofForm (.text id) (.stamp x.start) (.stamp x.finish) (.text rule)
    (x.exceptions.map .stamp)

/-- The stored event with these times. -/
def record (x : Times) (id : String) (recurrence : Option String) (texts : List String) :
    Check EventRecord :=
  EventRecord.ofForm (Json.object [("id", .text id), ("start", .moment (.stamp x.start)),
    ("end", .moment (.stamp x.finish)), ("recurrence", (recurrence.map Value.text).getD .null),
    ("exceptions", .list (texts.map .text))])

def request (x : Times) (s : Series) : ExpansionRequest := ⟨s, x.lower, x.upper, x.extra⟩

end Times

/-! ## Forms -/

theorem checkInstant_of_utc {s : Stamp} {t : Instant} (h : s.utc = .ok t) :
    FormTime.checkInstant (.moment (.stamp s)) = .ok t := by
  unfold FormTime.checkInstant
  simp only [FormTime.check, h]

theorem instantsOfMoments_of_instantsOf {l : List Stamp} {i : List Instant}
    (h : instantsOf l = .ok i) : instantsOfMoments (l.map .stamp) = .ok i := by
  have hall : ∀ n, Check.all (fun m => FormTime.checkInstant (.moment m)) n (l.map .stamp) = .ok i := by
    induction l generalizing i with
    | nil =>
      intro n
      exact congrArg Except.ok (Except.ok.inj h)
    | cons s l ih =>
      intro n
      obtain ⟨t, ht⟩ := exists_instantsOf_iff.1 ⟨i, h⟩ s List.mem_cons_self
      obtain ⟨rest, hrest⟩ := exists_instantsOf_iff.2 fun x hx =>
        exists_instantsOf_iff.1 ⟨i, h⟩ x (List.mem_cons_of_mem s hx)
      simp only [instantsOf, ht, hrest] at h
      obtain rfl : t :: rest = i := Except.ok.inj h
      rw [List.map_cons, Check.all, ih hrest, checkInstant_of_utc ht]
      rfl
  exact hall 0

theorem texts_map_text (texts : List String) : Field.texts (.list (texts.map .text)) = .ok texts := by
  have hall : ∀ n, Check.all Field.text n (texts.map .text) = .ok texts := by
    induction texts with
    | nil => exact fun _ => rfl
    | cons s texts ih =>
      intro n
      rw [List.map_cons, Check.all, ih]
      rfl
  exact hall 0

namespace Times

variable {x : Times} {start finish : Instant} {exceptions : List Instant}

theorem series_eq (hstart : x.start.utc = .ok start) (hfinish : x.finish.utc = .ok finish)
    (hexceptions : instantsOf x.exceptions = .ok exceptions) (id rule : String) :
    x.series id rule = .ok ⟨id, start, finish, rule, exceptions⟩ := by
  unfold series Series.ofForm
  rw [checkInstant_of_utc hstart, checkInstant_of_utc hfinish,
    instantsOfMoments_of_instantsOf hexceptions]
  rfl

theorem record_eq (hstart : x.start.utc = .ok start) (hfinish : x.finish.utc = .ok finish)
    (id : String) (recurrence : Option String) (texts : List String) :
    x.record id recurrence texts = .ok ⟨id, start, finish, recurrence, texts⟩ := by
  have hrecurrence : Field.textOrNull ((recurrence.map Value.text).getD .null) = .ok recurrence := by
    cases recurrence <;> rfl
  simp [record, EventRecord.ofForm, Json.object, Field.required, Field.optional, Value.field?,
    checkInstant_of_utc hstart, checkInstant_of_utc hfinish, texts_map_text, hrecurrence, Field.text,
    Check.at, Check.and, Check.map₂]

end Times

/-! ## Expanding -/

/-- The same series, but for the order of the cancelled starts. -/
structure Series.Alike (s s' : Series) : Prop where
  id : s.id = s'.id
  start : s.start = s'.start
  finish : s.finish = s'.finish
  rule : s.rule = s'.rule
  exceptions : ∀ t, t ∈ s.exceptions ↔ t ∈ s'.exceptions

namespace Times.Alike

variable {x y : Times} {s s' : Series}

/-- **The same instants make the same series.** -/
theorem series (h : x.Alike y) (id rule : String) :
    ∃ s s', x.series id rule = .ok s ∧ y.series id rule = .ok s' ∧ s.Alike s' := by
  obtain ⟨start, hstart, hstart'⟩ := h.start.exists_utc
  obtain ⟨finish, hfinish, hfinish'⟩ := h.finish.exists_utc
  obtain ⟨i, i', hi, hi', hmem⟩ := h.exceptions.instantsOf
  exact ⟨_, _, series_eq hstart hfinish hi id rule, series_eq hstart' hfinish' hi' id rule,
    ⟨rfl, rfl, rfl, rfl, hmem⟩⟩

/-- **The same instants make the same key.** -/
theorem key (h : x.Alike y) (hs : s.Alike s') :
    ∃ k, (x.request s).key? = .ok k ∧ (y.request s').key? = .ok k := by
  obtain ⟨lower, hlower, hlower'⟩ := h.lower.exists_opening
  obtain ⟨upper, hupper, hupper'⟩ := h.upper.exists_closing
  obtain ⟨i, i', hi, hi', hmem⟩ := h.extra.instantsOf
  have hseconds : s.seconds = s'.seconds := by
    unfold Series.seconds Series.duration
    rw [hs.start, hs.finish]
  have hkey : CacheKey.of s (Stamp.ofInstant lower) (Stamp.ofInstant upper) i =
      CacheKey.of s' (Stamp.ofInstant lower) (Stamp.ofInstant upper) i' := by
    refine CacheKey.of_eq_iff.2 ⟨hs.id, rfl, rfl, hs.rule, hseconds, fun t => ?_⟩
    rw [List.mem_append, List.mem_append, hs.exceptions, hmem]
  refine ⟨CacheKey.of s (Stamp.ofInstant lower) (Stamp.ofInstant upper) i, ?_, ?_⟩
  · simp only [request, ExpansionRequest.key?, hlower, hupper, hi]
  · simp only [request, ExpansionRequest.key?, hlower', hupper', hi', hkey]

/-- **The same instants have the same occurrences.** -/
theorem uncached (h : x.Alike y) (hs : s.Alike s') :
    ∃ found, (x.request s).uncached = .ok found ∧ (y.request s').uncached = .ok found := by
  obtain ⟨k, hk, hk'⟩ := h.key hs
  have hduration : s.duration = s'.duration := by
    unfold Series.duration
    rw [hs.start, hs.finish]
  have heq : (x.request s).uncached = (y.request s').uncached :=
    ExpansionRequest.uncached_eq_of_key hk hk' fun _ _ => ⟨hs.start, .inl hduration⟩
  obtain ⟨found, hfound⟩ := ExpansionRequest.uncached_eq_ok hk
  exact ⟨found, hfound, heq ▸ hfound⟩

end Times.Alike

/-- **What was put in is found**, as long as it lives. -/
theorem Timed.get?_insert {κ ν : Type} [DecidableEq κ] (c : Timed κ ν) (k : κ) (v : ν)
    {now expires : Number} (hlive : now.lt expires = true) :
    (c.insert k v expires).get? now k = some (v, (c.insert k v expires).touch k) := by
  have hothers : (c.entries.filter (c.stays k)).find? (fun e => decide (e.key = k)) = none := by
    refine List.find?_eq_none.2 fun e he hkey => ?_
    exact (stays_iff.1 (List.mem_filter.1 he).2).1 (of_decide_eq_true hkey)
  have hfind : (c.insert k v expires).find? k = some ⟨k, v, expires, c.uses⟩ := by
    rw [find?, insert_entries, List.find?_append, hothers]
    simp
  exact get?_eq_some_iff.2 ⟨_, hfind, hlive, rfl, rfl⟩

namespace ExpansionCache

variable {c : ExpansionCache} {q q' : ExpansionRequest} {k : CacheKey} {now now' expires : Number}

/-- A cache answers what has the same key and the same occurrences in the same way. -/
theorem ask_congr (hk : q.key? = .ok k) (hk' : q'.key? = .ok k) (h : q.uncached = q'.uncached) :
    c.ask now q = c.ask now q' := by
  obtain ⟨lower, upper, i, hlower, hupper, hi, hkey⟩ := ExpansionRequest.key?_eq_ok hk
  obtain ⟨lower', upper', i', hlower', hupper', hi', hkey'⟩ := ExpansionRequest.key?_eq_ok hk'
  have hbetween : q.series.expandBetween lower upper q.extra =
      q'.series.expandBetween lower' upper' q'.extra := by
    rw [← Series.expand_of_bounds hlower hupper, ← Series.expand_of_bounds hlower' hupper']
    exact h
  unfold ask expand
  simp only [hlower, hupper, hi, hlower', hupper', hi', hkey, hkey', hbetween]

/-- What the store finds is the answer. -/
theorem ask_of_get? {found : List Occurrence} {store : Timed CacheKey (List Occurrence)}
    (hroom : 0 < c.store.capacity) (hk : q.key? = .ok k)
    (hget : c.store.get? now k = some (found, store)) :
    c.isHit now q = true ∧ (c.ask now q).1 = .ok found := by
  refine ⟨by rw [isHit_eq hroom hk, hget]; rfl, ?_⟩
  rcases ask_cases hroom now q with ⟨e, he, -⟩ |
    ⟨k', found', hk', -, ⟨v, store', hget', hask⟩ | ⟨hget', -⟩⟩
  · exact absurd (hk.symm.trans he) nofun
  · rw [← Except.ok.inj (hk.symm.trans hk'), hget] at hget'
    rw [hask, (Prod.mk.inj (Option.some.inj hget')).1]
  · rw [← Except.ok.inj (hk.symm.trans hk'), hget] at hget'
    exact absurd hget' nofun

/-- **What was computed is found** under its key, as long as it lives. -/
theorem hit_after_miss (hroom : 0 < c.store.capacity) (hk : q.key? = .ok k) (hk' : q'.key? = .ok k)
    (hmiss : c.isMiss now q = true) (hexpires : now.add? c.store.ttl = some expires)
    (hlive : now'.lt expires = true) :
    (c.ask now q).2.isHit now' q' = true ∧ ((c.ask now q).2.ask now' q').1 = (c.ask now q).1 := by
  have hnone : c.store.get? now k = none := by
    rwa [isMiss_eq hroom hk, Option.isNone_iff_eq_none] at hmiss
  rcases ask_cases hroom now q with ⟨e, he, -⟩ |
    ⟨k₁, found, hk₁, -, ⟨v, store, hget, -⟩ | ⟨-, ⟨x, hx, hask⟩ | ⟨hx, -⟩⟩⟩
  · exact absurd (hk.symm.trans he) nofun
  · rw [← Except.ok.inj (hk.symm.trans hk₁), hnone] at hget
    exact absurd hget nofun
  · obtain rfl := Except.ok.inj (hk.symm.trans hk₁)
    obtain rfl := Option.some.inj (hexpires.symm.trans hx)
    rw [hask]
    exact ask_of_get? (c := ⟨(c.store.expire now).insert k found expires, c.hits, c.misses + 1⟩) hroom
      hk' ((c.store.expire now).get?_insert k found hlive)
  · exact absurd (hexpires.symm.trans hx) nofun

end ExpansionCache

/-! ## Editing -/

theorem clampUntil_congr {a b : Stamp} (h : a.utc = b.utc) (rule : String) :
    clampUntil rule a = clampUntil rule b := by
  unfold clampUntil
  rw [h]

theorem excludeOccurrence_congr {a b : Stamp} (h : a.utc = b.utc) (texts : List String) :
    excludeOccurrence texts a = excludeOccurrence texts b := by
  unfold excludeOccurrence
  rw [h]

theorem EventRecord.split_congr {a b : Stamp} (h : a.utc = b.utc) (r : EventRecord)
    (newId : Option String) (fresh : String) : r.split a newId fresh = r.split b newId fresh := by
  unfold EventRecord.split
  simp only [h, clampUntil_congr h]

theorem Rule.switchEnding_congr {a b : Stamp} (h : a.utc = b.utc) (r : Rule) (kind : EndKind) :
    r.switchEnding kind a = r.switchEnding kind b := by
  unfold switchEnding
  rw [h]

theorem describe_congr {a b : Stamp} (h : a.utc = b.utc) (rule : String) :
    describe rule a = describe rule b := by
  unfold describe
  rw [h]

/-! ## Texts of the same instants -/

/-- Texts that spell the same instants one by one, or are faulty in the same places. -/
def SpelledAlike (texts texts' : List String) : Prop :=
  texts.map Instant.ofIso = texts'.map Instant.ofIso

/-- The same event, but for how its cancelled starts are spelled. -/
structure EventRecord.Respelled (r r' : EventRecord) : Prop where
  uncancelled : r.uncancelled = r'.uncancelled
  exceptions : SpelledAlike r.exceptions r'.exceptions

/-- The same two parts, but for how the cancelled starts are spelled. -/
structure SeriesSplit.Respelled (p q : SeriesSplit) : Prop where
  earlierRule : p.earlierRule = q.earlierRule
  earlierExceptions : SpelledAlike p.earlierExceptions q.earlierExceptions
  continuation : Option.Rel EventRecord.Respelled p.continuation q.continuation

namespace SpelledAlike

variable {texts texts' : List String}

/-- **What is kept for its instant is kept in both spellings.** -/
theorem filter {p : String → Bool} (hp : ∀ s s', Instant.ofIso s = Instant.ofIso s' → p s = p s')
    (h : SpelledAlike texts texts') : SpelledAlike (texts.filter p) (texts'.filter p) := by
  induction texts generalizing texts' with
  | nil =>
    obtain rfl : texts' = [] := List.map_eq_nil_iff.1 h.symm
    rfl
  | cons s texts ih =>
    obtain ⟨s', texts', rfl, hs, hrest⟩ := List.map_eq_cons_iff.1 h.symm
    have ih := ih hrest.symm
    unfold SpelledAlike at ih ⊢
    rw [List.filter_cons, List.filter_cons, hp s' s hs]
    split
    · rw [List.map_cons, List.map_cons, hs, ih]
    · exact ih

theorem readExceptions_eq (h : SpelledAlike texts texts') :
    readExceptions texts = readExceptions texts' := by
  induction texts generalizing texts' with
  | nil =>
    obtain rfl : texts' = [] := List.map_eq_nil_iff.1 h.symm
    rfl
  | cons s texts ih =>
    obtain ⟨s', texts', rfl, hs, hrest⟩ := List.map_eq_cons_iff.1 h.symm
    rw [readExceptions, readExceptions, hs, ih hrest.symm]

theorem inRange (h : SpelledAlike texts texts')
    (hread : ∀ s ∈ texts, Instant.ofIso s ≠ .error .outOfRange) :
    ∀ s ∈ texts', Instant.ofIso s ≠ .error .outOfRange := by
  intro s' hs' hout
  have hmem : Instant.ofIso s' ∈ texts.map Instant.ofIso := h ▸ List.mem_map_of_mem hs'
  obtain ⟨s, hs, heq⟩ := List.mem_map.1 hmem
  exact hread s hs (heq.trans hout)

end SpelledAlike

theorem Series.ofRecord_of_respelled {r r' : EventRecord} (h : r.Respelled r') :
    Series.ofRecord r = Series.ofRecord r' := by
  obtain ⟨id, start, finish, recurrence, texts⟩ := r
  obtain ⟨id', start', finish', recurrence', texts'⟩ := r'
  obtain ⟨rfl, rfl, rfl, rfl, -⟩ := EventRecord.mk.inj h.uncancelled
  unfold Series.ofRecord
  rw [h.exceptions.readExceptions_eq]

theorem excludeOccurrence_of_respelled {texts texts' : List String} (h : SpelledAlike texts texts')
    (start : Stamp) :
    (excludeOccurrence texts start).map (List.map Instant.ofIso) =
      (excludeOccurrence texts' start).map (List.map Instant.ofIso) := by
  unfold excludeOccurrence
  rw [h.readExceptions_eq]
  cases start.utc with
  | error e => rfl
  | ok t =>
    cases readExceptions texts' with
    | error e => rfl
    | ok existing =>
      show Except.ok (List.map _ (if _ then _ else _)) = Except.ok (List.map _ (if _ then _ else _))
      split
      · exact congrArg Except.ok h
      · rw [List.map_append, List.map_append, h]

/-- Both spellings are shared out in the same way. -/
theorem SeriesSplit.sharing_of_respelled {texts texts' : List String} (h : SpelledAlike texts texts')
    (s : SeriesSplit) (cutoff : Instant) : (s.sharing cutoff texts).Respelled (s.sharing cutoff texts') := by
  have hbefore : SpelledAlike (texts.filter (spellsBefore cutoff))
      (texts'.filter (spellsBefore cutoff)) :=
    h.filter fun u u' hu => by rw [spellsBefore, spellsBefore, hu]
  have hfrom : SpelledAlike (texts.filter (spellsFrom cutoff))
      (texts'.filter (spellsFrom cutoff)) :=
    h.filter fun u u' hu => by rw [spellsFrom, spellsFrom, hu]
  refine ⟨rfl, hbefore, ?_⟩
  cases hnext : s.continuation with
  | none => simp only [sharing, hnext, Option.map_none, Option.rel_none_none]
  | some next =>
    simp only [sharing, hnext, Option.map_some]
    exact Option.Rel.some ⟨rfl, hfrom⟩

/-- **Both spellings split in the same way.** -/
theorem EventRecord.split_of_respelled {r r' : EventRecord} {a b : Stamp} (h : r.Respelled r')
    (hread : ∀ s ∈ r.exceptions, Instant.ofIso s ≠ .error .outOfRange) (hpoint : a.SameTime b)
    (newId : Option String) (fresh : String) :
    (∃ e, r.split a newId fresh = .error e ∧ r'.split b newId fresh = .error e) ∨
      ∃ p q, r.split a newId fresh = .ok p ∧ r'.split b newId fresh = .ok q ∧ p.Respelled q := by
  obtain ⟨c, ha, hb⟩ := hpoint.exists_utc
  rw [split_of_utc hread ha, split_of_utc (h.exceptions.inRange hread) hb, ← h.uncancelled,
    split_congr hpoint.utc_eq]
  cases r.uncancelled.split b newId fresh with
  | error e => exact .inl ⟨e, rfl, rfl⟩
  | ok s => exact .inr ⟨_, _, rfl, rfl, s.sharing_of_respelled h.exceptions c⟩

/-! ## All together -/

/-- Two expansions that cannot be told apart: they find the same occurrences and have the same key, and
any cache answers both in the same way.  After one of them was computed, the other one is found as long
as the first one lives. -/
structure ExpansionRequest.Interchangeable (q q' : ExpansionRequest) : Prop where
  uncached : ∃ found, q.uncached = .ok found ∧ q'.uncached = .ok found
  key : ∃ k, q.key? = .ok k ∧ q'.key? = .ok k
  asked : ∀ (c : ExpansionCache) (now : Number), c.ask now q = c.ask now q'
  found : ∀ (c : ExpansionCache) (now now' expires : Number), 0 < c.store.capacity →
    c.isMiss now q = true → now.add? c.store.ttl = some expires → now'.lt expires = true →
      (c.ask now q).2.isHit now' q' = true ∧ ((c.ask now q).2.ask now' q').1 = (c.ask now q).1

namespace Times

/-- What can be made of an event with a name and a rule is the same for two notations of its times. -/
structure SameResults (x y : Times) (id rule : String) : Prop where
  expansion : ∃ s s', x.series id rule = .ok s ∧ y.series id rule = .ok s' ∧ s.Alike s' ∧
    (x.request s).Interchangeable (y.request s')
  clamped : clampUntil rule x.point = clampUntil rule y.point
  record : ∀ recurrence texts,
    ∃ r, x.record id recurrence texts = .ok r ∧ y.record id recurrence texts = .ok r
  split : ∀ (r : EventRecord) newId fresh, r.split x.point newId fresh = r.split y.point newId fresh
  excluded : ∀ texts, excludeOccurrence texts x.point = excludeOccurrence texts y.point
  /-- Spelling the cancelled starts of an event anew changes nothing but what is kept of the texts. -/
  respelled : ∀ r r' : EventRecord, r.Respelled r' →
    Series.ofRecord r = Series.ofRecord r' ∧
    (excludeOccurrence r.exceptions x.point).map (List.map Instant.ofIso) =
      (excludeOccurrence r'.exceptions y.point).map (List.map Instant.ofIso) ∧
    ((∀ s ∈ r.exceptions, Instant.ofIso s ≠ .error .outOfRange) → ∀ newId fresh,
      (∃ e, r.split x.point newId fresh = .error e ∧ r'.split y.point newId fresh = .error e) ∨
        ∃ p q, r.split x.point newId fresh = .ok p ∧ r'.split y.point newId fresh = .ok q ∧
          p.Respelled q)
  described : describe rule x.start = describe rule y.start
  switched : ∀ (r : Rule) kind, r.switchEnding kind x.start = r.switchEnding kind y.start
  /-- The days of a summary and of a preset are those of the instant in universal time. -/
  defaults : ∃ t : Instant, (t.micros : Int) = x.start.utcMicros ∧
    (∀ r, Rule.decode? rule = some r → describe rule x.start = r.render t) ∧
    ∀ f, Rule.preset f x.start = .ok (Rule.ofAnchor f t) ∧
      Rule.preset f y.start = .ok (Rule.ofAnchor f t)

namespace Alike

variable {x y : Times}

/-- **Only the instants of an expansion count.** -/
theorem interchangeable (h : x.Alike y) {s s' : Series} (hs : s.Alike s') :
    (x.request s).Interchangeable (y.request s') := by
  obtain ⟨k, hk, hk'⟩ := h.key hs
  obtain ⟨found, hfound, hfound'⟩ := h.uncached hs
  refine ⟨⟨found, hfound, hfound'⟩, ⟨k, hk, hk'⟩, fun c now => ?_, ?_⟩
  · exact ExpansionCache.ask_congr hk hk' (hfound.trans hfound'.symm)
  · intro c now now' expires hroom hmiss hexpires hlive
    exact ExpansionCache.hit_after_miss hroom hk hk' hmiss hexpires hlive

/-- **Only instants count.** -/
theorem sameResults (h : x.Alike y) (id rule : String) : x.SameResults y id rule where
  expansion := by
    obtain ⟨s, s', hs, hs', halike⟩ := h.series id rule
    exact ⟨s, s', hs, hs', halike, h.interchangeable halike⟩
  clamped := clampUntil_congr h.point.utc_eq rule
  record recurrence texts := by
    obtain ⟨start, hstart, hstart'⟩ := h.start.exists_utc
    obtain ⟨finish, hfinish, hfinish'⟩ := h.finish.exists_utc
    exact ⟨_, record_eq hstart hfinish id recurrence texts,
      record_eq hstart' hfinish' id recurrence texts⟩
  split r newId fresh := r.split_congr h.point.utc_eq newId fresh
  excluded := excludeOccurrence_congr h.point.utc_eq
  respelled r r' hr := by
    refine ⟨Series.ofRecord_of_respelled hr, ?_, fun hread newId fresh => ?_⟩
    · rw [excludeOccurrence_of_respelled hr.exceptions, excludeOccurrence_congr h.point.utc_eq]
    · exact EventRecord.split_of_respelled hr hread h.point newId fresh
  described := describe_congr h.start.utc_eq rule
  switched r kind := r.switchEnding_congr h.start.utc_eq kind
  defaults := by
    obtain ⟨t, ht, ht'⟩ := h.start.exists_utc
    refine ⟨t, Stamp.utc_eq_ok_iff.1 ht, fun r hr => ?_, fun f => ?_⟩
    · simp only [describe, hr, ht]
    · simp only [Rule.preset, ht, ht']
      exact ⟨rfl, rfl⟩

end Alike

/-- Five and a half hours ahead of universal time. -/
def eastern : Offset := ⟨19800000000, by decide, by decide⟩

/-- A night shift that starts on New Year's Day at 01:45, far ahead of universal time. -/
def nightShift : Times where
  start := ⟨Instant.ofDay 742173 6300000000 (by decide) (by decide), some eastern⟩
  finish := ⟨Instant.ofDay 742173 35100000000 (by decide) (by decide), some eastern⟩
  exceptions := [⟨Instant.ofDay 742180 6300000000 (by decide) (by decide), some eastern⟩]
  lower := .day (Date.ofDay 742166 (by decide))
  upper := .stamp ⟨Instant.ofDay 742204 900000000 (by decide) (by decide), some eastern⟩
  extra := []
  point := ⟨Instant.ofDay 742187 6300000000 (by decide) (by decide), some eastern⟩

/-- The same in universal time, where it is New Year's Eve. -/
def nightShiftUtc : Times where
  start := ⟨Instant.ofDay 742172 72900000000 (by decide) (by decide), none⟩
  finish := ⟨Instant.ofDay 742173 15300000000 (by decide) (by decide), none⟩
  exceptions := [Stamp.ofInstant (Instant.ofDay 742179 72900000000 (by decide) (by decide))]
  lower := .stamp ⟨Instant.ofDate (Date.ofDay 742166 (by decide)), none⟩
  upper := .stamp ⟨Instant.ofDay 742203 67500000000 (by decide) (by decide), none⟩
  extra := []
  point := ⟨Instant.ofDay 742186 72900000000 (by decide) (by decide), none⟩

/-- On the clocks the two shifts start on different days of different years.  A yearly preset takes New
Year's Eve for both. -/
theorem sameResults_nightShift :
    nightShift.start.wall.date.year = 2033 ∧ nightShiftUtc.start.wall.date.year = 2032 ∧
      nightShift.SameResults nightShiftUtc "night" "RRULE:FREQ=WEEKLY;INTERVAL=1" ∧
      (Rule.preset .yearly nightShift.start).map Rule.encode =
        .ok "RRULE:FREQ=YEARLY;INTERVAL=1;BYMONTH=12;BYMONTHDAY=31" := by
  have halike : nightShift.Alike nightShiftUtc := by
    constructor
    case start => exact ⟨⟨by decide +kernel, by decide +kernel⟩, by decide +kernel⟩
    case finish => exact ⟨⟨by decide +kernel, by decide +kernel⟩, by decide +kernel⟩
    case exceptions =>
      exact SameTimes.singleton ⟨⟨by decide +kernel, by decide +kernel⟩, by decide +kernel⟩
    case lower =>
      exact ⟨⟨by decide +kernel, by decide +kernel⟩, ⟨by decide +kernel, by decide +kernel⟩,
        by decide +kernel⟩
    case upper =>
      exact ⟨⟨by decide +kernel, by decide +kernel⟩, ⟨by decide +kernel, by decide +kernel⟩,
        by decide +kernel⟩
    case extra => exact SameTimes.nil
    case point => exact ⟨⟨by decide +kernel, by decide +kernel⟩, by decide +kernel⟩
  refine ⟨?_, ?_, halike.sameResults _ _, ?_⟩
  all_goals decide +kernel

end Times

end Recurrence
