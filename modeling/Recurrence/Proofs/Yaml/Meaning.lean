import Recurrence.Proofs.Yaml.Node
import Recurrence.Yaml.Value

/-!
# Where the faults of a document lie

The meaning of a node is made from its parts and from the nodes that it refers to
(`Document.Reaches`).  These refer to none but earlier ones, so there is an induction over all of
them (`Document.ind`), and a reference means what its node means (`Document.meaning_anchored`).

A document without a value breaks the rules of documents, or a text in it has no value under its tag
(`Document.HasFault`).  Which of several faults counts depends on how deep they lie, and a broken rule
may hide a scalar without a value; in a plain document there is no such rule to break, and its scalars
decide.

* `Blames`, `Meaning.Blames`: outcomes and meanings with no other faults than these
* **`Document.blames_meaning`**: the faults of a node are those of its scalars and tags
* `makesKey_scalarValue`: what a scalar of the kind that its tag says can come to
* **`Document.sound`**: a node of a plain document has a value if and only if all its scalars have
* **`Fault.causedBy_of_read_eq_error`**: what a text without a value has its fault from
-/

namespace Recurrence.Yaml

/-! ## Nodes -/

/-- What holds of a node if it holds of its parts holds of every node. -/
@[elab_as_elim]
theorem Node.ind {motive : Node → Prop} (scalar : ∀ tag s, motive (.scalar tag s))
    (list : ∀ tag items, (∀ n ∈ items, motive n) → motive (.list tag items))
    (map : ∀ tag entries, (∀ e ∈ entries, motive e.1 ∧ motive e.2) → motive (.map tag entries))
    (anchored : ∀ k, motive (.anchored k)) (enclosing : ∀ curly, motive (.enclosing curly)) :
    ∀ n, motive n
  | .scalar tag s => scalar tag s
  | .list tag items => list tag items fun n hn =>
    have := List.sizeOf_lt_of_mem hn
    Node.ind scalar list map anchored enclosing n
  | .map tag entries => map tag entries fun e he =>
    have := List.sizeOf_lt_of_mem he
    have : sizeOf e = 1 + sizeOf e.1 + sizeOf e.2 := rfl
    ⟨Node.ind scalar list map anchored enclosing e.1,
      Node.ind scalar list map anchored enclosing e.2⟩
  | .anchored k => anchored k
  | .enclosing curly => enclosing curly

theorem Node.meanings_eq (known : List Meaning) (items : List Node) :
    Node.meanings known items = items.map (Node.meaning known) := by
  induction items with
  | nil => rfl
  | cons n ns ih => rw [Node.meanings, ih, List.map_cons]

theorem Node.entryMeanings_eq (known : List Meaning) (entries : List (Node × Node)) :
    Node.entryMeanings known entries =
      entries.map fun e => (e.1.meaning known, e.2.meaning known) := by
  induction entries with
  | nil => rfl
  | cons e es ih => rw [Node.entryMeanings, ih, List.map_cons, Node.entryMeaning]

/-- A node that refers to known nodes alone means the same when more are known. -/
theorem Node.meaning_append {known : List Meaning} (more : List Meaning) {n : Node}
    (h : n.RefersBelow known.length) : n.meaning (known ++ more) = n.meaning known := by
  induction n using Node.ind with
  | scalar tag s => rfl
  | list tag items ih =>
    rw [Node.meaning, Node.meaning, meanings_eq, meanings_eq]
    rw [List.map_congr_left fun n hn => ih n hn (refersBelow_list.mp h n hn)]
  | map tag entries ih =>
    rw [Node.meaning, Node.meaning, entryMeanings_eq, entryMeanings_eq]
    refine congrArg _ (List.map_congr_left fun e he => ?_)
    have hb := refersBelow_map.mp h e he
    rw [(ih e he).1 hb.1, (ih e he).2 hb.2]
  | anchored k =>
    have hk := h k (.self _)
    rw [Node.meaning, Node.meaning, List.getD_eq_getElem?_getD, List.getElem?_append_left hk,
      List.getD_eq_getElem?_getD]
  | enclosing curly => rfl

/-! ## References -/

/-- The nodes that the meaning of a node is made from: its parts, and for a reference the node that
it refers to. -/
inductive Document.Reaches (d : Document) : Node → Node → Prop
  | self (n : Node) : Reaches d n n
  | item {n m : Node} {tag : Tag} {items : List Node} : m ∈ items → Reaches d m n →
      Reaches d (.list tag items) n
  | key {n : Node} {tag : Tag} {entries : List (Node × Node)} {e : Node × Node} : e ∈ entries →
      Reaches d e.1 n → Reaches d (.map tag entries) n
  | value {n : Node} {tag : Tag} {entries : List (Node × Node)} {e : Node × Node} : e ∈ entries →
      Reaches d e.2 n → Reaches d (.map tag entries) n
  | anchor {n m : Node} {k : Nat} : d.anchored[k]? = some m → Reaches d m n →
      Reaches d (.anchored k) n

namespace Document

variable {d : Document}

/-- The meanings of some nodes, each of which may refer to those before it. -/
def meaningsOf (known : List Meaning) (nodes : List Node) : List Meaning :=
  nodes.foldl (fun known n => known ++ [n.meaning known]) known

theorem meaningsOf_append (known : List Meaning) (ns ms : List Node) :
    meaningsOf known (ns ++ ms) = meaningsOf (meaningsOf known ns) ms :=
  List.foldl_append

theorem exists_meaningsOf_eq (known : List Meaning) (nodes : List Node) :
    ∃ more, meaningsOf known nodes = known ++ more ∧ more.length = nodes.length := by
  induction nodes generalizing known with
  | nil => exact ⟨[], (List.append_nil _).symm, rfl⟩
  | cons n ns ih =>
    obtain ⟨more, hm, hl⟩ := ih (known ++ [n.meaning known])
    refine ⟨n.meaning known :: more, ?_, by rw [List.length_cons, hl, List.length_cons]⟩
    rw [meaningsOf, List.foldl_cons]
    exact hm.trans (List.append_assoc _ _ _)

/-- **A reference means what the node means that it refers to.** -/
theorem meaning_anchored (hd : d.WellFormed) {k : Nat} {m : Node} (hk : d.anchored[k]? = some m) :
    (Node.anchored k).meaning d.known = m.meaning d.known := by
  obtain ⟨hlt, hm⟩ := List.getElem?_eq_some_iff.mp hk
  have he : d.anchored = d.anchored.take k ++ m :: d.anchored.drop (k + 1) := by
    rw [← hm, List.getElem_cons_drop, List.take_append_drop]
  have hl : (d.anchored.take k).length = k := List.length_take_of_le (Nat.le_of_lt hlt)
  obtain ⟨front, hfront, hfl⟩ := exists_meaningsOf_eq [] (d.anchored.take k)
  rw [List.nil_append] at hfront
  obtain ⟨more, hmore, -⟩ := exists_meaningsOf_eq (front ++ [m.meaning front])
    (d.anchored.drop (k + 1))
  have hknown : d.known = front ++ m.meaning front :: more := by
    calc d.known = meaningsOf [] (d.anchored.take k ++ m :: d.anchored.drop (k + 1)) := by
          rw [← he]
          rfl
      _ = meaningsOf (front ++ [m.meaning front]) (d.anchored.drop (k + 1)) := by
          rw [meaningsOf_append, hfront, meaningsOf, List.foldl_cons]
          rfl
      _ = front ++ m.meaning front :: more := by rw [hmore, List.append_assoc, List.singleton_append]
  have hb : m.RefersBelow front.length := by
    rw [hfl, hl]
    exact hd.anchored k m hk
  rw [hknown, Node.meaning_append _ hb, Node.meaning, List.getD_eq_getElem?_getD, ← hl, ← hfl,
    List.getElem?_append_right (Nat.le_refl _), Nat.sub_self]
  rfl

theorem Reaches.trans {l m n : Node} (h : d.Reaches l m) (h' : d.Reaches m n) : d.Reaches l n := by
  induction h with
  | self => exact h'
  | item hm _ ih => exact .item hm (ih h')
  | key he _ ih => exact .key he (ih h')
  | value he _ ih => exact .value he (ih h')
  | anchor hk _ ih => exact .anchor hk (ih h')

/-- What holds of the parts of a node and of what it refers to, if it holds of every node of which it
holds that way, holds of all nodes of a document. -/
theorem ind (hd : d.WellFormed) {motive : Node → Prop}
    (scalar : ∀ tag s, motive (.scalar tag s))
    (list : ∀ tag items, (∀ n ∈ items, motive n) → motive (.list tag items))
    (map : ∀ tag entries, (∀ e ∈ entries, motive e.1 ∧ motive e.2) → motive (.map tag entries))
    (anchored : ∀ k m, d.anchored[k]? = some m → motive m → motive (.anchored k))
    (enclosing : ∀ curly, motive (.enclosing curly)) {n : Node}
    (hn : n.RefersBelow d.anchored.length) : motive n := by
  suffices h : ∀ b ≤ d.anchored.length, ∀ n : Node, n.RefersBelow b → motive n from
    h _ (Nat.le_refl _) n hn
  intro b
  induction b using Nat.strongRecOn with
  | _ b ih =>
    intro hb n hn
    induction n using Node.ind with
    | scalar tag s => exact scalar tag s
    | list tag items ihn =>
      exact list tag items fun m hm => ihn m hm (Node.refersBelow_list.mp hn m hm)
    | map tag entries ihn =>
      refine map tag entries fun e he => ?_
      have hbe := Node.refersBelow_map.mp hn e he
      exact ⟨(ihn e he).1 hbe.1, (ihn e he).2 hbe.2⟩
    | anchored k =>
      have hk : k < b := hn k (.self _)
      have hlt : k < d.anchored.length := Nat.lt_of_lt_of_le hk hb
      have hm := List.getElem?_eq_getElem hlt
      exact anchored k _ hm (ih k hk (Nat.le_of_lt hlt) _ (hd.anchored k _ hm))
    | enclosing curly => exact enclosing curly

end Document

/-! ## Outcomes -/

section Outcomes

variable {α β : Type}

theorem below_eq_error {o : Outcome α} {e : Nat × Fault} (h : below o = .error e) :
    ∃ c, o = .error c ∧ c.2 = e.2 := by
  cases o with
  | ok a => cases h
  | error c =>
    cases h
    exact ⟨c, rfl, rfl⟩

theorem map_eq_error {f : α → β} {o : Outcome α} {e : Nat × Fault} (h : o.map f = .error e) :
    o = .error e := by
  cases o with
  | ok a => cases h
  | error c =>
    cases h
    rfl

theorem both_eq_error {a : Outcome α} {b : Outcome β} {e : Nat × Fault}
    (h : both a b = .error e) : a = .error e ∨ b = .error e := by
  cases a with
  | ok a =>
    cases b with
    | ok b => cases h
    | error f =>
      cases h
      exact .inr rfl
  | error c =>
    cases b with
    | ok b =>
      cases h
      exact .inl rfl
    | error f =>
      rw [both] at h
      split at h
      · cases h
        exact .inr rfl
      · cases h
        exact .inl rfl

theorem gather_eq_error {os : List (Outcome α)} {e : Nat × Fault} (h : gather os = .error e) :
    .error e ∈ os := by
  induction os with
  | nil => cases h
  | cons o os ih =>
    rcases both_eq_error (map_eq_error h) with ho | ho
    · exact ho ▸ List.mem_cons_self
    · exact List.mem_cons_of_mem o (ih ho)

theorem both_eq_ok {a : Outcome α} {b : Outcome β} {r : α × β} (h : both a b = .ok r) :
    a = .ok r.1 ∧ b = .ok r.2 := by
  cases a with
  | ok a =>
    cases b with
    | ok b =>
      cases h
      exact ⟨rfl, rfl⟩
    | error f => cases h
  | error c => cases b <;> cases h

theorem map_eq_ok {f : α → β} {o : Outcome α} {b : β} (h : o.map f = .ok b) : ∃ a, o = .ok a := by
  cases o with
  | ok a => exact ⟨a, rfl⟩
  | error c => cases h

theorem gather_eq_ok {os : List (Outcome α)} {as : List α} (h : gather os = .ok as) {o : Outcome α}
    (ho : o ∈ os) : ∃ a, o = .ok a := by
  induction os generalizing as with
  | nil => cases ho
  | cons p os ih =>
    obtain ⟨r, hr⟩ := map_eq_ok h
    obtain ⟨hp, hos⟩ := both_eq_ok hr
    rcases List.mem_cons.mp ho with rfl | ho
    · exact ⟨_, hp⟩
    · exact ih hos ho

section Yields

variable {ok ok' : Bool} {a : α} {b : β} {o : Outcome α} {o' : Outcome β}

theorem Yields.below (h : Yields ok a o) : Yields ok a (below o) := by
  cases ok with
  | true =>
    rw [show o = .ok a from h]
    exact rfl
  | false =>
    obtain ⟨e, rfl⟩ := h
    exact ⟨_, rfl⟩

theorem Yields.both (h : Yields ok a o) (h' : Yields ok' b o') :
    Yields (ok && ok') (a, b) (both o o') := by
  cases ok with
  | true =>
    rw [show o = .ok a from h, Bool.true_and]
    cases ok' with
    | true =>
      rw [show o' = .ok b from h']
      exact rfl
    | false =>
      obtain ⟨e, rfl⟩ := h'
      exact ⟨e, rfl⟩
  | false =>
    obtain ⟨e, rfl⟩ := h
    cases o' with
    | ok b => exact ⟨e, rfl⟩
    | error e' => exact ⟨_, rfl⟩

theorem Yields.gather_cons {os : List (Outcome α)} {as : List α} (h : Yields ok a o)
    (hs : Yields ok' as (gather os)) : Yields (ok && ok') (a :: as) (gather (o :: os)) :=
  (h.both hs).map fun r => r.1 :: r.2

end Yields

end Outcomes

/-- The faults of an outcome are of this kind. -/
def Blames {α : Type} (P : Fault → Prop) (o : Outcome α) : Prop := ∀ e, o = .error e → P e.2

section Blame

variable {P : Fault → Prop} {α β : Type}

theorem blames_ok (a : α) : Blames P (.ok a : Outcome α) := nofun

theorem blames_error {k : Nat} {f : Fault} (h : P f) : Blames P (.error (k, f) : Outcome α) := by
  rintro _ ⟨⟩
  exact h

theorem Blames.below {o : Outcome α} (h : Blames P o) : Blames P (below o) := by
  intro e he
  obtain ⟨c, hc, hce⟩ := below_eq_error he
  exact hce ▸ h c hc

theorem Blames.map {o : Outcome α} (h : Blames P o) (f : α → β) : Blames P (o.map f) :=
  fun e he => h e (map_eq_error he)

theorem Blames.both {a : Outcome α} {b : Outcome β} (ha : Blames P a) (hb : Blames P b) :
    Blames P (both a b) :=
  fun e he => (both_eq_error he).elim (ha e) (hb e)

theorem blames_gather {os : List (Outcome α)} (h : ∀ o ∈ os, Blames P o) : Blames P (gather os) :=
  fun e he => h _ (gather_eq_error he) e rfl

theorem blames_mapError {r : Except Fault α} (h : ∀ f, r = .error f → P f) :
    Blames P (r.mapError fun f => (0, f)) := by
  cases r with
  | ok a => exact blames_ok a
  | error f => exact blames_error (h f rfl)

theorem Blames.keyValue (hP : P .malformed) {o : Outcome Value} (h : Blames P o) :
    Blames P (keyValue o) := by
  unfold Yaml.keyValue
  split
  · split
    · exact blames_ok _
    · exact blames_error hP
  · exact blames_error (h _ rfl)
  · exact blames_error hP

/-! ## Entries that are merged -/

/-- The faults of a key and a value are of this kind. -/
def Entry.Blames (P : Fault → Prop) (e : Entry) : Prop := Yaml.Blames P e.key ∧ Yaml.Blames P e.value

theorem blames_assemble (hP : P .malformed) {entries : List Entry}
    (h : ∀ e ∈ entries, e.Blames P) : Blames P (assemble entries) := by
  refine (blames_gather fun o ho => ?_).map _
  obtain ⟨e, he, rfl⟩ := List.mem_map.mp ho
  exact ((h e he).1.keyValue hP).both (h e he).2

/-- An entry is among those that may be handed on. -/
inductive Merge.Hands (e : Entry) : Merge → Prop
  | map {es : List Entry} : e ∈ es → Hands e (.map (some es))
  | list {items : List (Option (List Entry))} {es : List Entry} : some es ∈ items → e ∈ es →
      Hands e (.list items)

theorem Merge.hands_of_item {m : Merge} {es : List Entry} (h : m.item = some es) {e : Entry}
    (he : e ∈ es) : m.Hands e := by
  cases m with
  | map entries =>
    cases (show entries = some es from h)
    exact .map he
  | list items => cases h
  | nothing => cases h

theorem exists_of_mem_mapM {f : α → Option β} {l : List α} {bs : List β} (h : l.mapM f = some bs)
    {b : β} (hb : b ∈ bs) : ∃ a ∈ l, f a = some b := by
  induction l generalizing bs with
  | nil =>
    cases h
    cases hb
  | cons a l ih =>
    rw [List.mapM_cons] at h
    obtain ⟨c, hc, h⟩ := Option.bind_eq_some_iff.mp h
    obtain ⟨cs, hcs, h⟩ := Option.bind_eq_some_iff.mp h
    cases h
    rcases List.mem_cons.mp hb with rfl | hb
    · exact ⟨a, List.mem_cons_self, hc⟩
    · obtain ⟨x, hx, hxb⟩ := ih hcs hb
      exact ⟨x, List.mem_cons_of_mem a hx, hxb⟩

theorem Merge.hands_of_all {m : Merge} {es : List Entry} (h : m.all = some es) {e : Entry}
    (he : e ∈ es) : m.Hands e := by
  cases m with
  | map entries =>
    cases (show entries = some es from h)
    exact .map he
  | list items =>
    obtain ⟨ess, hess, rfl⟩ := Option.map_eq_some_iff.mp h
    obtain ⟨l, hl, hel⟩ := List.mem_flatten.mp he
    obtain ⟨_, hi, rfl⟩ := exists_of_mem_mapM hess hl
    exact .list (List.mem_reverse.mp hi) hel
  | nothing => cases h

end Blame

/-! ## Meanings -/

/-- All that a node is good for has faults of this kind, and its text is one of these. -/
structure Meaning.Blames (P : Fault → Prop) (T : List Char → Prop) (m : Meaning) : Prop where
  value : Yaml.Blames P m.value
  text : ∀ s, m.text = some s → T s
  pair : ∀ o, m.pair = some o → Yaml.Blames P o
  merge : ∀ e, m.merge.Hands e → e.Blames P

namespace Meaning

variable {P : Fault → Prop} {T : List Char → Prop}

theorem Blames.mono {P' : Fault → Prop} {T' : List Char → Prop} {m : Meaning} (h : m.Blames P T)
    (hP : ∀ f, P f → P' f) (hT : ∀ s, T s → T' s) : m.Blames P' T' where
  value e he := hP _ (h.value e he)
  text s hs := hT s (h.text s hs)
  pair o ho e he := hP _ (h.pair o ho e he)
  merge e he := ⟨fun x hx => hP _ ((h.merge e he).1 x hx), fun x hx => hP _ ((h.merge e he).2 x hx)⟩

theorem blames_ofScalar (hP : P .malformed) {tag : Tag} {s : List Char} (hT : T s)
    (hs : ∀ f, scalarValue tag s = .error f → P f) : (ofScalar tag s).Blames P T where
  value := by
    unfold ofScalar
    dsimp only
    split
    · exact blames_error hP
    · exact blames_error hP
    · exact blames_error hP
    · exact blames_error hP
    · exact blames_mapError hs
  text := by
    rintro _ ⟨⟩
    exact hT
  pair := nofun
  merge := nofun

theorem blames_ofEnclosing (curly : Bool) : (ofEnclosing curly).Blames P T where
  value := blames_ok _
  text := nofun
  pair := nofun
  merge e he := by cases curly <;> cases he <;> simp_all

theorem blames_ofList (hP : P .malformed) {tag : Tag} {items : List Meaning}
    (h : ∀ m ∈ items, m.Blames P T) : (ofList tag items).Blames P T where
  value := by
    unfold ofList
    dsimp only
    split
    · refine ((blames_gather fun o ho => ?_).below).map _
      obtain ⟨m, hm, rfl⟩ := List.mem_map.mp ho
      exact (h m hm).value
    · refine ((blames_gather fun o ho => ?_).below).map _
      obtain ⟨m, hm, rfl⟩ := List.mem_map.mp ho
      cases hp : m.pair with
      | none => exact blames_error hP
      | some o => exact (h m hm).pair o hp
    · exact blames_error hP
    · exact blames_error hP
    · exact blames_error hP
  text := nofun
  pair := nofun
  merge e he := by
    cases he with
    | list hes he =>
      obtain ⟨m, hm, hi⟩ := List.mem_map.mp hes
      exact (h m hm).merge e (Merge.hands_of_item hi he)

theorem blames_asKey (hP : P .malformed) {m : Meaning} (h : m.Blames P T) :
    Yaml.Blames P m.asKey := by
  unfold asKey
  split
  · split
    · exact blames_ok _
    · exact blames_error hP
  · exact h.value

theorem blames_allEntries (hP : P .malformed) {es : List (Meaning × Meaning)}
    (h : ∀ e ∈ es, e.1.Blames P T ∧ e.2.Blames P T) {entries : List Entry}
    (he : allEntries es = some entries) : ∀ e ∈ entries, e.Blames P := by
  obtain ⟨merged, hm, rfl⟩ := Option.map_eq_some_iff.mp he
  intro e he
  rcases List.mem_append.mp he with he | he
  · obtain ⟨l, hl, hel⟩ := List.mem_flatten.mp he
    obtain ⟨p, hp, hpl⟩ := exists_of_mem_mapM hm hl
    exact (h p (List.mem_filter.mp hp).1).2.merge e (Merge.hands_of_all hpl hel)
  · obtain ⟨p, hp, rfl⟩ := List.mem_map.mp he
    have := h p (List.mem_filter.mp hp).1
    exact ⟨blames_asKey hP this.1, this.2.value⟩

theorem text_of_defaultText {es : List (Meaning × Meaning)}
    (h : ∀ e ∈ es, e.1.Blames P T ∧ e.2.Blames P T) {s : List Char} (hs : defaultText es = some s) :
    T s := by
  unfold defaultText at hs
  split at hs
  case h_1 e he => exact (h e (List.mem_of_find?_eq_some he)).2.text s hs
  case h_2 => cases hs

theorem blames_defaultScalar (hP : P .malformed) {tag : Tag} {o : Option (List Char)}
    (htime : tag = .time → P .timeOfMap)
    (hs : ∀ s, o = some s → ∀ f, scalarValue tag s = .error f → P f) :
    Yaml.Blames P (defaultScalar tag o) := by
  unfold defaultScalar
  split
  · exact blames_error hP
  · exact blames_error (htime rfl)
  · exact blames_mapError (hs _ rfl)

theorem blames_ofMap (hP : P .malformed) {tag : Tag} {es : List (Meaning × Meaning)}
    (h : ∀ e ∈ es, e.1.Blames P T ∧ e.2.Blames P T) (htime : tag = .time → P .timeOfMap)
    (hs : ∀ s, T s → ∀ f, scalarValue tag s = .error f → P f) : (ofMap tag es).Blames P T where
  value := by
    have assembled : Yaml.Blames P (below (((allEntries es).map assemble).getD (here .malformed))) := by
      refine Yaml.Blames.below ?_
      cases ha : allEntries es with
      | none => exact blames_error hP
      | some entries => exact blames_assemble hP (blames_allEntries hP h ha)
    unfold ofMap
    dsimp only
    split
    · exact assembled.map _
    · exact assembled.map _
    · exact blames_error hP
    · exact blames_error hP
    · exact blames_defaultScalar hP htime fun s ht => hs s (text_of_defaultText h ht)
  text s hs := text_of_defaultText h hs
  pair o ho := by
    unfold ofMap at ho
    dsimp only at ho
    split at ho
    case h_1 k v =>
      cases ho
      obtain ⟨hk, hv⟩ := h (k, v) List.mem_cons_self
      exact (hk.value.both hv.value).map _
    case h_2 => cases ho
  merge e he := by
    change Merge.Hands e (.map (allEntries es)) at he
    cases ha : allEntries es with
    | none =>
      rw [ha] at he
      cases he
    | some entries =>
      rw [ha] at he
      cases he with
      | map he => exact blames_allEntries hP h ha e he

end Meaning

/-! ## Documents -/

namespace Document

variable {d : Document} {P : Fault → Prop}

/-- The text of a scalar that a node comes to. -/
def TextFrom (d : Document) (n : Node) (s : List Char) : Prop :=
  ∃ tag, d.Reaches n (.scalar tag s)

/-- A fault of a scalar that a node comes to, or of a map that is tagged as a scalar: a text in it
is none of that kind, or it is tagged as a time. -/
inductive HasFault (d : Document) (n : Node) : Fault → Prop
  | scalar {tag : Tag} {s : List Char} {f : Fault} : d.Reaches n (.scalar tag s) →
      scalarValue tag s = .error f → HasFault d n f
  | map {tag : Tag} {es : List (Node × Node)} {s : List Char} {f : Fault} :
      d.Reaches n (.map tag es) → d.TextFrom (.map tag es) s → scalarValue tag s = .error f →
      HasFault d n f
  | time {es : List (Node × Node)} : d.Reaches n (.map .time es) → HasFault d n .timeOfMap

theorem HasFault.of_reaches {m n : Node} {f : Fault} (hm : d.Reaches n m) (h : d.HasFault m f) :
    d.HasFault n f := by
  cases h with
  | scalar hr hf => exact .scalar (hm.trans hr) hf
  | map hr ht hf => exact .map (hm.trans hr) ht hf
  | time hr => exact .time (hm.trans hr)

/-- **The faults of a node** are those of the scalars that it comes to, and of its maps that are
tagged as scalars, beside those of its form. -/
theorem blames_meaning (hd : d.WellFormed) {n : Node} (hn : n.RefersBelow d.anchored.length) :
    (n.meaning d.known).Blames (fun f => f = .malformed ∨ d.HasFault n f) (d.TextFrom n) := by
  -- what a node is made of has no other faults than the node
  have part {n m : Node} (hm : d.Reaches n m)
      (h : (m.meaning d.known).Blames (fun f => f = .malformed ∨ d.HasFault m f) (d.TextFrom m)) :
      (m.meaning d.known).Blames (fun f => f = .malformed ∨ d.HasFault n f) (d.TextFrom n) :=
    h.mono (fun f hf => hf.imp_right (.of_reaches hm)) fun s ⟨tag, hs⟩ => ⟨tag, hm.trans hs⟩
  refine Document.ind (motive := fun n => (n.meaning d.known).Blames
    (fun f => f = .malformed ∨ d.HasFault n f) (d.TextFrom n)) hd ?_ ?_ ?_ ?_ ?_ hn
  · intro tag s
    exact Meaning.blames_ofScalar (.inl rfl) ⟨tag, .self _⟩ fun f hf => .inr (.scalar (.self _) hf)
  · intro tag items ih
    rw [Node.meaning, Node.meanings_eq]
    refine Meaning.blames_ofList (.inl rfl) fun m hm => ?_
    obtain ⟨n, hn, rfl⟩ := List.mem_map.mp hm
    exact part (.item hn (.self n)) (ih n hn)
  · intro tag entries ih
    rw [Node.meaning, Node.entryMeanings_eq]
    refine Meaning.blames_ofMap (.inl rfl) (fun m hm => ?_) (fun ht => .inr ?_)
      fun s hs f hf => .inr (.map (.self _) hs hf)
    · obtain ⟨e, he, rfl⟩ := List.mem_map.mp hm
      exact ⟨part (.key he (.self e.1)) (ih e he).1, part (.value he (.self e.2)) (ih e he).2⟩
    · cases ht
      exact .time (.self _)
  · intro k m hk ih
    rw [meaning_anchored hd hk]
    exact part (.anchor hk (.self m)) ih
  · exact fun curly => Meaning.blames_ofEnclosing curly

/-- **A document without a value** breaks the rules of documents, or has the fault in a scalar. -/
theorem hasFault_of_value_eq_error (hd : d.WellFormed) {f : Fault} (h : d.value = .error f) :
    f = .malformed ∨ d.HasFault d.root f := by
  unfold Document.value at h
  cases hv : (d.root.meaning d.known).value with
  | ok v =>
    rw [hv] at h
    cases h
  | error e =>
    rw [hv] at h
    cases h
    exact (blames_meaning hd hd.root).value e hv

end Document

/-! ## Documents without tags of their own -/

/-- The node is of the kind that its tag says, and keys are scalars. -/
def Node.IsPlain : Node → Prop
  | .scalar tag _ => tag ∈ [.null, .bool, .int, .float, .time, .text]
  | .list tag _ => tag = .list
  | .map tag entries => tag = .map ∧ ∀ e ∈ entries, ∃ t s, e.1 = .scalar t s
  | .anchored _ | .enclosing _ => True

/-- All nodes of the document are of the kinds that their tags say. -/
def Document.IsPlain (d : Document) : Prop := ∀ n, d.Reaches d.root n → n.IsPlain

/-- The result is a value that can be a key, or the fault is none of the form of the text. -/
def MakesKey (r : Except Fault Value) : Prop := Meets (· ≠ .malformed) (fun v => isKey v) r

theorem meets_existing {α : Type} (o : Option α) :
    Meets (· ≠ .malformed) (fun _ => True) (existing o) := by
  cases o with
  | none => exact nofun
  | some a => trivial

theorem makesKey_truthValue (s : List Char) : MakesKey (truthValue s) := by
  refine Meets.ite rfl (Meets.ite rfl ?_)
  exact nofun

theorem makesKey_integerValue (s : List Char) : MakesKey (integerValue s) := by
  have unsigned (s : List Char) : Meets (· ≠ .malformed) (fun _ => True) (unsignedInteger s) := by
    unfold unsignedInteger
    split
    · exact nofun
    · trivial
    · exact meets_existing _
    · exact meets_existing _
    · exact meets_existing _
    · exact Meets.ite (meets_existing _) (meets_existing _)
  unfold integerValue
  split
  · exact nofun
  · exact (unsigned _).map fun _ _ => rfl

theorem meets_floatingSum (weight : Nat) (sum : Binary64) (ds : List Binary64) :
    Meets (· ≠ .malformed) (fun _ => True) (floatingSum weight sum ds) := by
  induction ds generalizing weight sum with
  | nil => trivial
  | cons d ds ih =>
    unfold floatingSum
    split
    · exact nofun
    · exact ih _ _

theorem makesKey_floatValue (s : List Char) : MakesKey (floatValue s) := by
  have unsigned (s : List Char) : Meets (· ≠ .malformed) (fun _ => True) (unsignedFloat s) := by
    refine Meets.ite trivial (Meets.ite trivial (Meets.ite ?_ (meets_existing _)))
    exact (meets_existing _).bind fun _ _ => meets_floatingSum _ _ _
  unfold floatValue
  split
  · exact nofun
  · exact (unsigned _).map fun _ _ => rfl

theorem makesKey_timeValue (s : List Char) : MakesKey (timeValue s) := by
  unfold timeValue
  split
  · exact nofun
  · exact (meets_existing _).map fun _ _ => rfl

/-- A scalar of the kind that its tag says has a value that can be a key, or a fault that is none of
its form. -/
theorem makesKey_scalarValue {tag : Tag} {s : List Char} (h : (Node.scalar tag s).IsPlain) :
    MakesKey (scalarValue tag s) := by
  simp only [Node.IsPlain, List.mem_cons, List.not_mem_nil, or_false] at h
  rcases h with rfl | rfl | rfl | rfl | rfl | rfl
  · exact rfl
  · exact makesKey_truthValue s
  · exact makesKey_integerValue s
  · exact makesKey_floatValue s
  · exact makesKey_timeValue s
  · exact rfl

namespace Meaning

theorem value_ofScalar {tag : Tag} {s : List Char} (h : (Node.scalar tag s).IsPlain) :
    (ofScalar tag s).value = (scalarValue tag s).mapError fun f => (0, f) := by
  simp only [Node.IsPlain, List.mem_cons, List.not_mem_nil, or_false] at h
  rcases h with rfl | rfl | rfl | rfl | rfl | rfl <;> rfl

/-- As a key such a scalar has the value that it has elsewhere. -/
theorem keyValue_ofScalar {tag : Tag} {s : List Char} (h : (Node.scalar tag s).IsPlain) :
    keyValue (ofScalar tag s).value = (ofScalar tag s).value := by
  have hk := makesKey_scalarValue h
  rw [value_ofScalar h]
  cases hs : scalarValue tag s with
  | error f => rfl
  | ok v =>
    rw [hs] at hk
    exact if_pos hk

/-- Without merges and default keys the entries of a map are its own. -/
theorem allEntries_own {es : List (Meaning × Meaning)}
    (h : ∀ e ∈ es, e.1.tag ≠ .merge ∧ e.1.tag ≠ .defaultValue) :
    allEntries es = some (es.map fun e => ⟨e.1.value, e.2.value⟩) := by
  have none_merge : es.filter (fun e => e.1.tag = .merge) = [] :=
    List.filter_eq_nil_iff.mpr fun e he => by simp [(h e he).1]
  have all_own : es.filter (fun e => e.1.tag ≠ .merge) = es :=
    List.filter_eq_self.mpr fun e he => by simp [(h e he).1]
  unfold allEntries
  dsimp only
  rw [none_merge, all_own]
  refine congrArg some (List.map_congr_left fun e he => ?_)
  rw [asKey, if_neg (h e he).2]

theorem value_ofMap_own {es : List (Meaning × Meaning)}
    (h : ∀ e ∈ es, e.1.tag ≠ .merge ∧ e.1.tag ≠ .defaultValue) :
    (ofMap .map es).value =
      (below (assemble (es.map fun e => ⟨e.1.value, e.2.value⟩))).map .map := by
  change (below (((allEntries es).map assemble).getD _)).map Value.map = _
  rw [allEntries_own h]
  rfl

end Meaning

namespace Document

variable {d : Document}

/-- A scalar that a node comes to has this fault. -/
def ScalarFault (d : Document) (n : Node) (f : Fault) : Prop :=
  ∃ tag s, d.Reaches n (.scalar tag s) ∧ scalarValue tag s = .error f

theorem ScalarFault.of_reaches {m n : Node} {f : Fault} (hm : d.Reaches n m)
    (h : d.ScalarFault m f) : d.ScalarFault n f :=
  have ⟨tag, s, hr, hf⟩ := h
  ⟨tag, s, hm.trans hr, hf⟩

/-- The node has a value and so have all its scalars, or a scalar is to blame. -/
def Sound (d : Document) (n : Node) : Prop :=
  Meets (fun e => d.ScalarFault n e.2) (fun _ => ∀ f, ¬d.ScalarFault n f) (n.meaning d.known).value

theorem Sound.of_eq_error {n : Node} {e : Nat × Fault} (h : d.Sound n)
    (he : (n.meaning d.known).value = .error e) : d.ScalarFault n e.2 := by
  rw [Sound, he] at h
  exact h

theorem Sound.of_eq_ok {n : Node} {v : Value} {f : Fault} (h : d.Sound n)
    (hv : (n.meaning d.known).value = .ok v) : ¬d.ScalarFault n f := by
  rw [Sound, hv] at h
  exact h f

theorem sound_scalar {tag : Tag} {s : List Char} (h : (Node.scalar tag s).IsPlain) :
    d.Sound (.scalar tag s) := by
  unfold Sound
  rw [Node.meaning, Meaning.value_ofScalar h]
  cases hs : scalarValue tag s with
  | error f => exact ⟨tag, s, .self _, hs⟩
  | ok v =>
    rintro f ⟨tag, s, hr, hf⟩
    cases hr
    rw [hs] at hf
    cases hf

theorem sound_list {items : List Node} (h : ∀ n ∈ items, d.Sound n) :
    d.Sound (.list .list items) := by
  unfold Sound
  rw [Node.meaning, Node.meanings_eq, Meaning.ofList, List.map_map]
  cases hg : gather (items.map (Meaning.value ∘ Node.meaning d.known)) with
  | error e =>
    obtain ⟨n, hn, he⟩ := List.mem_map.mp (gather_eq_error hg)
    exact ((h n hn).of_eq_error he).of_reaches (.item hn (.self n))
  | ok vs =>
    rintro f ⟨tag, s, hr, hf⟩
    cases hr with
    | item hn hr =>
      obtain ⟨v, hv⟩ := gather_eq_ok hg (List.mem_map_of_mem hn)
      exact (h _ hn).of_eq_ok hv ⟨tag, s, hr, hf⟩

theorem sound_map {entries : List (Node × Node)}
    (hkey : ∀ e ∈ entries, ∃ t s, e.1 = .scalar t s ∧ e.1.IsPlain)
    (h : ∀ e ∈ entries, d.Sound e.1 ∧ d.Sound e.2) : d.Sound (.map .map entries) := by
  have own : ∀ m ∈ entries.map fun e => (e.1.meaning d.known, e.2.meaning d.known),
      m.1.tag ≠ .merge ∧ m.1.tag ≠ .defaultValue := by
    intro m hm
    obtain ⟨e, he, rfl⟩ := List.mem_map.mp hm
    obtain ⟨t, s, hts, hplain⟩ := hkey e he
    rw [hts] at hplain
    dsimp only
    rw [hts]
    constructor <;> rintro ⟨⟩ <;> simp [Node.IsPlain] at hplain
  have hassemble : ∀ e ∈ entries, keyValue (e.1.meaning d.known).value =
      (e.1.meaning d.known).value := by
    intro e he
    obtain ⟨t, s, hts, hplain⟩ := hkey e he
    rw [hts] at hplain ⊢
    exact Meaning.keyValue_ofScalar hplain
  unfold Sound
  rw [Node.meaning, Node.entryMeanings_eq, Meaning.value_ofMap_own own, List.map_map, assemble,
    List.map_map]
  cases hg : gather (entries.map ((fun e : Entry => both (keyValue e.key) e.value) ∘
      (fun e : Meaning × Meaning => ⟨e.1.value, e.2.value⟩) ∘
        fun e => (e.1.meaning d.known, e.2.meaning d.known))) with
  | error c =>
    obtain ⟨e, he, hc⟩ := List.mem_map.mp (gather_eq_error hg)
    rcases both_eq_error hc with hc | hc
    · replace hc := (hassemble e he).symm.trans hc
      exact ((h e he).1.of_eq_error hc).of_reaches (.key he (.self _))
    · exact ((h e he).2.of_eq_error hc).of_reaches (.value he (.self _))
  | ok vs =>
    have ok {e : Node × Node} (he : e ∈ entries) : (∃ v, (e.1.meaning d.known).value = .ok v) ∧
        ∃ v, (e.2.meaning d.known).value = .ok v := by
      obtain ⟨r, hr⟩ := gather_eq_ok hg (List.mem_map_of_mem he)
      obtain ⟨hk, hv⟩ := both_eq_ok hr
      exact ⟨⟨_, hassemble e he ▸ hk⟩, _, hv⟩
    rintro f ⟨tag, s, hr, hf⟩
    cases hr with
    | key he hr =>
      obtain ⟨v, hv⟩ := (ok he).1
      exact (h _ he).1.of_eq_ok hv ⟨tag, s, hr, hf⟩
    | value he hr =>
      obtain ⟨v, hv⟩ := (ok he).2
      exact (h _ he).2.of_eq_ok hv ⟨tag, s, hr, hf⟩

/-- **In a plain document the scalars alone decide** whether a node has a value. -/
theorem sound (hd : d.WellFormed) {n : Node} (hn : n.RefersBelow d.anchored.length)
    (hp : ∀ m, d.Reaches n m → m.IsPlain) : d.Sound n := by
  refine Document.ind (motive := fun n => (∀ m, d.Reaches n m → m.IsPlain) → d.Sound n)
    hd ?_ ?_ ?_ ?_ ?_ hn hp
  · exact fun tag s hp => sound_scalar (hp _ (.self _))
  · intro tag items ih hp
    obtain rfl : tag = .list := hp _ (.self _)
    exact sound_list fun n hn => ih n hn fun m hm => hp m (.item hn hm)
  · intro tag entries ih hp
    obtain ⟨rfl, hkey⟩ : tag = .map ∧ ∀ e ∈ entries, ∃ t s, e.1 = .scalar t s := hp _ (.self _)
    refine sound_map (fun e he => ?_) fun e he =>
      ⟨(ih e he).1 fun m hm => hp m (.key he hm), (ih e he).2 fun m hm => hp m (.value he hm)⟩
    obtain ⟨t, s, hts⟩ := hkey e he
    exact ⟨t, s, hts, hp _ (.key he (.self _))⟩
  · intro k m hk ih hp
    have hm := ih fun l hl => hp l (.anchor hk hl)
    unfold Sound
    rw [meaning_anchored hd hk]
    refine hm.mono (fun e he => he.of_reaches (.anchor hk (.self m))) fun _ hno f hf => ?_
    obtain ⟨tag, s, hr, hs⟩ := hf
    cases hr with
    | anchor hk' hr =>
      rw [hk] at hk'
      cases hk'
      exact hno f ⟨tag, s, hr, hs⟩
  · rintro curly - f ⟨tag, s, hr, hs⟩
    cases hr

/-- **A plain document has no value if and only if a scalar in it has none**, and the fault is one
of these. -/
theorem scalarFault_of_value_eq_error (hd : d.WellFormed) (hp : d.IsPlain) {f : Fault}
    (h : d.value = .error f) : f ≠ .malformed ∧ d.ScalarFault d.root f := by
  have hs := sound hd hd.root hp
  unfold Document.value at h
  cases hv : (d.root.meaning d.known).value with
  | ok v =>
    rw [hv] at h
    cases h
  | error e =>
    rw [hv] at h
    cases h
    obtain ⟨tag, s, hr, hf⟩ := hs.of_eq_error hv
    have hk := makesKey_scalarValue (hp _ hr)
    rw [hf] at hk
    exact ⟨hk, tag, s, hr, hf⟩

theorem exists_value_eq_error_iff (hd : d.WellFormed) (hp : d.IsPlain) :
    (∃ f, d.value = .error f) ↔ ∃ f, d.ScalarFault d.root f := by
  refine ⟨fun ⟨f, hf⟩ => ⟨f, (scalarFault_of_value_eq_error hd hp hf).2⟩, fun ⟨f, hf⟩ => ?_⟩
  unfold Document.value
  cases hv : (d.root.meaning d.known).value with
  | ok v => exact absurd hf ((sound hd hd.root hp).of_eq_ok hv)
  | error e => exact ⟨e.2, rfl⟩

end Document

/-! ## Texts -/

/-- The document of a text, if there is one. -/
def Document.ofText (text : String) : Except Fault (Option Document) :=
  Document.ofTokens (Token.ofText text.toList)

/-- What a text has a fault from: its characters, the number of its tokens, or its document. -/
inductive Fault.CausedBy (text : String) : Fault → Prop
  | text {f : Fault} : f.FoundIn (unifyBreaks text.toList) → CausedBy text f
  | depth : maxDepth ≤ (Token.ofText text.toList).length → CausedBy text .tooDeep
  | value {d : Document} {f : Fault} : Document.ofText text = .ok (some d) → d.HasFault d.root f →
      CausedBy text f

theorem Document.wellFormed_of_ofText {text : String} {d : Document}
    (h : Document.ofText text = .ok (some d)) : d.WellFormed := by
  have hm := Document.meets_ofTokens (Token.ofText text.toList)
  rw [show Document.ofTokens (Token.ofText text.toList) = .ok (some d) from h] at hm
  exact hm d rfl

theorem Fault.causedBy_of_ofText_eq_error {text : String} {f : Fault}
    (h : Document.ofText text = .error f) : f.CausedBy text := by
  have hm := Document.meets_ofTokens (Token.ofText text.toList)
  rw [show Document.ofTokens (Token.ofText text.toList) = .error f from h] at hm
  cases hm with
  | form => exact .text .form
  | broken hf => exact .text (Token.foundIn_ofText hf)
  | deep hle => exact .depth hle

theorem read_of_ofText {text : String} {d : Document} (h : Document.ofText text = .ok (some d)) :
    read text = d.value := by
  unfold read
  rw [show Document.ofTokens (Token.ofText text.toList) = .ok (some d) from h]
  rfl

/-- **A text that has no value has the fault in it.** -/
theorem Fault.causedBy_of_read_eq_error {text : String} {f : Fault} (h : read text = .error f) :
    f.CausedBy text := by
  cases ho : Document.ofText text with
  | error g =>
    unfold read at h
    rw [show Document.ofTokens (Token.ofText text.toList) = .error g from ho] at h
    cases h
    exact causedBy_of_ofText_eq_error ho
  | ok o =>
    cases o with
    | none =>
      unfold read at h
      rw [show Document.ofTokens (Token.ofText text.toList) = .ok none from ho] at h
      cases h
    | some d =>
      rw [read_of_ofText ho] at h
      rcases d.hasFault_of_value_eq_error (Document.wellFormed_of_ofText ho) h with rfl | hf
      · exact .text .form
      · exact .value ho hf

end Recurrence.Yaml
