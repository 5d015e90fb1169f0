import Recurrence.Proofs.Json.Nodes
import Recurrence.Proofs.Json.Plain
import Recurrence.Proofs.Json.Reader
import Recurrence.Proofs.Text.Capital
import Recurrence.Proofs.Yaml.Meaning

/-!
# What a JSON text means as a document

As a document a JSON text stands for a value of the same shape, but its numbers and strings are taken in
another way (`Interpretation.yaml`): some numbers are texts, and the units of a string are characters one
by one.  The node of a text has that value unless an integer is too long (`Tree.yields_meaning`).

* `Style.faithful`: the numbers and strings that are the same in JSON (`Tree.yaml_eq_json`)
* `name_yaml_eq_iff`: a name in ASCII is told alike
* `Document.Legible`: the texts that can be read as a document
* **`Document.read_of_legible`**, **`Document.exists_fault_of_not_legible`**: what reading comes to
-/

namespace Recurrence.Json

open Text Yaml

/-! ## Two ways to take a text -/

/-- What the numbers and the strings of a JSON text stand for in a document. -/
def Interpretation.yaml : Interpretation where
  number n := if n.isKept then n.value else .text (String.ofList n.chars)
  text ps := ps.map Piece.char

/-- Whether a unit is the second half of a pair; `high` says that the one before it is a first half. -/
def hasPair : (high : Bool) → List Piece → Bool
  | _, [] => false
  | _, .plain _ _ :: ps => hasPair false ps
  | _, .escape _ _ _ :: ps => hasPair false ps
  | high, .unit _ _ _ _ n _ :: ps => (high && isLow n) || hasPair (isHigh n) ps

/-- All numbers are numbers of a document, and no string has a pair of units. -/
def Style.faithful : Style where
  number n := n.isKept
  text ps := !hasPair false ps

theorem unitChar_of_half {n : Nat} (h : isHigh n = true ∨ isLow n = true) : unitChar n = '\ufffd' := by
  refine if_pos ?_
  simp only [isHigh, isLow, decide_eq_true_eq] at h
  omega

/-- Without pairs every part of a string stands for a character on its own. -/
theorem joined_eq (high : Option Nat) (ps : List Piece) (h : hasPair high.isSome ps = false) :
    joined high ps = halved high ++ ps.map Piece.char := by
  induction ps generalizing high with
  | nil => rw [joined, List.map_nil, List.append_nil]
  | cons p ps ih =>
    cases p with
    | plain c hc =>
      rw [joined, ih none h]
      rfl
    | escape c e he =>
      rw [joined, ih none h]
      rfl
    | unit a b c d n hn =>
      rw [hasPair, Bool.or_eq_false_iff] at h
      have hmore (m : Option Nat) (hm : m.isSome = isHigh n) :
          joined m ps = halved m ++ ps.map Piece.char := ih m (by rw [hm]; exact h.2)
      have halone : joined none (.unit a b c d n hn :: ps) = unitChar n :: ps.map Piece.char := by
        rw [joined]
        split
        case isTrue hhigh =>
          rw [hmore (some n) hhigh.symm, unitChar_of_half (.inl hhigh)]
          rfl
        case isFalse hhigh =>
          rw [hmore none (Bool.eq_false_iff.2 hhigh).symm]
          rfl
      cases high with
      | none => exact halone
      | some m =>
        have hlow : isLow n = false := h.1
        rw [List.map_cons, Piece.char, ← halone, joined, joined, hlow, if_neg Bool.false_ne_true]
        split <;> rfl

/-- Two ways to take the numbers and the strings of a style that come to the same. -/
structure Interpretation.Agree (k : Style) (i i' : Interpretation) : Prop where
  number : ∀ n, k.number n = true → i.number n = i'.number n
  text : ∀ ps, k.text ps = true → i.text ps = i'.text ps

section Agree

variable {k : Style} {i i' : Interpretation}

mutual

theorem Tree.ofTree_eq (hi : i.Agree k i') : (t : Tree) → t.keeps k = true → i.ofTree t = i'.ofTree t
  | .null, _ => rfl
  | .bool _, _ => rfl
  | .number n, h => hi.number n h
  | .text ps, h => congrArg (fun s => Value.text (String.ofList s)) (hi.text ps h)
  | .emptyList _, _ => rfl
  | .list gap items, h => by
    rw [Tree.keeps, Bool.and_eq_true] at h
    exact congrArg Value.list (items.ofItems_eq hi h.2)
  | .emptyMap _, _ => rfl
  | .map gap members, h => by
    rw [Tree.keeps, Bool.and_eq_true] at h
    exact congrArg Value.map (members.ofMembers_eq hi [] h.2)

theorem Items.ofItems_eq (hi : i.Agree k i') :
    (items : Items) → items.keeps k = true → i.ofItems items = i'.ofItems items
  | .last t gap, h => by
    rw [Items.keeps, Bool.and_eq_true] at h
    exact congrArg ([·]) (t.ofTree_eq hi h.1)
  | .more t gap next rest, h => by
    simp only [Items.keeps, Bool.and_eq_true] at h
    exact congrArg₂ List.cons (t.ofTree_eq hi h.1) (rest.ofItems_eq hi h.2.2.2)

theorem Members.ofMembers_eq (hi : i.Agree k i') :
    (members : Members) → (entries : List (Value × Value)) → members.keeps k = true →
      i.ofMembers entries members = i'.ofMembers entries members
  | .last l t gap, entries, h => by
    simp only [Members.keeps, Label.keeps, Bool.and_eq_true] at h
    rw [Interpretation.ofMembers, Interpretation.ofMembers, hi.text _ h.1.1, t.ofTree_eq hi h.2.1]
  | .more l t gap next rest, entries, h => by
    simp only [Members.keeps, Label.keeps, Bool.and_eq_true] at h
    rw [Interpretation.ofMembers, Interpretation.ofMembers, hi.text _ h.1.1, t.ofTree_eq hi h.2.1]
    exact rest.ofMembers_eq hi _ h.2.2.2.2

end

end Agree

/-- **A faithful text stands for what it stands for in JSON.** -/
theorem Tree.yaml_eq_json {t : Tree} (h : t.keeps Style.faithful = true) :
    Interpretation.yaml.ofTree t = Interpretation.json.ofTree t := by
  refine t.ofTree_eq ⟨fun n hn => if_pos hn, fun ps hps => ?_⟩ h
  have hpair : hasPair false ps = false := by
    rwa [Style.faithful, Bool.not_eq_true'] at hps
  exact (joined_eq none ps hpair).symm

/-! ## Names -/

/-- The members as they stand in the text. -/
def Members.entries : Members → List (Label × Tree)
  | .last l t _ => [(l, t)]
  | .more l t _ _ rest => (l, t) :: rest.entries

def Interpretation.name (i : Interpretation) (l : Label) : String := String.ofList (i.text l.name)

/-- Each half of a pair is replaced in a document. -/
theorem replacement_mem_of_hasPair {high : Bool} {ps : List Piece} (h : hasPair high ps = true) :
    '\ufffd' ∈ ps.map Piece.char := by
  induction ps generalizing high with
  | nil => cases h
  | cons p ps ih =>
    rw [List.map_cons]
    cases p with
    | plain c hc => exact List.mem_cons_of_mem _ (ih h)
    | escape c e he => exact List.mem_cons_of_mem _ (ih h)
    | unit a b c d n hn =>
      rw [hasPair, Bool.or_eq_true, Bool.and_eq_true] at h
      rcases h with ⟨-, hlow⟩ | h
      · rw [Piece.char, unitChar_of_half (.inr hlow)]
        exact List.mem_cons_self
      · exact List.mem_cons_of_mem _ (ih h)

theorem le_pairChar {m n : Nat} (hm : isHigh m = true) (hn : isLow n = true) :
    128 ≤ (pairChar m n).toNat := by
  simp only [isHigh, isLow, decide_eq_true_eq] at hm hn
  rw [pairChar, toNat_ofNat (.inr (by omega))]
  omega

/-- A unit behind the first half of a pair makes a character beyond ASCII with it, or the half is
replaced. -/
theorem exists_mem_joined_unit {m : Nat} (hm : isHigh m = true) (a b c d : Char) {n : Nat}
    (hn : hexUnit? a b c d = some n) (ps : List Piece) :
    ∃ x ∈ joined (some m) (.unit a b c d n hn :: ps), 128 ≤ x.toNat := by
  have replaced (s : List Char) : ∃ x ∈ '\ufffd' :: s, 128 ≤ x.toNat :=
    ⟨'\ufffd', List.mem_cons_self, by decide⟩
  rw [joined]
  split
  case isTrue hlow => exact ⟨_, List.mem_cons_self, le_pairChar hm hlow⟩
  case isFalse =>
    split
    case isTrue => exact replaced _
    case isFalse => exact replaced _

/-- A string with a pair is not in ASCII. -/
theorem exists_mem_joined_of_hasPair {high : Option Nat} {ps : List Piece}
    (hhigh : ∀ m ∈ high, isHigh m = true) (h : hasPair high.isSome ps = true) :
    ∃ x ∈ joined high ps, 128 ≤ x.toNat := by
  have behind (s : List Char) {s' : List Char} (h : ∃ x ∈ s', 128 ≤ x.toNat) :
      ∃ x ∈ s ++ s', 128 ≤ x.toNat :=
    have ⟨x, hx, hle⟩ := h
    ⟨x, List.mem_append_right s hx, hle⟩
  induction ps generalizing high with
  | nil => cases h
  | cons p ps ih =>
    have next (h : hasPair false ps = true) : ∃ x ∈ joined none ps, 128 ≤ x.toNat := ih nofun h
    cases p with
    | plain c hc =>
      rw [joined]
      exact behind _ (behind [c] (next h))
    | escape c e he =>
      rw [joined]
      exact behind _ (behind [e] (next h))
    | unit a b c d n hn =>
      cases high with
      | some m => exact exists_mem_joined_unit (hhigh m rfl) a b c d hn ps
      | none =>
        rw [joined]
        rw [hasPair, Option.isSome_none, Bool.false_and, Bool.false_or] at h
        split
        case isTrue hhalf =>
          have hsome : ∀ m ∈ some n, isHigh m = true := by
            rintro _ ⟨⟩
            exact hhalf
          rw [hhalf] at h
          exact ih hsome h
        case isFalse hhalf =>
          rw [Bool.eq_false_iff.2 hhalf] at h
          exact behind [unitChar n] (next h)

theorem name_yaml_eq_iff {name : String} (hname : IsAscii name.toList) (l : Label) :
    Interpretation.yaml.name l = name ↔ Interpretation.json.name l = name := by
  cases hpair : hasPair false l.name with
  | false =>
    have htext : Interpretation.json.text l.name = Interpretation.yaml.text l.name :=
      joined_eq none l.name hpair
    rw [Interpretation.name, Interpretation.name, htext]
  | true =>
    refine iff_of_false ?_ ?_
    · rintro rfl
      rw [Interpretation.name, String.toList_ofList] at hname
      exact absurd (hname _ (replacement_mem_of_hasPair hpair)) (by decide)
    · rintro rfl
      rw [Interpretation.name, String.toList_ofList] at hname
      obtain ⟨c, hc, hle⟩ : ∃ c ∈ joined none l.name, 128 ≤ c.toNat :=
        exists_mem_joined_of_hasPair nofun hpair
      exact absurd (hname c hc) (Nat.not_lt_of_le hle)

/-! ## Words -/

/-- No integer is too long to be read. -/
def Style.short : Style where
  number n := !n.isWhole || n.whole.length ≤ maxDigits

theorem yields_number (n : Numeral) :
    Yields (!n.isWhole || n.whole.length ≤ maxDigits) (Interpretation.yaml.number n)
      (Meaning.ofScalar (Tag.ofPlain n.chars) n.chars).value := by
  rw [n.ofPlain_chars, Interpretation.yaml]
  dsimp only
  cases hw : n.isWhole with
  | true =>
    have hkept : n.isKept = true := by
      rw [Numeral.isWhole, Bool.and_eq_true, Option.isNone_iff_eq_none] at hw
      rw [Numeral.isKept, hw.2]
    rw [if_pos rfl, if_pos hkept, Bool.not_true, Bool.false_or]
    show Yields _ _ ((integerValue n.chars).mapError fun f => (0, f))
    rw [n.integerValue_chars hw]
    by_cases hlength : n.whole.length ≤ maxDigits
    · rw [if_pos hlength, decide_eq_true hlength]
      exact rfl
    · rw [if_neg hlength, decide_eq_false hlength]
      exact ⟨_, rfl⟩
  | false =>
    rw [if_neg Bool.false_ne_true, Bool.not_false, Bool.true_or]
    cases n.isKept with
    | true =>
      show Yields _ _ ((floatValue n.chars).mapError fun f => (0, f))
      rw [n.floatValue_chars hw]
      exact rfl
    | false => exact rfl

theorem ofPlain_null : Tag.ofPlain "null".toList = .null := by decide

theorem ofPlain_true : Tag.ofPlain "true".toList = .bool := by decide

theorem ofPlain_false : Tag.ofPlain "false".toList = .bool := by decide

/-! ## Members -/

/-- A name is put among the members as it is in JSON. -/
theorem put_text (name : String) (v : Value) (es : List (Value × Value)) :
    put (.text name) v es = putMember name v es := by
  induction es with
  | nil => rfl
  | cons e es ih =>
    obtain ⟨k, w⟩ := e
    cases k with
    | text s =>
      show (if (s == name) = true then (Value.text s, v) :: es else (.text s, w) :: put _ v es) =
        if s = name then (Value.text s, v) :: es else (.text s, w) :: putMember name v es
      rw [ih]
      simp only [beq_iff_eq]
    | _ => exact congrArg (List.cons _) ih

namespace Interpretation

variable (i : Interpretation)

theorem ofMembers_eq : (members : Members) → (es : List (Value × Value)) →
    i.ofMembers es members =
      members.entries.foldl (fun es m => putMember (i.name m.1) (i.ofTree m.2) es) es
  | .last _ _ _, _ => rfl
  | .more _ _ _ _ rest, _ => ofMembers_eq rest _

/-- The names and values of the members. -/
def pairs (members : Members) : List (Value × Value) :=
  members.entries.map fun m => (.text (i.name m.1), i.ofTree m.2)

theorem foldl_pairs (members : Members) (es : List (Value × Value)) :
    (i.pairs members).foldl (fun es e => put e.1 e.2 es) es = i.ofMembers es members := by
  rw [pairs, List.foldl_map, i.ofMembers_eq]
  simp only [put_text]

end Interpretation

/-! ## Nodes -/

theorem Members.tag_of_mem_nodes {known : List Meaning} {e : Meaning × Meaning} :
    (members : Members) → e ∈ Node.entryMeanings known members.nodes → e.1.tag = .text
  | .last l t gap, h => by
    rw [List.mem_singleton.1 h]
    rfl
  | .more l t gap next rest, h => by
    rcases List.mem_cons.1 h with rfl | h
    · rfl
    · exact rest.tag_of_mem_nodes h

section Meanings

variable {known : List Meaning}

mutual

/-- **A value means what it stands for**, unless an integer in it is too long. -/
theorem Tree.yields_meaning : (t : Tree) →
    Yields (t.keeps Style.short) (Interpretation.yaml.ofTree t) (t.node.meaning known).value
  | .null => by
    rw [Tree.node, wordNode, ofPlain_null]
    exact rfl
  | .bool true => by
    rw [Tree.node, wordNode, ofPlain_true]
    exact rfl
  | .bool false => by
    rw [Tree.node, wordNode, ofPlain_false]
    exact rfl
  | .number n => yields_number n
  | .text ps => yields_of_ok rfl
  | .emptyList gap => yields_of_ok rfl
  | .list gap items => items.yields_meanings.below.map Value.list
  | .emptyMap gap => yields_of_ok rfl
  | .map gap members => by
    show Yields _ _ (Meaning.ofMap .map (Node.entryMeanings known members.nodes)).value
    rw [Meaning.value_ofMap_own fun e he => by rw [members.tag_of_mem_nodes he]; decide]
    refine Yields.map (Yields.below ?_) Value.map
    rw [← Interpretation.foldl_pairs]
    rw [assemble, List.map_map]
    exact members.yields_entries.map _

theorem Items.yields_meanings : (items : Items) →
    Yields (items.keeps Style.short) (Interpretation.yaml.ofItems items)
      (gather ((Node.meanings known items.nodes).map Meaning.value))
  | .last t _ => t.yields_meaning.gather_cons (yields_of_ok rfl)
  | .more t _ _ rest => t.yields_meaning.gather_cons rest.yields_meanings

theorem Members.yields_entries : (members : Members) →
    Yields (members.keeps Style.short) (Interpretation.yaml.pairs members)
      (gather ((Node.entryMeanings known members.nodes).map fun e =>
        both (keyValue e.1.value) e.2.value))
  | .last _ t _ => ((yields_of_ok rfl).both t.yields_meaning).gather_cons (yields_of_ok rfl)
  | .more _ t _ _ rest =>
    ((yields_of_ok rfl).both t.yields_meaning).gather_cons rest.yields_entries

end

end Meanings

/-! ## Texts -/

/-- **The JSON texts that can be read as a document.** -/
structure Document.Legible (d : Document) : Prop where
  /-- no character that a document cannot hold, which in JSON is the delete character -/
  allowed : (d.chars Gap.chars).all isAllowed = true
  tabless : d.keeps Style.tabless = true
  near : d.root.keeps Style.near = true
  short : d.root.keeps Style.short = true
  height : d.root.height ≤ maxDepth

/-- The value of a document without anchors is that of its root. -/
theorem yields_value {ok : Bool} {v : Value} {n : Node}
    (h : Yields ok v (n.meaning []).value) : Yields ok v (Yaml.Document.value ⟨[], n⟩) := by
  show Yields ok v ((n.meaning []).value.mapError (·.2))
  cases ok with
  | true =>
    rw [show (n.meaning []).value = .ok v from h]
    exact rfl
  | false =>
    obtain ⟨e, he⟩ := h
    rw [he]
    exact ⟨e.2, rfl⟩

namespace Document

variable {text : String} {d : Document}

theorem yields_read (htext : text.toList = d.chars Gap.chars) (hroot : d.root.isWord = false)
    (hallowed : (d.chars Gap.chars).all isAllowed = true) (htabless : d.keeps Style.tabless = true) :
    Yields ((d.root.keeps Style.near && d.root.height ≤ maxDepth) && d.root.keeps Style.short)
      (Interpretation.yaml.ofTree d.root) (Yaml.read text) := by
  have hdocument := ofTokens_eq d.root
  rw [← ofText_eq hroot hallowed htabless, ← htext] at hdocument
  cases hok : d.root.keeps Style.near && d.root.height ≤ maxDepth with
  | true =>
    rw [hok, if_pos rfl] at hdocument
    rw [read_of_ofText hdocument, Bool.true_and]
    exact yields_value d.root.yields_meaning
  | false =>
    rw [hok, if_neg Bool.false_ne_true] at hdocument
    obtain ⟨f, hf⟩ := hdocument
    refine ⟨f, ?_⟩
    rw [Yaml.read, hf]
    rfl

/-- **A legible text means what it stands for as a document.** -/
theorem read_of_legible (htext : text.toList = d.chars Gap.chars) (hroot : d.root.isWord = false)
    (hd : d.Legible) : Yaml.read text = .ok (Interpretation.yaml.ofTree d.root) := by
  have h := yields_read htext hroot hd.allowed hd.tabless
  rwa [hd.near, hd.short, decide_eq_true hd.height] at h

/-- **A text that is not legible has no value as a document.** -/
theorem exists_fault_of_not_legible (htext : text.toList = d.chars Gap.chars)
    (hroot : d.root.isWord = false) (hd : ¬d.Legible) : ∃ f, Yaml.read text = .error f := by
  by_cases hscan : (d.chars Gap.chars).all isAllowed = true ∧ d.keeps Style.tabless = true
  · have h := yields_read htext hroot hscan.1 hscan.2
    have hok : ((d.root.keeps Style.near && d.root.height ≤ maxDepth) && d.root.keeps Style.short) =
        false := by
      refine Bool.eq_false_iff.2 fun hok => hd ?_
      simp only [Bool.and_eq_true, decide_eq_true_eq] at hok
      exact ⟨hscan.1, hscan.2, hok.1.1, hok.2, hok.1.2⟩
    rwa [hok] at h
  · obtain ⟨f, hf⟩ := exists_fault_of_finish_not_mem (finish_not_mem hroot hscan)
    refine ⟨f, ?_⟩
    rw [Yaml.read, htext, hf]
    rfl

end Document

end Recurrence.Json
