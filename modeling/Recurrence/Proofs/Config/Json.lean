import Recurrence.Config.File
import Recurrence.Proofs.Json.Meaning

/-!
# JSON texts as configuration files

A configuration file is read as a document, whatever is in it.  Of a JSON text it is read if the text is
legible (`Json.Document.Legible`), and then the settings are those of its value as a document.  That value
may differ from the one in JSON, but no more than four members count (`Config.settings`): if these are
faithful then the settings are those that JSON gives (`ofFile_json`).

* `Config.ofValue_congr`: settings are told by four members
* `Json.Tree.field?_eq`: a faithful member is the same in JSON and in a document
* **`Config.ofFile_json`**: what a JSON text comes to as a configuration file
-/

namespace Recurrence

open Json

/-! ## Members that count -/

namespace Config

def settings : List String := ["cache_max_size", "cache_ttl_seconds", "log_level", "debug"]

/-- All other members are ignored. -/
theorem ofValue_congr {v w : Value} (h : ∀ name ∈ settings, v.field? name = w.field? name) :
    ofValue v = ofValue w := by
  have hsize := h "cache_max_size" (by simp [settings])
  have httl := h "cache_ttl_seconds" (by simp [settings])
  have hlevel := h "log_level" (by simp [settings])
  have hdebug := h "debug" (by simp [settings])
  simp only [ofValue, positive, level, debugging, hsize, httl, hlevel, hdebug]

theorem isAscii_of_mem_settings {name : String} (h : name ∈ settings) : IsAscii name.toList := by
  have hall : settings.all (fun name => name.toList.all (·.toNat < 128)) = true := by decide
  exact isAscii_of_all (List.all_eq_true.1 hall name h)

end Config

namespace Json

theorem field?_text (name key : String) (v : Value) (es : List (Value × Value)) :
    (Value.map ((.text name, v) :: es)).field? key =
      if name = key then some v else (Value.map es).field? key := by
  simp only [Value.field?, List.find?_cons]
  cases hname : name == key with
  | true => rw [if_pos (beq_iff_eq.1 hname), Option.map_some]
  | false => rw [if_neg (beq_eq_false_iff_ne.1 hname)]

theorem field?_putMember (name key : String) (v : Value) (es : List (Value × Value)) :
    (Value.map (putMember name v es)).field? key =
      if name = key then some v else (Value.map es).field? key := by
  induction es with
  | nil => exact field?_text name key v []
  | cons e es ih =>
    obtain ⟨k, w⟩ := e
    cases k with
    | text s =>
      rw [putMember]
      split
      case isTrue hname =>
        rw [field?_text, field?_text, hname]
        split <;> rfl
      case isFalse hname =>
        rw [field?_text, field?_text, ih]
        by_cases hs : s = key
        · rw [if_pos hs, if_pos hs, if_neg (hs ▸ Ne.symm hname)]
        · rw [if_neg hs, if_neg hs]
    | _ => exact ih

/-- Two objects are the same at a key if their members with this name are. -/
theorem field?_foldl {i i' : Interpretation} {key : String} (ms : List (Label × Tree))
    (h : ∀ m ∈ ms, (i.name m.1 = key ↔ i'.name m.1 = key) ∧
      (i'.name m.1 = key → i.ofTree m.2 = i'.ofTree m.2)) {es es' : List (Value × Value)}
    (hes : (Value.map es).field? key = (Value.map es').field? key) :
    (Value.map (ms.foldl (fun es m => putMember (i.name m.1) (i.ofTree m.2) es) es)).field? key =
      (Value.map (ms.foldl (fun es m => putMember (i'.name m.1) (i'.ofTree m.2) es) es')).field? key := by
  induction ms generalizing es es' with
  | nil => exact hes
  | cons m ms ih =>
    obtain ⟨hm, hms⟩ := List.forall_mem_cons.1 h
    refine ih hms ?_
    rw [field?_putMember, field?_putMember]
    by_cases hname : i'.name m.1 = key
    · rw [if_pos (hm.1.2 hname), if_pos hname, hm.2 hname]
    · rw [if_neg (mt hm.1.1 hname), if_neg hname, hes]

/-- The members of an object. -/
def Tree.entries : Tree → List (Label × Tree)
  | .map _ members => members.entries
  | _ => []

theorem Numeral.value_cases (n : Numeral) :
    (∃ i, n.value = .int i) ∨ ∃ x, n.value = .float x := by
  unfold Numeral.value numberOf
  split
  case isTrue => exact .inl ⟨_, rfl⟩
  case isFalse => exact .inr ⟨_, rfl⟩

/-- What is an object in JSON is one in a document. -/
theorem Tree.exists_map {t : Tree} {es : List (Value × Value)}
    (h : Interpretation.json.ofTree t = .map es) :
    t.isWord = false ∧ ∃ es', Interpretation.yaml.ofTree t = .map es' := by
  cases t with
  | emptyMap gap => exact ⟨rfl, _, rfl⟩
  | map gap members => exact ⟨rfl, _, rfl⟩
  | number n =>
    replace h : n.value = .map es := h
    rcases n.value_cases with ⟨i, hi⟩ | ⟨x, hx⟩
    · rw [hi] at h
      cases h
    · rw [hx] at h
      cases h
  | _ => cases h

/-- **A member that is faithful is the same** in a document and in JSON. -/
theorem Tree.field?_eq {t : Tree} {es : List (Value × Value)}
    (ht : Interpretation.json.ofTree t = .map es) {key : String} (hkey : IsAscii key.toList)
    (h : ∀ m ∈ t.entries, Interpretation.json.name m.1 = key → m.2.keeps Style.faithful = true) :
    (Interpretation.yaml.ofTree t).field? key = (Value.map es).field? key := by
  rw [← ht]
  cases t with
  | map gap members =>
    rw [Interpretation.ofTree, Interpretation.ofTree, Interpretation.ofMembers_eq,
      Interpretation.ofMembers_eq]
    exact field?_foldl _ (fun m hm =>
      ⟨name_yaml_eq_iff hkey m.1, fun hname => Tree.yaml_eq_json (h m hm hname)⟩) rfl
  | emptyMap gap => rfl
  | number n => cases (Tree.exists_map ht).1
  | _ => cases ht

/-! ## An object with one member -/

/-- A string without escapes. -/
def plainPieces (s : String) : List Piece :=
  s.toList.filterMap fun c => if h : isOrdinary c = true then some (.plain c h) else none

def Gap.none : Gap := ⟨[], List.forall_mem_nil _⟩

/-- An object with a size and nothing else, and a gap in front of the size. -/
def Document.sized (gap : Gap) (n : Numeral) : Document where
  before := .none
  root := .map .none (.last ⟨plainPieces "cache_max_size", .none, gap⟩ (.number n) .none)
  after := .none

def Numeral.sixtyFour : Numeral :=
  ⟨false, ['6', '4'], [], none, by decide, by decide, by decide, by decide⟩

/-- An exponent of 3, without a point in front of it. -/
def Numeral.thousand : Numeral :=
  ⟨false, ['1'], [], some ⟨'E', none, ['3'], .inr rfl, by decide, by decide⟩, by decide, by decide,
    by decide, by decide⟩

def Gap.single : Gap := ⟨[' '], List.forall_mem_singleton.2 rfl⟩

def Gap.tab : Gap := ⟨['\t'], List.forall_mem_singleton.2 rfl⟩

theorem Document.legible_sized : (Document.sized .single .sixtyFour).Legible := by
  constructor <;> decide +kernel

theorem Document.read?_sized {text : String} {gap : Gap} {n : Numeral}
    (h : text.toList = (Document.sized gap n).chars Gap.chars) :
    Json.read? text = some (.map [(.text "cache_max_size", n.value)]) := by
  rw [read?_of_chars h]
  rfl

end Json

/-! ## Files -/

namespace Config

theorem ofFile_of_read {text : String} {es : List (Value × Value)}
    (h : Yaml.read text = .ok (.map es)) : ofFile (.text text) = ofValue (.map es) := by
  rw [ofFile, ofText, h]
  rfl

/-- **What a JSON text comes to as a configuration file.**  A text that is not legible is refused.  A
legible one has the settings of its value as a document, and if the members that count are faithful then
these are the settings of its value in JSON. -/
theorem ofFile_json {text : String} {es : List (Value × Value)} (hascii : IsAscii text.toList)
    (h : Json.read? text = some (.map es)) :
    (∃ d : Document, text.toList = d.chars Gap.chars) ∧
      ∀ d : Document, text.toList = d.chars Gap.chars →
        (d.Legible → ofFile (.text text) = ofValue (Interpretation.yaml.ofTree d.root)) ∧
        (d.Legible → (∀ m ∈ d.root.entries, Interpretation.json.name m.1 ∈ settings →
          m.2.keeps Style.faithful = true) → ofFile (.text text) = ofValue (.map es)) ∧
        (¬d.Legible → ∃ f, ofFile (.text text) = .error (.document f)) := by
  refine ⟨(exists_document_of_read? hascii h).imp fun d hd => hd.1, fun d htext => ?_⟩
  have hjson : Interpretation.json.ofTree d.root = .map es := by
    rw [read?_of_chars htext] at h
    exact Option.some.inj h
  obtain ⟨hroot, es', hyaml⟩ := Tree.exists_map hjson
  have hlegible (hd : d.Legible) :
      ofFile (.text text) = ofValue (Interpretation.yaml.ofTree d.root) := by
    have hread := d.read_of_legible htext hroot hd
    rw [hyaml] at hread ⊢
    exact ofFile_of_read hread
  refine ⟨hlegible, fun hd hfaithful => ?_, fun hd => ?_⟩
  · rw [hlegible hd]
    refine ofValue_congr fun name hname => ?_
    refine Tree.field?_eq hjson (isAscii_of_mem_settings hname) fun m hm hm' => ?_
    exact hfaithful m hm (hm' ▸ hname)
  · obtain ⟨f, hf⟩ := d.exists_fault_of_not_legible htext hroot hd
    refine ⟨f, ?_⟩
    rw [ofFile, ofText, hf]

theorem ofFile_json_sized :
    ofFile (.text "\x7b\"cache_max_size\": 64\x7d") =
      .ok { Config.default with cacheMaxSize := ⟨64, by decide⟩ } := by
  have htext : "\x7b\"cache_max_size\": 64\x7d".toList =
      (Document.sized .single .sixtyFour).chars Gap.chars := by
    decide +kernel
  have hascii : IsAscii "\x7b\"cache_max_size\": 64\x7d".toList :=
    isAscii_of_all (by decide +kernel)
  have h := ((ofFile_json hascii (Document.read?_sized htext)).2 _ htext).2.1
    Document.legible_sized (by decide +kernel)
  rw [h]
  decide +kernel

/-- A number that is none in a document loses its size, and a tab between two signs is refused. -/
theorem json_file_differs :
    (Json.read? "\x7b\"cache_max_size\": 1E3\x7d" =
        some (.map [(.text "cache_max_size", Numeral.thousand.value)]) ∧
      ofValue (.map [(.text "cache_max_size", Numeral.thousand.value)]) =
        .ok { Config.default with cacheMaxSize := ⟨1000, by decide⟩ } ∧
      ofFile (.text "\x7b\"cache_max_size\": 1E3\x7d") = .ok Config.default) ∧
    Json.read? "\x7b\"cache_max_size\":\t64\x7d" =
        some (.map [(.text "cache_max_size", Numeral.sixtyFour.value)]) ∧
      ofValue (.map [(.text "cache_max_size", Numeral.sixtyFour.value)]) =
        .ok { Config.default with cacheMaxSize := ⟨64, by decide⟩ } ∧
      ofFile (.text "\x7b\"cache_max_size\":\t64\x7d") = .error (.document .malformed) := by
  have hthousand : "\x7b\"cache_max_size\": 1E3\x7d".toList =
      (Document.sized .single .thousand).chars Gap.chars := by
    decide +kernel
  have htab : "\x7b\"cache_max_size\":\t64\x7d".toList =
      (Document.sized .tab .sixtyFour).chars Gap.chars := by
    decide +kernel
  refine ⟨⟨Document.read?_sized hthousand, ?_, ?_⟩, Document.read?_sized htab, ?_, ?_⟩
  all_goals decide +kernel

end Config

end Recurrence
