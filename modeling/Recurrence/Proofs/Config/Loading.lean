import Mathlib.Control.Monad.Basic
import Recurrence.CommandLine.Run
import Recurrence.Proofs.Yaml.Meaning

/-!
# What loading a configuration comes to

A text is read as a document, its value has to be a map, and sizes, times and the name of a level are
taken from it.  The writer of a file is told about a broken form, and the run ends with 1.  There are
faults beyond that, which break the run off: a value that does not exist (`Yaml.Fault.CausedBy`), and a
value that is of no use as a setting (`Config.Unfit`).

* `Config.ofValue_outcomes`: the settings of a value, exactly
* `Config.ofText_outcomes`: the settings of a text, exactly
* `Config.breaksOff_iff`: of a plain document the scalars and the three settings decide
* **`load_outcomes`**: what becomes of a text and of every run with it
-/

namespace Recurrence

open Yaml

namespace Config

/-! ## Settings -/

/-- A size or time is infinite, or the name of the level has no spelling. -/
inductive Unfit (v : Value) : Prop
  | size (negative : Bool) : v.field? "cache_max_size" = some (.float (.infinite negative)) → Unfit v
  | ttl (negative : Bool) :
      v.field? "cache_ttl_seconds" = some (.float (.infinite negative)) → Unfit v
  | level (x : Value) : v.field? "log_level" = some x → x.isSpellable = false → Unfit v

theorem integer_eq_error_iff {x : Value} {e : ConfigError} :
    integer x = .error e ↔ e = .infinite ∧ ∃ negative, x = .float (.infinite negative) := by
  constructor
  · intro h
    unfold integer at h
    split at h
    case h_3 =>
      split at h
      · cases h
        exact ⟨rfl, _, rfl⟩
      · cases h
    all_goals cases h
  · rintro ⟨rfl, negative, rfl⟩
    rfl

theorem positive_eq_error_iff {v : Value} {name : String} {default : Positive} {e : ConfigError} :
    positive v name default = .error e ↔
      e = .infinite ∧ ∃ negative, v.field? name = some (.float (.infinite negative)) := by
  unfold positive
  cases hf : v.field? name with
  | none => simp
  | some x =>
    dsimp only
    cases hx : integer x with
    | ok i =>
      have hfinite : ¬∃ negative, x = .float (.infinite negative) := fun h => by
        rw [integer_eq_error_iff.mpr ⟨rfl, h⟩] at hx
        cases hx
      simpa [Except.map] using fun _ => hfinite
    | error e' =>
      obtain ⟨rfl, negative, rfl⟩ := integer_eq_error_iff.mp hx
      simp [Except.map, eq_comm]

theorem level_eq_error_iff {v : Value} {e : ConfigError} :
    level v = .error e ↔ e = .document .noSuchValue ∧
      ∃ x, v.field? "log_level" = some x ∧ x.isSpellable = false := by
  unfold level
  split
  case h_1 h => simp [h]
  case h_2 h => simp [h, Value.isSpellable]
  case h_3 x _ h =>
    by_cases hx : x.isSpellable
    · simp [h, hx]
    · rw [if_neg hx]
      constructor
      · rintro ⟨⟩
        exact ⟨rfl, x, h, Bool.eq_false_iff.mpr hx⟩
      · rintro ⟨rfl, -⟩
        rfl

/-- **A value has settings, unless one of three entries is of no use.** -/
theorem ofValue_outcomes (v : Value) :
    ¬Unfit v ∧ (∃ c, ofValue v = .ok c) ∨
      Unfit v ∧ ∃ e, ofValue v = .error e ∧ e.isReported = false := by
  unfold ofValue
  cases hsize : positive v "cache_max_size" Config.default.cacheMaxSize with
  | error e =>
    obtain ⟨rfl, negative, h⟩ := positive_eq_error_iff.mp hsize
    exact .inr ⟨.size negative h, _, rfl, rfl⟩
  | ok size =>
  cases httl : positive v "cache_ttl_seconds" Config.default.cacheTtlSeconds with
  | error e =>
    obtain ⟨rfl, negative, h⟩ := positive_eq_error_iff.mp httl
    exact .inr ⟨.ttl negative h, _, rfl, rfl⟩
  | ok ttl =>
  cases hlevel : level v with
  | error e =>
    obtain ⟨rfl, x, h, hx⟩ := level_eq_error_iff.mp hlevel
    exact .inr ⟨.level x h hx, _, rfl, rfl⟩
  | ok name =>
    refine .inl ⟨fun hu => ?_, _, rfl⟩
    cases hu with
    | size negative h => exact nomatch hsize.symm.trans (positive_eq_error_iff.mpr ⟨rfl, negative, h⟩)
    | ttl negative h => exact nomatch httl.symm.trans (positive_eq_error_iff.mpr ⟨rfl, negative, h⟩)
    | level x h hx => exact nomatch hlevel.symm.trans (level_eq_error_iff.mpr ⟨rfl, x, h, hx⟩)

/-! ## Texts -/

/-- Loading the text breaks off: it has no value though its form is sound, or a setting is unfit. -/
inductive BreaksOff (text : String) : Prop
  | value (f : Yaml.Fault) : Yaml.read text = .error f → f ≠ .malformed → BreaksOff text
  | setting (v : Value) : Yaml.read text = .ok v → Unfit v → BreaksOff text

theorem not_unfit_of_field? {v : Value} (h : ∀ name, v.field? name = none) : ¬Unfit v := by
  rintro (⟨_, hf⟩ | ⟨_, hf⟩ | ⟨_, hf, _⟩) <;> rw [h] at hf <;> cases hf

/-- **A text has settings, or its form is at fault, or loading it breaks off.** -/
theorem ofText_outcomes (text : String) :
    ¬BreaksOff text ∧
        ((∃ c, ofText text = .ok c) ∨ ∃ e, ofText text = .error e ∧ e.isReported = true) ∨
      BreaksOff text ∧ ∃ e, ofText text = .error e ∧ e.isReported = false := by
  unfold ofText
  cases hr : Yaml.read text with
  | error f =>
    by_cases hf : f = .malformed
    · refine .inl ⟨?_, .inr ⟨_, rfl, by rw [hf]; rfl⟩⟩
      rintro (⟨g, hg, hne⟩ | ⟨v, hv, -⟩)
      · cases hr.symm.trans hg
        exact hne hf
      · cases hr.symm.trans hv
    · refine .inr ⟨.value f hr hf, _, rfl, ?_⟩
      cases f <;> first | rfl | exact absurd rfl hf
  | ok v =>
    have breaksOff_iff : BreaksOff text ↔ Unfit v := by
      refine ⟨?_, .setting v hr⟩
      rintro (⟨g, hg, -⟩ | ⟨w, hw, hu⟩)
      · cases hr.symm.trans hg
      · cases hr.symm.trans hw
        exact hu
    rw [breaksOff_iff]
    have fit_of_notMap (h : ∀ name, v.field? name = none) (hd : ofDocument v = .error .notMap) :
        ¬Unfit v ∧ ((∃ c, ofDocument v = .ok c) ∨
          ∃ e, ofDocument v = .error e ∧ e.isReported = true) :=
      ⟨not_unfit_of_field? h, .inr ⟨_, hd, rfl⟩⟩
    cases v with
    | null =>
      rcases ofValue_outcomes (.map []) with ⟨-, hc⟩ | ⟨hu, -⟩
      · exact .inl ⟨not_unfit_of_field? fun _ => rfl, .inl hc⟩
      · exact absurd hu (not_unfit_of_field? fun _ => rfl)
    | map entries => exact (ofValue_outcomes (.map entries)).imp (.imp_right .inl) id
    | _ => exact .inl (fit_of_notMap (fun _ => rfl) rfl)

/-- Of a plain document its scalars and the three settings decide whether loading breaks off. -/
theorem breaksOff_iff {text : String} {d : Document} (h : Document.ofText text = .ok (some d))
    (hp : d.IsPlain) :
    BreaksOff text ↔ (∃ f, d.ScalarFault d.root f) ∨ ∃ v, d.value = .ok v ∧ Unfit v := by
  have hd := Document.wellFormed_of_ofText h
  have hr := read_of_ofText h
  constructor
  · rintro (⟨f, hf, -⟩ | ⟨v, hv, hu⟩)
    · exact .inl ⟨f, (d.scalarFault_of_value_eq_error hd hp (hr ▸ hf)).2⟩
    · exact .inr ⟨v, hr ▸ hv, hu⟩
  · rintro (hf | ⟨v, hv, hu⟩)
    · obtain ⟨f, hf⟩ := (d.exists_value_eq_error_iff hd hp).mpr hf
      exact .value f (hr.trans hf) (d.scalarFault_of_value_eq_error hd hp hf).1
    · exact .setting v (hr.trans hv) hu

end Config

/-! ## Runs -/

theorem Command.run_ne_config (c : Command) (cache : ExpansionCache) (e : ConfigError) :
    c.run cache ≠ .error (.config e) := by
  unfold run
  cases c with
  | describe => nofun
  | expand => dsimp only; split <;> nofun
  | clamp => dsimp only; split <;> nofun
  | validate => dsimp only; split <;> nofun

namespace Invocation

/-- Once there are settings, they are no reason to fail. -/
theorem run_ne_config {text : String} {c : Config} (h : Config.ofText text = .ok c) (i : Invocation)
    (env : Environment) (log : LogSettings) (e : ConfigError) :
    i.run env (.text text) log ≠ .error (.config e) := by
  intro hr
  unfold run at hr
  rw [show Config.ofFile (.text text) = .ok c from h] at hr
  dsimp only at hr
  cases hc : i.command.run (ExpansionCache.ofConfig c) with
  | ok r =>
    rw [hc] at hr
    cases hr
  | error e' =>
    rw [hc] at hr
    cases hr
    exact i.command.run_ne_config _ e hc

theorem run_of_error {text : String} {e : ConfigError} (h : Config.ofText text = .error e)
    (i : Invocation) (env : Environment) (log : LogSettings) :
    i.run env (.text text) log =
      if e.isReported then .ok ⟨1, "", "Error: " ++ e.message ++ "\n", log⟩
      else .error (.config e) := by
  unfold run
  rw [show Config.ofFile (.text text) = .error e from h]

end Invocation

/-- **What loading a configuration comes to, and a run with it.**  There are settings, with sizes and
times of at least 1, and the run goes on with them; or the form of the text is at fault, and every run
says so and ends with 1; or every run breaks off.  In the last case a setting is unfit, or the text has
no value because of what stands in it; in a plain document that is a scalar. -/
theorem load_outcomes (text : String) :
    (¬Config.BreaksOff text ∧
          (∃ c, Config.ofText text = .ok c ∧ 1 ≤ c.cacheMaxSize.val ∧ 1 ≤ c.cacheTtlSeconds.val ∧
            ∀ (i : Invocation) (env : Environment) (log : LogSettings) (e : ConfigError),
              i.run env (.text text) log ≠ .error (.config e)) ∨
        ¬Config.BreaksOff text ∧
          (∃ e, Config.ofText text = .error e ∧ e.isReported = true ∧
            ∀ (i : Invocation) (env : Environment) (log : LogSettings),
              i.run env (.text text) log = .ok ⟨1, "", "Error: " ++ e.message ++ "\n", log⟩) ∨
        Config.BreaksOff text ∧
          (∃ e, Config.ofText text = .error e ∧ e.isReported = false ∧
            ∀ (i : Invocation) (env : Environment) (log : LogSettings),
              i.run env (.text text) log = .error (.config e))) ∧
      (∀ f, Yaml.read text = .error f → f.CausedBy text) ∧
      ∀ d, Document.ofText text = .ok (some d) → d.IsPlain →
        (Config.BreaksOff text ↔
          (∃ f, d.ScalarFault d.root f) ∨ ∃ v, d.value = .ok v ∧ Config.Unfit v) := by
  refine ⟨?_, fun f => Yaml.Fault.causedBy_of_read_eq_error, fun d => Config.breaksOff_iff⟩
  rcases Config.ofText_outcomes text with ⟨hb, ⟨c, hc⟩ | ⟨e, he, hrep⟩⟩ | ⟨hb, e, he, hrep⟩
  · exact .inl ⟨hb, c, hc, c.cacheMaxSize.property, c.cacheTtlSeconds.property,
      Invocation.run_ne_config hc⟩
  · refine .inr (.inl ⟨hb, e, he, hrep, fun i env log => ?_⟩)
    rw [i.run_of_error he, if_pos hrep]
  · refine .inr (.inr ⟨hb, e, he, hrep, fun i env log => ?_⟩)
    rw [i.run_of_error he, if_neg (Bool.eq_false_iff.mp hrep)]

namespace Yaml.Document

/-- The document of a text that gives the thirteenth month as its one setting. -/
def thirteenthMonth : Document where
  anchored := []
  root := .map .map [(.scalar .text "debug".toList, .scalar .time "2024-13-01".toList)]

theorem isPlain_thirteenthMonth : thirteenthMonth.IsPlain := by
  intro n hn
  unfold thirteenthMonth at hn
  cases hn with
  | self => simp [Node.IsPlain]
  | key he hr =>
    rw [List.mem_singleton.mp he] at hr
    cases hr
    simp [Node.IsPlain]
  | value he hr =>
    rw [List.mem_singleton.mp he] at hr
    cases hr
    simp [Node.IsPlain]

end Yaml.Document

/-- The thirteenth month is the only scalar there that has no value. -/
theorem load_outcomes_thirteenthMonth : Config.BreaksOff "debug: 2024-13-01\n" := by
  have hd : Document.ofText "debug: 2024-13-01\n" = .ok (some .thirteenthMonth) := by
    with_unfolding_all rfl
  refine ((load_outcomes _).2.2 _ hd Document.isPlain_thirteenthMonth).mpr (.inl ⟨.noSuchValue, ?_⟩)
  exact ⟨.time, _, .value (List.mem_singleton_self _) (.self _), rfl⟩

/-- An infinite size, and a day that no calendar has: loading breaks off, and its writer is not told. -/
theorem load_fails :
    Config.ofText "cache_max_size: .inf\n" = .error .infinite ∧
      Config.ofText "debug: 2024-13-01\n" = .error (.document .noSuchValue) ∧
      ConfigError.isReported .infinite = false ∧
      ConfigError.isReported (.document .noSuchValue) = false := by
  refine ⟨?_, ?_, rfl, rfl⟩ <;> decide +kernel

end Recurrence
