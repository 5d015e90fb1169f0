import Mathlib.Control.Monad.Basic
import Recurrence.CommandLine.Run
import Recurrence.Proofs.Text.Steady

/-!
# The level of the root logger

A run sets up the log in two steps.  The first gives the root logger the level of the configuration, or
`DEBUG` if the environment asks for debugging.  The second gives it a level once more, from the
environment and from whether debugging is on, and does not look at the one that is there
(`LogSettings.configure_start`).  So the first step has no effect on the root logger.

What the settings promise is `Environment.promisedLevel`.  It comes about exactly if the second step has
all that it takes to know it (**`Invocation.root_after_run`**): if the environment names a level, or
debugging is on in the words that the second step knows too, or neither debugging nor a level other than
`INFO` is asked for.
-/

namespace Recurrence

open Text

namespace LogLevel

/-- The levels that may be set. -/
def announced : List LogLevel := [debug, info, warning, error]

/-- The one of them that a text names, in any case. -/
def announced? (s : List Char) : Option LogLevel :=
  announced.find? fun l => l.name == String.ofList (upper s)

end LogLevel

namespace Environment

/-- The level that the root logger should have: the one that the environment names, or `DEBUG` if
debugging is asked for by a flag, the configuration or the environment, or the configured one. -/
def promisedLevel (env : Environment) (c : Config) (flag : Bool) : LogLevel :=
  (LogLevel.announced? (textOf env.logLevel)).getD
    (if flag || c.debug || env.asksForDebug then .debug
    else (LogLevel.announced? c.logLevel.toList).getD .info)

theorem rootLevel?_eq (env : Environment) :
    env.rootLevel? = LogLevel.announced? (textOf env.logLevel) := by
  unfold rootLevel? LogLevel.announced?
  split
  case h_5 hdebug hinfo hwarning herror =>
    symm
    rw [List.find?_eq_none]
    intro l hl
    simp only [LogLevel.announced, List.mem_cons, List.not_mem_nil, or_false] at hl
    rcases hl with rfl | rfl | rfl | rfl
    · exact fun h => hdebug (eq_of_beq h).symm
    · exact fun h => hinfo (eq_of_beq h).symm
    · exact fun h => hwarning (eq_of_beq h).symm
    · exact fun h => herror (eq_of_beq h).symm
  all_goals
    rename_i h
    rw [h]
    rfl

/-- A word that forces debugging has no blanks around it, so that it asks for debugging as well. -/
theorem asksForDebug_of_forcesDebug {env : Environment} (h : env.forcesDebug = true) :
    env.asksForDebug = true := by
  have hword : String.ofList ((textOf env.debug).map Char.toLower) ∈ ["1", "true", "yes"] :=
    List.contains_iff_mem.1 h
  have hunblank : ∀ c ∈ textOf env.debug, isBlank c = false := by
    intro c hc
    refine Bool.eq_false_iff.2 fun hblank => ?_
    have hsame : c.toLower = c := by
      refine dif_neg fun hcapital => ?_
      have hlower : 65 ≤ c.toNat := hcapital.1
      have hupper : c.toNat ≤ 90 := hcapital.2
      simp only [isBlank, Bool.or_eq_true, Bool.and_eq_true, decide_eq_true_eq, beq_iff_eq] at hblank
      omega
    have hwords : (["1", "true", "yes"].all fun w => w.toList.all fun d => !isBlank d) = true := by
      decide
    have hmem : c ∈ (String.ofList ((textOf env.debug).map Char.toLower)).toList := by
      rw [String.toList_ofList, ← hsame]
      exact List.mem_map_of_mem hc
    have hclear := List.all_eq_true.1 (List.all_eq_true.1 hwords _ hword) c hmem
    rw [hblank] at hclear
    exact Bool.false_ne_true hclear
  have hlenient : String.ofList ((textOf env.debug).map Char.toLower) ∈ ["1", "true", "yes", "on"] :=
    List.mem_append_left ["on"] hword
  rw [asksForDebug, strip_of_unblank hunblank]
  exact List.contains_iff_mem.2 hlenient

end Environment

namespace LogSettings

/-- The second step does not look at the level that the first one has set. -/
theorem configure_start (s : LogSettings) (env : Environment) (level : Option String) (debug : Bool)
    (force : Option Bool) :
    (s.start env level).configure env debug force = s.configure env debug force := rfl

end LogSettings

namespace Invocation

variable {i : Invocation} {env : Environment} {file : FileContent} {log : LogSettings} {c : Config}
  {r : RunResult}

theorem log_of_run (hc : Config.ofFile file = .ok c) (hr : i.run env file log = .ok r) :
    r.log = i.logSettings env c log := by
  unfold run at hr
  rw [hc] at hr
  dsimp only at hr
  cases hcommand : i.command.run (ExpansionCache.ofConfig c) with
  | error e =>
    rw [hcommand] at hr
    cases hr
  | ok result =>
    rw [hcommand] at hr
    cases hr
    rfl

/-- The configured level has no say in any of the levels. -/
theorem logSettings_eq (i : Invocation) (env : Environment) (c : Config) (log : LogSettings) :
    i.logSettings env c log = log.configure env (c.debug || i.debug) none :=
  log.configure_start env _ _ none

/-- **The level of the root logger after a run.**  It is the one that the environment names; else it is
`DEBUG` if the environment forces debugging, or the configuration or a flag asks for it; and else it is
`INFO`, whatever level is configured.  This is the level that the settings promise exactly if one of
these decides, or neither debugging nor another level is asked for. -/
theorem root_after_run (hc : Config.ofFile file = .ok c) (hr : i.run env file log = .ok r) :
    r.log.root = (LogLevel.announced? (Environment.textOf env.logLevel)).getD
        (if env.forcesDebug || c.debug || i.debug then .debug else .info) ∧
      (∀ level, i.logSettings env { c with logLevel := level } log = r.log) ∧
      (r.log.root = env.promisedLevel c i.debug ↔
        (LogLevel.announced? (Environment.textOf env.logLevel)).isSome = true ∨
          i.debug = true ∨ c.debug = true ∨ env.forcesDebug = true ∨
            env.asksForDebug = false ∧ (LogLevel.announced? c.logLevel.toList).getD .info = .info) := by
  have hlog := log_of_run hc hr
  have hroot : r.log.root = (LogLevel.announced? (Environment.textOf env.logLevel)).getD
      (if env.forcesDebug || c.debug || i.debug then .debug else .info) := by
    rw [hlog, logSettings_eq, ← env.rootLevel?_eq, Bool.or_assoc]
    rfl
  refine ⟨hroot, fun level => by rw [hlog, logSettings_eq, logSettings_eq], ?_⟩
  rw [hroot, Environment.promisedLevel]
  cases LogLevel.announced? (Environment.textOf env.logLevel) with
  | some l => simp
  | none =>
    rw [Option.getD_none, Option.getD_none]
    cases hflag : i.debug with
    | true => simp
    | false =>
    cases hconfigured : c.debug with
    | true => simp
    | false =>
    cases hforced : env.forcesDebug with
    | true => simp [Environment.asksForDebug_of_forcesDebug hforced]
    | false =>
    cases hasked : env.asksForDebug with
    | true => simp
    | false => simp [eq_comm]

/-- A run that checks a rule, without flags. -/
def checkDaily : Invocation := ⟨none, false, .validate "FREQ=DAILY"⟩

/-- The settings of a file that asks for warnings only. -/
def onlyWarnings : Config := { Config.default with logLevel := "WARNING" }

theorem ofFile_onlyWarnings : Config.ofFile (.text "log_level: WARNING\n") = .ok onlyWarnings := by
  decide +kernel

/-- A level in the environment decides, in any case. -/
theorem root_after_run_error :
    ∃ r, checkDaily.run { logLevel := some "error" } (.text "log_level: WARNING\n") .fresh = .ok r ∧
      r.log.root = .error ∧
      r.log.root = Environment.promisedLevel { logLevel := some "error" } onlyWarnings false := by
  have hroot : (checkDaily.run { logLevel := some "error" } (.text "log_level: WARNING\n") .fresh).map
      (fun r => r.log.root) = .ok .error := by
    decide +kernel
  cases hr : checkDaily.run { logLevel := some "error" } (.text "log_level: WARNING\n") .fresh with
  | error e =>
    rw [hr] at hroot
    cases hroot
  | ok r =>
    rw [hr] at hroot
    obtain ⟨-, -, hiff⟩ := root_after_run ofFile_onlyWarnings hr
    exact ⟨r, rfl, Except.ok.inj hroot, hiff.2 (.inl (by decide +kernel))⟩

/-- Without one, the configured level has no effect, and neither has a word for debugging that only the
first step knows. -/
theorem configured_level_lost :
    (checkDaily.run {} (.text "log_level: WARNING\n") .fresh).map (fun r => r.log.root) = .ok .info ∧
      Environment.promisedLevel {} onlyWarnings false = .warning ∧
      (checkDaily.run { debug := some "on" } .missing .fresh).map (fun r => r.log.root) = .ok .info ∧
      Environment.promisedLevel { debug := some "on" } .default false = .debug := by
  refine ⟨?_, ?_, ?_, ?_⟩ <;> decide +kernel

end Invocation

end Recurrence
