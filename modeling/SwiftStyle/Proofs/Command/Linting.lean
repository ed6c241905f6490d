import SwiftStyle.Command.Run
import SwiftStyle.Proofs.Command.Choice
import SwiftStyle.Proofs.Lint.Roots
import SwiftStyle.Proofs.Report.Merging
import SwiftStyle.Proofs.Report.RoundTrip
import SwiftStyle.Proofs.Text.Bytes

/-!
# Proofs/Command/Linting — how a lint run ends

A lint run either fails at one of seven points (`LintArguments.Fails`) or comes to a report that can
be told (`LintArguments.Reports`, `LintArguments.Tellable`), and never both.  A failure is exit
code 2 with nothing printed; a report is printed, and then the exit code tells whether one of its
findings reaches the threshold (`LintArguments.exit_status`).  In JSON the levels of the findings
can be read back, so whoever has the output knows the exit code.
-/

namespace SwiftStyle

/-! ## Levels of a printed report -/

/-- The levels of the findings in the JSON text of a report. -/
def printedLevels? (output : String) : Option (List Severity) := do
  let violations ← (← (← Json.parse? output).field? "violations").asArray?
  violations.mapM fun v => (v.field? "severity").bind Severity.ofJson?

/-- **The levels of a JSON report are those of its findings.** -/
theorem printedLevels?_render (r : Report) (coloured : Bool) :
    printedLevels? (r.render .json coloured) = some (r.violations.map (·.severity)) := by
  have hread : Json.parse? (r.render .json coloured) = some r.toJson :=
    (Json.parse?_pretty r.readable_toJson).2
  have hfield : r.toJson.field? "violations" = some (.array (r.violations.map Violation.toJson)) :=
    rfl
  rw [printedLevels?, hread, Option.bind_eq_bind, Option.bind_some, hfield, Option.bind_eq_bind,
    Option.bind_some, Json.asArray?, Option.bind_some]
  induction r.violations with
  | nil => rfl
  | cons v violations ih =>
    have hlevel : (v.toJson.field? "severity").bind Severity.ofJson? = some v.severity :=
      v.severity.ofJson?_toJson
    rw [List.map_cons, List.mapM_cons, hlevel, ih]
    rfl

namespace Linter

/-- Every text has a report: there is none without a structure. -/
theorem lintContents_extractor (linter : Linter) (contents : String) :
    linter.lintContents Swift.extractor contents
      = .ok (linter.check ⟨none, contents, Swift.structureOf contents⟩).asReport := by
  rw [lintContents, Extractor.unitOf, Swift.extractor]

/-! ## Workers -/

section Workers

variable {faults : Faults} {rules : List Rule} {config : Config}

/-- **There is a linter** if the workers that were asked for can be started. -/
theorem build_eq_ok_iff {linter : Linter} : build faults rules config = .ok linter ↔
    linter = ⟨rules, config⟩ ∧
      ∀ n, config.linter.jobs = some n → 0 < n → faults.workers? n = none := by
  have hnone : (config.linter.jobs.filter (0 < ·)).bind faults.workers? = none ↔
      ∀ n, config.linter.jobs = some n → 0 < n → faults.workers? n = none := by
    simp [Option.bind_eq_none_iff, Option.filter_eq_some_iff]
  rw [← hnone, build]
  cases (config.linter.jobs.filter (0 < ·)).bind faults.workers? <;> simp [eq_comm]

theorem build_eq_error_iff {e : PoolError} : build faults rules config = .error e ↔
    ∃ n, config.linter.jobs = some n ∧ 0 < n ∧ faults.workers? n = some e := by
  have hsome : (config.linter.jobs.filter (0 < ·)).bind faults.workers? = some e ↔
      ∃ n, config.linter.jobs = some n ∧ 0 < n ∧ faults.workers? n = some e := by
    simp [Option.bind_eq_some_iff, Option.filter_eq_some_iff, and_assoc]
  rw [← hsome, build]
  cases (config.linter.jobs.filter (0 < ·)).bind faults.workers? <;> simp

end Workers

/-! ## Linters with the same reports -/

section Congr

variable {linter linter' : Linter} (hcheck : ∀ unit, linter'.check unit = linter.check unit)
include hcheck

theorem lintContents_congr (x : Extractor) (contents : String) :
    linter'.lintContents x contents = linter.lintContents x contents := by
  simp only [lintContents, hcheck]

theorem lintFile_congr (x : Extractor) (t : FileTree) (file : Path) :
    linter'.lintFile x t file = linter.lintFile x t file := by
  simp only [lintFile, hcheck]

/-- **Linters that discover the same and check alike have the same reports.** -/
theorem lintPaths_congr {x : Extractor} {t : FileTree} {roots : List Path}
    (hfiles : (Discovery.ofSettings linter'.config.linter).discover t roots
      = (Discovery.ofSettings linter.config.linter).discover t roots) :
    linter'.lintPaths x t roots = linter.lintPaths x t roots := by
  have hfile : linter'.lintFile x t = linter.lintFile x t :=
    funext fun file => lintFile_congr hcheck x t file
  simp only [lintPaths, lintFiles, hfiles, hfile]

end Congr

end Linter

/-- Without a configuration file the defaults hold. -/
theorem Config.load_eq_of_default {t : FileTree} {env : Environment} {project : Path}
    {explicit : Option Path} (h : resolve t env project explicit = .default) :
    load t env project explicit = .ok {} := by
  rw [load, h]
  rfl

namespace Command

section Surroundings

variable {s : Surroundings} {faults : Faults}

theorem loadConfig_eq_ok_iff {common : Common} {config : Config} :
    loadConfig s common = .ok config ↔
      Config.load s.tree s.environment projectDirectory common.config = .ok config :=
  mapError_eq_ok_iff

theorem inputText_eq_ok_iff {contents : String} : s.inputText faults = .ok contents ↔
    faults.input? = none ∧ String.fromUTF8? s.input = some contents := by
  rw [Surroundings.inputText]
  cases faults.input? with
  | some e => simp
  | none => cases String.fromUTF8? s.input <;> simp

theorem inputText_eq_error_iff {e : FileError} : s.inputText faults = .error e ↔
    faults.input? = some e ∨
      faults.input? = none ∧ String.fromUTF8? s.input = none ∧ e = .notText := by
  rw [Surroundings.inputText]
  cases faults.input? with
  | some e => simp
  | none => cases String.fromUTF8? s.input <;> simp [eq_comm]

end Surroundings

namespace LintArguments

/-! ## How a lint run can end -/

/-- The configuration of a lint run: further patterns are added, and the number of workers is
replaced if there is one. -/
def effective (a : LintArguments) (config : Config) : Config :=
  { config with
    linter :=
      { config.linter with
        exclude := config.linter.exclude ++ a.exclude
        jobs := a.jobs.or config.linter.jobs } }

/-- The level at which a finding makes the run fail: the one asked for, or the configured one. -/
def threshold (a : LintArguments) (config : Config) : Severity :=
  a.failOn.getD config.linter.failOn

section Endings

variable (a : LintArguments) (s : Surroundings) (common : Common) (faults : Faults)

/-- The configuration is there, and the rules are known. -/
structure Chosen (config : Config) (rules : List Rule) : Prop where
  load : Config.load s.tree s.environment projectDirectory common.config = .ok config
  choose : a.chooseRules config = .ok rules

/-- Besides, the workers that were asked for can be started. -/
structure Prepared (config : Config) (rules : List Rule) : Prop
    extends a.Chosen s common config rules where
  workers : ∀ n, (a.effective config).linter.jobs = some n → 0 < n → faults.workers? n = none

/-- The linter at work. -/
def linter (config : Config) (rules : List Rule) : Linter := ⟨rules, a.effective config⟩

/-- **A lint run comes to a report**, on its input or on the files under its roots. -/
inductive Reports (config : Config) (report : Report) : Prop
  | ofInput {rules : List Rule} {contents : String}
      (prepared : a.Prepared s common faults config rules) (asked : a.fromInput = true)
      (read : faults.input? = none) (input : String.fromUTF8? s.input = some contents)
      (lint : (a.linter config rules).lintContents Swift.extractor contents = .ok report)
  | ofPaths {rules : List Rule} (prepared : a.Prepared s common faults config rules)
      (asked : a.fromInput = false)
      (lint : (a.linter config rules).lintPaths Swift.extractor s.tree a.roots = .ok report)

/-- **A lint run fails**: there is no configuration, a rule is unknown, workers cannot be started,
the input cannot be read or is no text, there is nothing to lint, or JSON has no place for the file
of a finding. -/
inductive Fails : CommandError → Prop
  | config {e : ConfigLoadError}
      (load : Config.load s.tree s.environment projectDirectory common.config = .error e) :
      Fails (.config e)
  | rules {config : Config} {e : Catalog.UnknownRule}
      (load : Config.load s.tree s.environment projectDirectory common.config = .ok config)
      (choose : a.chooseRules config = .error e) : Fails (.unknownRule e)
  | workers {config : Config} {rules : List Rule} {n : Nat} {e : PoolError}
      (chosen : a.Chosen s common config rules)
      (jobs : (a.effective config).linter.jobs = some n) (pos : 0 < n)
      (fault : faults.workers? n = some e) : Fails (.noLinter e)
  | inputNotRead {config : Config} {rules : List Rule} {e : FileError}
      (prepared : a.Prepared s common faults config rules) (asked : a.fromInput = true)
      (fault : faults.input? = some e) : Fails (.inputNotRead e)
  | inputNotText {config : Config} {rules : List Rule}
      (prepared : a.Prepared s common faults config rules) (asked : a.fromInput = true)
      (read : faults.input? = none) (input : String.fromUTF8? s.input = none) :
      Fails (.inputNotRead .notText)
  | files {config : Config} {rules : List Rule}
      (prepared : a.Prepared s common faults config rules) (asked : a.fromInput = false)
      (none : (Discovery.ofSettings (a.effective config).linter).discover s.tree a.roots = []) :
      Fails (.lint (.noFiles a.roots))
  | printing {config : Config} {report : Report} {v : Violation} {file : Path}
      (reports : a.Reports s common faults config report) (json : a.format = .json)
      (mem : v ∈ report.violations) (inFile : v.location.file = some file)
      (fault : faults.unprintable file = true) : Fails .pathNotText

/-- **A report can be told**: in JSON, if every file with a finding has a path that is a text. -/
def Tellable (report : Report) : Prop :=
  a.format = .json → ∀ v ∈ report.violations, ∀ file, v.location.file = some file →
    faults.unprintable file = false

end Endings

variable {a : LintArguments} {s : Surroundings} {common : Common} {faults : Faults}
  {config : Config} {report : Report}

theorem tellable_or (a : LintArguments) (faults : Faults) (report : Report) :
    a.Tellable faults report ∨ a.format = .json ∧
      ∃ v ∈ report.violations, ∃ file, v.location.file = some file ∧
        faults.unprintable file = true := by
  rw [or_iff_not_imp_left, Tellable]
  simp

/-- **A report is printed** if it can be told. -/
theorem print_eq_ok (h : a.Tellable faults report) :
    a.print faults report = .ok (report.render a.format false) := by
  rw [print, if_neg]
  rintro ⟨hjson, hany⟩
  obtain ⟨v, hv, hfile⟩ := List.any_eq_true.1 hany
  obtain ⟨file, hfile, hfault⟩ := (Option.any_eq_true _ _).1 hfile
  simp [h hjson v hv file hfile] at hfault

theorem print_eq_error {v : Violation} {file : Path} (json : a.format = .json)
    (mem : v ∈ report.violations) (inFile : v.location.file = some file)
    (fault : faults.unprintable file = true) :
    a.print faults report = .error .pathNotText := by
  rw [print, if_pos ⟨json, List.any_eq_true.2 ⟨v, mem, by simp [inFile, fault]⟩⟩]

/-- **Linters that check alike** have the same reports, if they discover the same files. -/
theorem report_congr (s : Surroundings) (faults : Faults) {linter linter' : Linter}
    (hcheck : ∀ unit, linter'.check unit = linter.check unit)
    (hfiles : a.fromInput = false →
      (Discovery.ofSettings linter'.config.linter).discover s.tree a.roots
        = (Discovery.ofSettings linter.config.linter).discover s.tree a.roots) :
    a.report s faults linter' = a.report s faults linter := by
  rw [LintArguments.report, LintArguments.report]
  split
  · simp only [Linter.lintContents_congr hcheck]
  · next hasked => rw [Linter.lintPaths_congr hcheck (hfiles (by simpa using hasked))]

/-- What is printed, and whether a finding reaches the threshold. -/
def answer (a : LintArguments) (config : Config) (report : Report) : String × Bool :=
  (report.render a.format false, report.hasViolationsAt (a.threshold config))

/-! ## A lint run, step by step -/

/-- **Where no rules can be chosen** nothing is linted. -/
theorem run_eq_error_of_chooseRules {e : Catalog.UnknownRule}
    (hload : Config.load s.tree s.environment projectDirectory common.config = .ok config)
    (h : a.chooseRules config = .error e) : a.run s common faults = .error (.unknownRule e) := by
  have hadjust : a.chooseRules (a.adjust config) = .error e := h
  rw [run, loadConfig_eq_ok_iff.2 hload]
  simp only [bind, Except.bind, hadjust, Except.mapError]

/-- **When rules are chosen** a linter is built, and what it reports is printed. -/
theorem Chosen.run_eq {rules : List Rule} (h : a.Chosen s common config rules) :
    a.run s common faults = do
      let linter ← (Linter.build faults rules (a.adjust config)).mapError .noLinter
      let report ← a.report s faults linter
      return (← a.print faults report, report.hasViolationsAt (a.threshold config)) := by
  have hchoose : a.chooseRules (a.adjust config) = .ok rules := h.choose
  rw [run, loadConfig_eq_ok_iff.2 h.load]
  simp only [bind, Except.bind, hchoose, Except.mapError]
  rfl

theorem Prepared.run_eq {rules : List Rule} (h : a.Prepared s common faults config rules) :
    a.run s common faults = do
      let report ← a.report s faults (a.linter config rules)
      return (← a.print faults report, report.hasViolationsAt (a.threshold config)) := by
  -- the threshold has no influence on a report
  have hreport : a.report s faults ⟨rules, a.adjust config⟩
      = a.report s faults (a.linter config rules) :=
    report_congr s faults (fun _ => rfl) fun _ => rfl
  have hbuild : Linter.build faults rules (a.adjust config) = .ok ⟨rules, a.adjust config⟩ :=
    Linter.build_eq_ok_iff.2 ⟨rfl, h.workers⟩
  rw [h.toChosen.run_eq, hbuild, ← hreport]
  rfl

theorem Prepared.run_eq_error {rules : List Rule} {e : CommandError}
    (h : a.Prepared s common faults config rules)
    (hreport : a.report s faults (a.linter config rules) = .error e) :
    a.run s common faults = .error e := by
  rw [h.run_eq, hreport]
  rfl

theorem Reports.exists_prepared (h : a.Reports s common faults config report) :
    ∃ rules, a.Prepared s common faults config rules := by
  cases h with
  | ofInput prepared => exact ⟨_, prepared⟩
  | ofPaths prepared => exact ⟨_, prepared⟩

/-- **What is reported is printed.** -/
theorem Reports.run_eq (h : a.Reports s common faults config report) :
    a.run s common faults = do
      return (← a.print faults report, report.hasViolationsAt (a.threshold config)) := by
  cases h with
  | ofInput prepared asked read input lint =>
    have hinput := inputText_eq_ok_iff.2 ⟨read, input⟩
    rw [prepared.run_eq, LintArguments.report, if_pos asked, hinput]
    simp only [bind, Except.bind, lint, Except.mapError]
  | ofPaths prepared asked lint =>
    rw [prepared.run_eq, LintArguments.report, if_neg (by simp [asked]), lint]
    rfl

/-- **A lint run that comes to a report answers with it.** -/
theorem Reports.run_eq_ok (h : a.Reports s common faults config report)
    (htellable : a.Tellable faults report) :
    a.run s common faults = .ok (a.answer config report) := by
  rw [h.run_eq, print_eq_ok htellable]
  rfl

/-- **A lint run that fails answers with its error.** -/
theorem Fails.run_eq {e : CommandError} (h : a.Fails s common faults e) :
    a.run s common faults = .error e := by
  cases h with
  | config load => rw [run, loadConfig, load]; rfl
  | rules load choose => exact run_eq_error_of_chooseRules load choose
  | @workers config rules n e chosen jobs pos fault =>
    have hbuild : Linter.build faults rules (a.adjust config) = .error e :=
      Linter.build_eq_error_iff.2 ⟨n, jobs, pos, fault⟩
    rw [chosen.run_eq, hbuild]
    rfl
  | inputNotRead prepared asked fault =>
    refine prepared.run_eq_error ?_
    rw [report, if_pos asked, inputText_eq_error_iff.2 (.inl fault)]
    rfl
  | inputNotText prepared asked read input =>
    refine prepared.run_eq_error ?_
    rw [report, if_pos asked, inputText_eq_error_iff.2 (.inr ⟨read, input, rfl⟩)]
    rfl
  | @files config rules prepared asked none =>
    have hlint : (a.linter config rules).lintPaths Swift.extractor s.tree a.roots
        = .error (.noFiles a.roots) := Linter.lintPaths_eq_error_iff.2 ⟨none, rfl⟩
    refine prepared.run_eq_error ?_
    rw [report, if_neg (by simp [asked]), hlint]
    rfl
  | printing reports json mem inFile fault =>
    rw [reports.run_eq, print_eq_error json mem inFile fault]
    rfl

theorem fails_or_prepared (a : LintArguments) (s : Surroundings) (common : Common)
    (faults : Faults) : (∃ e, a.Fails s common faults e) ∨
      ∃ config rules, a.Prepared s common faults config rules := by
  cases hload : Config.load s.tree s.environment projectDirectory common.config with
  | error e => exact .inl ⟨_, .config hload⟩
  | ok config =>
    cases hchoose : a.chooseRules config with
    | error e => exact .inl ⟨_, .rules hload hchoose⟩
    | ok rules =>
      cases hbuild : Linter.build faults rules (a.effective config) with
      | error e =>
        obtain ⟨n, hjobs, hpos, hfault⟩ := Linter.build_eq_error_iff.1 hbuild
        exact .inl ⟨_, .workers ⟨hload, hchoose⟩ hjobs hpos hfault⟩
      | ok linter =>
        exact .inr ⟨config, rules, ⟨hload, hchoose⟩, (Linter.build_eq_ok_iff.1 hbuild).2⟩

theorem Prepared.fails_or_reports {rules : List Rule}
    (h : a.Prepared s common faults config rules) :
    (∃ e, a.Fails s common faults e) ∨ ∃ report, a.Reports s common faults config report := by
  cases hasked : a.fromInput with
  | false =>
    cases hlint : (a.linter config rules).lintPaths Swift.extractor s.tree a.roots with
    | error e => exact .inl ⟨_, .files h hasked (Linter.lintPaths_eq_error_iff.1 hlint).1⟩
    | ok report => exact .inr ⟨_, .ofPaths h hasked hlint⟩
  | true =>
    cases hread : faults.input? with
    | some e => exact .inl ⟨_, .inputNotRead h hasked hread⟩
    | none =>
      cases hinput : String.fromUTF8? s.input with
      | none => exact .inl ⟨_, .inputNotText h hasked hread hinput⟩
      | some contents =>
        have hlint := (a.linter config rules).lintContents_extractor contents
        exact .inr ⟨_, .ofInput h hasked hread hinput hlint⟩

/-- **A lint run fails or comes to a report that can be told.** -/
theorem fails_or_reports (a : LintArguments) (s : Surroundings) (common : Common)
    (faults : Faults) :
    (∃ e, a.Fails s common faults e) ∨
      ∃ config report, a.Reports s common faults config report ∧ a.Tellable faults report := by
  obtain hfails | ⟨config, rules, hprepared⟩ := a.fails_or_prepared s common faults
  · exact .inl hfails
  obtain hfails | ⟨report, hreports⟩ := hprepared.fails_or_reports
  · exact .inl hfails
  obtain htellable | ⟨hjson, v, hv, file, hfile, hfault⟩ := a.tellable_or faults report
  · exact .inr ⟨config, report, hreports, htellable⟩
  · exact .inl ⟨_, .printing hreports hjson hv hfile hfault⟩

/-! ## Exit codes -/

section Outcome

variable {arguments : List String} (hparse : parse arguments = .ok ⟨common, .lint a⟩)
include hparse

theorem run_arguments_eq : Command.run arguments s faults = a.outcome s common faults := by
  rw [Command.run, hparse]
  rfl

theorem Fails.outcome_eq {e : CommandError} (h : a.Fails s common faults e) :
    Command.run arguments s faults = .failed s.tree e := by
  rw [run_arguments_eq hparse, outcome, h.run_eq]

theorem Reports.outcome_eq (h : a.Reports s common faults config report)
    (htellable : a.Tellable faults report) :
    Command.run arguments s faults =
      { exitCode :=
          if report.hasViolationsAt (a.threshold config) then .findings else .success
        output := report.render a.format false
        tree := s.tree } := by
  rw [run_arguments_eq hparse, outcome, h.run_eq_ok htellable]
  rfl

theorem Reports.exitCode_number_eq (h : a.Reports s common faults config report)
    (htellable : a.Tellable faults report) :
    (Command.run arguments s faults).exitCode.number
      = if ∃ v ∈ report.violations, a.threshold config ≤ v.severity then 1 else 0 := by
  rw [h.outcome_eq hparse htellable]
  simp only [Report.hasViolationsAt_iff]
  split <;> rfl

end Outcome

/-- **How a lint run ends.**  It exits with 2 and prints nothing exactly when it fails; otherwise it
comes to a report.  A report is printed without colour, and the exit code is 1 if a finding in it
reaches the threshold and 0 if none does, whatever the diagnostics are.  In JSON the levels of the
findings are printed, so the exit code can be told from the output and the threshold. -/
theorem exit_status {arguments : List String} {common : Common} {a : LintArguments}
    (hparse : parse arguments = .ok ⟨common, .lint a⟩) (s : Surroundings) (faults : Faults) :
    ((Command.run arguments s faults).exitCode.number = 2 ∧
      (Command.run arguments s faults).output = "" ↔ ∃ e, a.Fails s common faults e) ∧
    ((∃ e, a.Fails s common faults e) ∨
      ∃ config report, a.Reports s common faults config report ∧ a.Tellable faults report) ∧
    ∀ config report, a.Reports s common faults config report → a.Tellable faults report →
      (Command.run arguments s faults).output = report.render a.format false ∧
      ((Command.run arguments s faults).exitCode.number = 1 ↔
        ∃ v ∈ report.violations, a.threshold config ≤ v.severity) ∧
      ((Command.run arguments s faults).exitCode.number = 0 ↔
        ∀ v ∈ report.violations, ¬a.threshold config ≤ v.severity) ∧
      (a.format = .json → ∃ levels,
        printedLevels? (Command.run arguments s faults).output = some levels ∧
        ((Command.run arguments s faults).exitCode.number = 1 ↔
          ∃ level ∈ levels, a.threshold config ≤ level)) := by
  refine ⟨⟨?_, ?_⟩, a.fails_or_reports s common faults, fun config report h htellable => ?_⟩
  · rintro ⟨hcode, -⟩
    refine (a.fails_or_reports s common faults).resolve_right ?_
    rintro ⟨config, report, h, htellable⟩
    rw [h.exitCode_number_eq hparse htellable] at hcode
    split at hcode <;> cases hcode
  · rintro ⟨e, h⟩
    rw [h.outcome_eq hparse]
    exact ⟨rfl, rfl⟩
  · have hcode := h.exitCode_number_eq hparse htellable
    have hone : (Command.run arguments s faults).exitCode.number = 1 ↔
        ∃ v ∈ report.violations, a.threshold config ≤ v.severity := by
      rw [hcode]
      split <;> simp_all
    have houtput : (Command.run arguments s faults).output = report.render a.format false := by
      rw [h.outcome_eq hparse htellable]
    refine ⟨houtput, hone, ?_, fun hjson => ⟨report.violations.map (·.severity), ?_, ?_⟩⟩
    · rw [hcode]
      split <;> simp_all
    · rw [houtput, hjson, printedLevels?_render]
    · rw [hone]
      simp

namespace Gate

/-- A text from standard input, without a newline at its end. -/
def surroundings : Surroundings where
  tree := {}
  input := "let a = 1".toUTF8

/-- What the command line below asks for. -/
def arguments : LintArguments where
  fromInput := true
  format := .json
  rules := ["trailing_newline"]
  failOn := some .medium

/-- What the rule finds. -/
def finding : Violation where
  rule := "trailing_newline"
  severity := .medium
  location := { line := 2 }
  reason := "File should have a single trailing newline."

/-- No pool of more than eight workers can be started. -/
def crowded : Faults where
  workers? n := if 8 < n then some { cause := "Resource temporarily unavailable" } else none

theorem chosen : arguments.Chosen surroundings {} {} [TrailingNewline.rule] :=
  ⟨Config.load_eq_of_default (by decide +kernel), rfl⟩

theorem reports : ∃ report, arguments.Reports surroundings {} crowded {} report ∧
    report.violations = [finding] := by
  have hprepared : arguments.Prepared surroundings {} crowded {} [TrailingNewline.rule] :=
    ⟨chosen, fun n hn => by cases hn⟩
  refine ⟨_, .ofInput hprepared rfl rfl (fromUTF8?_toUTF8 "let a = 1")
    (Linter.lintContents_extractor _ _), ?_⟩
  exact Linter.violations_check_eq (by decide +kernel) (by decide +kernel)

theorem tellable (report : Report) : arguments.Tellable crowded report :=
  fun _ _ _ _ _ => rfl

end Gate

/-- A finding that reaches the threshold; then a rule that is unknown, more workers than can be
started, and an input that cannot be read. -/
theorem exit_status_gate :
    let passed := ["lint", "--stdin", "--format", "json", "--fail-on", "medium",
      "--rules", "trailing_newline"]
    let misnamed := ["lint", "--stdin", "--rules", "nope"]
    let overstaffed := ["lint", "--stdin", "--jobs", "9"]
    let lost : Faults := { input? := some (.other "Input/output error") }
    (Command.run passed Gate.surroundings Gate.crowded).exitCode.number = 1 ∧
    printedLevels? (Command.run passed Gate.surroundings Gate.crowded).output = some [.medium] ∧
    ((Command.run misnamed Gate.surroundings {}).exitCode.number = 2 ∧
      (Command.run misnamed Gate.surroundings {}).output = "") ∧
    ((Command.run overstaffed Gate.surroundings Gate.crowded).exitCode.number = 2 ∧
      (Command.run overstaffed Gate.surroundings Gate.crowded).output = "") ∧
    (Command.run passed Gate.surroundings lost).exitCode.number = 2 ∧
      (Command.run passed Gate.surroundings lost).output = "" := by
  intro passed misnamed overstaffed lost
  obtain ⟨report, hreports, hfindings⟩ := Gate.reports
  have hpassed : parse passed = .ok ⟨{}, .lint Gate.arguments⟩ := by decide +kernel
  have hmisnamed : parse misnamed = .ok ⟨{}, .lint { fromInput := true, rules := ["nope"] }⟩ := by
    decide +kernel
  have hoverstaffed : parse overstaffed
      = .ok ⟨{}, .lint { fromInput := true, jobs := some 9 }⟩ := by decide +kernel
  have hload : Config.load {} {} projectDirectory none = .ok {} :=
    Config.load_eq_of_default (by decide +kernel)
  obtain ⟨-, -, hprinted⟩ := exit_status hpassed Gate.surroundings Gate.crowded
  obtain ⟨houtput, hone, -, -⟩ := hprinted {} report hreports (Gate.tellable report)
  obtain ⟨hunknown, -, -⟩ := exit_status hmisnamed Gate.surroundings {}
  obtain ⟨hcrowded, -, -⟩ := exit_status hoverstaffed Gate.surroundings Gate.crowded
  obtain ⟨hlost, -, -⟩ := exit_status hpassed Gate.surroundings lost
  refine ⟨hone.2 ⟨Gate.finding, by simp [hfindings], by decide⟩, ?_,
    hunknown.2 ⟨_, .rules hload rfl⟩, hcrowded.2 ⟨_, .workers ⟨hload, rfl⟩ rfl (by decide) rfl⟩,
    hlost.2 ⟨_, .inputNotRead ⟨Gate.chosen, fun n hn => by cases hn⟩ rfl rfl⟩⟩
  rw [houtput]
  exact (printedLevels?_render report false).trans (by rw [hfindings]; rfl)

end LintArguments

end Command

end SwiftStyle
