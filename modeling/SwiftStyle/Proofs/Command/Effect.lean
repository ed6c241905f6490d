import SwiftStyle.Proofs.Command.Linting

/-!
# Proofs/Command/Effect — the rules that take effect

A lint run reports what the rules that take effect find, and nothing else: in a text, or in one file
after the other (`LintArguments.Tells`).  Each of these rules runs once, and which ones they are is
told by the names, the preset and the switches alone (`LintArguments.rules_taking_effect`).
-/

open Std

namespace SwiftStyle

/-! ## The report of a file, told by what rules contribute -/

namespace Linter

/-- **What a file adds to a report**: what the rules find in it, sorted, or, if it cannot be loaded,
the diagnostic that says why. -/
inductive Told (config : Config) (rules : List Rule) (t : FileTree) (file : Path) : Report → Prop
  | loaded {unit : SourceUnit} {found : List Violation}
      (load : Swift.extractor.load t file = .ok unit)
      (sorted : IsStableSort Violation.compareInFile
        (rules.flatMap (contribution config unit)) found) :
      Told config rules t file { violations := found, filesChecked := 1 }
  | skipped {e : LoadError} (load : Swift.extractor.load t file = .error e) :
      Told config rules t file { diagnostics := [⟨file.text, e.message⟩] }

/-- **What a file adds leaves no choice.** -/
theorem Told.unique {config : Config} {rules : List Rule} {t : FileTree} {file : Path}
    {r r' : Report} (h : Told config rules t file r) (h' : Told config rules t file r') :
    r = r' := by
  cases h with
  | loaded load sorted =>
    cases h' with
    | loaded load' sorted' =>
      obtain rfl := Except.ok.inj (load.symm.trans load')
      rw [sorted.unique sorted']
    | skipped load' => cases load.symm.trans load'
  | skipped load =>
    cases h' with
    | loaded load' => cases load.symm.trans load'
    | skipped load' => rw [Except.error.inj (load.symm.trans load')]

variable {linter : Linter} {t : FileTree}

section BuiltIn

variable (hrules : ∀ rule ∈ linter.rules, rule ∈ Catalog.rules)
include hrules

theorem asReport_check_eq (unit : SourceUnit) :
    (linter.check unit).asReport
      = { violations := (linter.check unit).violations, filesChecked := 1 } := by
  rw [UnitReport.asReport, diagnostics_check_eq_nil unit hrules]

/-- **Every file is told by what the rules contribute** that are not switched off. -/
theorem told_lintFile (t : FileTree) (file : Path) :
    Told linter.config (linter.rules.filter (linter.config.isEnabled ·.identifier)) t file
      (linter.lintFile Swift.extractor t file) := by
  rw [lintFile]
  cases hload : Swift.extractor.load t file with
  | error e => exact .skipped hload
  | ok unit =>
    change Told _ _ _ _ (linter.check unit).asReport
    rw [asReport_check_eq hrules]
    exact .loaded hload (isStableSort_check unit linter.rules)

end BuiltIn

/-- **The report of discovered files is that of one file after the other**: they are discovered in
the order that findings are sorted in. -/
theorem lintPaths_eq_ok {x : Extractor} {roots : List Path} {r : Report}
    (hstamps : ∀ rule ∈ linter.rules, rule.StampsPath) (h : linter.lintPaths x t roots = .ok r) :
    ∃ parts, parts = ((Discovery.ofSettings linter.config.linter).discover t roots).map
        (linter.lintFile x t) ∧
      r = { violations := parts.flatMap (·.violations)
            filesChecked := (parts.map (·.filesChecked)).sum
            diagnostics := parts.flatMap (·.diagnostics) } := by
  have hincreasing := Discovery.increasing_discover (Discovery.ofSettings linter.config.linter) t
    roots
  rw [lintPaths_eq_ok_iff] at h
  generalize (Discovery.ofSettings linter.config.linter).discover t roots = files at h hincreasing ⊢
  have hsorted :
      Violation.sortAcrossFiles ((files.map (linter.lintFile x t)).flatMap (·.violations))
        = (files.map (linter.lintFile x t)).flatMap (·.violations) := by
    simp only [List.flatMap_map, lintFile_eq]
    exact sortAcrossFiles_eq hstamps .rfl hincreasing
  rw [lintFiles] at h
  split at h
  · cases h
  · refine ⟨_, rfl, (Except.ok.inj h).symm.trans ?_⟩
    rw [Report.sort_foldl_extend, List.nil_append, hsorted, Nat.zero_add, List.nil_append]

end Linter

namespace Command

namespace LintArguments

/-! ## What a report tells -/

/-- **What a report tells**: what the rules find in the text of standard input, or in one file after
the other, and nothing else. -/
inductive Tells (a : LintArguments) (s : Surroundings) (config : Config) (rules : List Rule) :
    Report → Prop
  | ofInput {contents : String} {found : List Violation} (asked : a.fromInput = true)
      (input : String.fromUTF8? s.input = some contents)
      (sorted : IsStableSort Violation.compareInFile
        (rules.flatMap (Linter.contribution (a.effective config)
          ⟨none, contents, Swift.structureOf contents⟩)) found) :
      Tells a s config rules { violations := found, filesChecked := 1 }
  | ofPaths {parts : List Report} (asked : a.fromInput = false)
      (told : List.Forall₂ (Linter.Told (a.effective config) rules s.tree)
        ((Discovery.ofSettings (a.effective config).linter).discover s.tree a.roots) parts) :
      Tells a s config rules
        { violations := parts.flatMap (·.violations)
          filesChecked := (parts.map (·.filesChecked)).sum
          diagnostics := parts.flatMap (·.diagnostics) }

/-- **What a report tells leaves no choice.** -/
theorem Tells.unique {a : LintArguments} {s : Surroundings} {config : Config} {rules : List Rule}
    {r r' : Report} (h : a.Tells s config rules r) (h' : a.Tells s config rules r') : r = r' := by
  cases h with
  | ofInput asked input sorted =>
    cases h' with
    | ofInput _ input' sorted' =>
      obtain rfl := Option.some.inj (input.symm.trans input')
      rw [sorted.unique sorted']
    | ofPaths asked' => cases asked.symm.trans asked'
  | ofPaths asked told =>
    cases h' with
    | ofInput asked' => cases asked.symm.trans asked'
    | ofPaths _ told' =>
      have hunique : Relator.RightUnique (Linter.Told (a.effective config) rules s.tree) :=
        fun _ _ _ => Linter.Told.unique
      rw [hunique.forall₂ told told']

/-- **The rules that take effect** in a lint run. -/
structure TakeEffect (a : LintArguments) (config : Config) (rules : List Rule) : Prop where
  /-- No rule runs twice. -/
  distinct : (rules.map Rule.identifier).Nodup
  /-- A lint run under the configuration fails, or answers with the one report that tells what they
  find. -/
  answers : ∀ s common faults, loadConfig s common = .ok config →
    (∃ e, a.Fails s common faults e ∧ a.run s common faults = .error e) ∨
    ∃ report, a.run s common faults = .ok (a.answer config report) ∧
      ∀ told, a.Tells s config rules told ↔ told = report

variable {a : LintArguments} {s : Surroundings} {common : Common} {faults : Faults}
  {config : Config}

/-- **A report tells of the chosen rules** that are not switched off. -/
theorem Reports.tells {report : Report} {chosen : List Rule}
    (h : a.Reports s common faults config report) (hchosen : a.chooseRules config = .ok chosen) :
    a.Tells s config (chosen.filter fun rule => config.switch? rule.identifier ≠ some false)
      report := by
  have hcatalog : ∀ rule ∈ (a.linter config chosen).rules, rule ∈ Catalog.rules :=
    fun rule => mem_catalog_of_chooseRules hchosen
  have hfilter : (chosen.filter fun rule => config.switch? rule.identifier ≠ some false)
      = chosen.filter ((a.effective config).isEnabled ·.identifier) :=
    List.filter_congr fun rule _ => Bool.eq_iff_iff.2 <| by
      rw [decide_eq_true_iff, ← Config.isEnabled_iff]
      rfl
  rw [hfilter]
  cases h with
  | @ofInput rules contents prepared asked read input lint =>
    obtain rfl : rules = chosen := Except.ok.inj (prepared.choose.symm.trans hchosen)
    rw [Linter.lintContents_extractor] at lint
    obtain rfl := Except.ok.inj lint
    rw [Linter.asReport_check_eq hcatalog]
    exact .ofInput asked input (Linter.isStableSort_check _ rules)
  | @ofPaths rules prepared asked lint =>
    obtain rfl : rules = chosen := Except.ok.inj (prepared.choose.symm.trans hchosen)
    obtain ⟨parts, rfl, rfl⟩ := Linter.lintPaths_eq_ok
      (fun rule hrule => Catalog.stampsPath_of_mem_rules (hcatalog rule hrule)) lint
    refine .ofPaths asked (List.forall₂_map_right_iff.2 (List.forall₂_same.2 fun file _ => ?_))
    exact Linter.told_lintFile hcatalog s.tree file

/-- **Of the rules that are chosen those take effect that are not switched off.** -/
theorem takeEffect {chosen : List Rule} (h : a.chooseRules config = .ok chosen) :
    a.TakeEffect config
      (chosen.filter fun rule => config.switch? rule.identifier ≠ some false) := by
  refine ⟨(List.filter_sublist.map _).nodup (nodup_of_chooseRules h),
    fun s common faults hconfig => ?_⟩
  obtain ⟨e, hfails⟩ | ⟨config', report, hreports, htellable⟩ := a.fails_or_reports s common faults
  · exact .inl ⟨e, hfails, hfails.run_eq⟩
  · obtain ⟨_, hprepared⟩ := hreports.exists_prepared
    obtain rfl : config' = config :=
      Except.ok.inj (hprepared.load.symm.trans (loadConfig_eq_ok_iff.1 hconfig))
    have htells := hreports.tells h
    exact .inr ⟨report, hreports.run_eq_ok htellable, fun told =>
      ⟨fun htold => htold.unique htells, fun heq => heq ▸ htells⟩⟩

/-- **The rules that take effect.**  Without names they are the rules of the catalog that the
configuration switches on and those of the preset that it does not switch off.  Names win over the
preset: if all of them, without the white space around them, are identifiers of the catalog, their
rules are chosen, each at its first mention, and those take effect that are not switched off;
otherwise the command fails with the first name that is none, and lints nothing. -/
theorem rules_taking_effect (a : LintArguments) (config : Config) :
    (a.rules = [] → ∃ running, a.TakeEffect config running ∧ ∀ rule, rule ∈ running ↔
      rule ∈ Catalog.rules ∧ config.switch? rule.identifier = some true ∨
      rule ∈ a.preset.rules ∧ config.switch? rule.identifier ≠ some false) ∧
    (a.rules ≠ [] →
      ((∃ chosen, a.chooseRules config = .ok chosen) ↔
        ∀ name ∈ a.rules, Catalog.trimmed name ∈ Catalog.identifiers) ∧
      (∀ chosen, a.chooseRules config = .ok chosen →
        (∀ rule ∈ chosen, rule ∈ Catalog.rules) ∧
        chosen.map Rule.identifier = (a.rules.map Catalog.trimmed).eraseDups ∧
        a.TakeEffect config
          (chosen.filter fun rule => config.switch? rule.identifier ≠ some false)) ∧
      (∀ preset s common faults,
        run { a with preset } s common faults = a.run s common faults) ∧
      ∀ before name after, a.rules = before ++ name :: after →
        (∀ known ∈ before, Catalog.trimmed known ∈ Catalog.identifiers) →
        Catalog.trimmed name ∉ Catalog.identifiers →
        ∀ s common faults, loadConfig s common = .ok config →
          a.outcome s common faults = .failed s.tree (.unknownRule ⟨Catalog.trimmed name⟩)) := by
  refine ⟨fun hnames => ?_, fun hnames => ⟨⟨?_, fun hknown => ?_⟩, fun chosen h => ?_,
    fun preset s common faults => ?_,
    fun before name after hsplit hbefore hname s common faults hconfig => ?_⟩⟩
  · obtain ⟨chosen, hchosen, -, hmem⟩ := chooseRules_of_nil config hnames
    refine ⟨_, takeEffect hchosen, fun rule => ?_⟩
    have hon : config.switch? rule.identifier = some true →
        config.switch? rule.identifier ≠ some false := fun hon => by simp [hon]
    rw [List.mem_filter, hmem, decide_eq_true_iff]
    tauto
  · rintro ⟨chosen, h⟩
    rw [chooseRules_of_names hnames] at h
    exact (Catalog.select_eq_ok_iff.1 h).1
  · rw [chooseRules_of_names hnames]
    exact (Catalog.exists_select_eq_ok hknown).imp fun _ h => h.1
  · refine ⟨fun rule => mem_catalog_of_chooseRules h, ?_, takeEffect h⟩
    rw [chooseRules_of_names hnames] at h
    exact (Catalog.select_eq_ok_iff.1 h).2.2
  · have hchoose : ∀ config, chooseRules { a with preset } config = a.chooseRules config :=
      fun config => by
        rw [chooseRules_of_names hnames, chooseRules_of_names (a := { a with preset }) hnames]
    simp only [run, hchoose]
    rfl
  · have hchoose : a.chooseRules config = .error ⟨Catalog.trimmed name⟩ := by
      rw [chooseRules_of_names hnames, hsplit, Catalog.select_eq_error hbefore hname]
    rw [outcome, run_eq_error_of_chooseRules (loadConfig_eq_ok_iff.1 hconfig) hchoose]

namespace Switched

/-- One rule is switched on and one is switched off. -/
def switches : Config where
  rules := [("multiline_arguments", { enabled := some true }),
    ("line_length", { enabled := some false })]

/-- Names with white space around them, one of them twice. -/
def named : LintArguments where
  rules := [" type_name", "line_length ", "type_name"]

/-- Names of which two are unknown. -/
def misnamed : LintArguments where
  rules := ["type_name", " nope ", "other"]

end Switched

/-- The rule that is off runs neither with the preset nor by name; the one that is on runs besides
the preset; and the first unknown name is told. -/
theorem rules_taking_effect_switched :
    (∃ running, TakeEffect {} Switched.switches running ∧ MultilineArguments.rule ∈ running ∧
      TypeName.rule ∈ running ∧ LineLength.rule ∉ running) ∧
    (∃ chosen, Switched.named.chooseRules Switched.switches = .ok chosen ∧
      chosen.map Rule.identifier = ["type_name", "line_length"] ∧
      Switched.named.TakeEffect Switched.switches
        (chosen.filter fun rule => Switched.switches.switch? rule.identifier ≠ some false)) ∧
    Switched.misnamed.outcome { tree := {} } {} {} = .failed {} (.unknownRule ⟨"nope"⟩) := by
  refine ⟨?_, ?_, ?_⟩
  · obtain ⟨running, heffect, hmem⟩ := (rules_taking_effect {} Switched.switches).1 rfl
    refine ⟨running, heffect, ?_, ?_, ?_⟩
    · exact (hmem _).2 (.inl ⟨by simp [Catalog.rules], by decide⟩)
    · exact (hmem _).2 (.inr ⟨by simp [Preset.rules], by decide⟩)
    · rw [hmem, not_or]
      exact ⟨fun h => absurd h.2 (by decide), fun h => absurd h.2 (by decide)⟩
  · obtain ⟨hknown, hchosen, -⟩ :=
      (rules_taking_effect Switched.named Switched.switches).2 (by simp [Switched.named])
    obtain ⟨chosen, h⟩ := hknown.2 (by decide)
    obtain ⟨-, hids, heffect⟩ := hchosen chosen h
    exact ⟨chosen, h, hids.trans (by decide), heffect⟩
  · obtain ⟨-, -, -, hunknown⟩ :=
      (rules_taking_effect Switched.misnamed {}).2 (by simp [Switched.misnamed])
    exact hunknown ["type_name"] " nope " ["other"] rfl (by decide) (by decide) { tree := {} } {}
      {} rfl

end LintArguments

end Command

end SwiftStyle
