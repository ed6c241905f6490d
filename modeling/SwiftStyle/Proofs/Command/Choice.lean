import SwiftStyle.Command.Linting
import SwiftStyle.Proofs.Lint.Isolation
import SwiftStyle.Proofs.Rules.Selection

/-!
# Proofs/Command/Choice — the rules that are chosen

Three places decide whether a rule has a say: the names or the preset, the configuration that
switches rules on, and the check, which passes over the rules that are switched off.  The first two
choose the rules (`LintArguments.chooseRules_of_nil`, `LintArguments.chooseRules_of_names`); to a
check they are the rules that are left without those switched off, and its findings are what these
contribute (`Linter.isStableSort_check`).
-/

open Std

namespace SwiftStyle

/-! ## Switches -/

namespace Config

/-- What is said about a rule by name: that it is on, that it is off, or nothing. -/
def switch? (c : Config) (identifier : String) : Option Bool :=
  (c.settings? identifier).bind (·.enabled)

variable {c : Config} {identifier : String}

theorem isEnabled_iff : c.isEnabled identifier = true ↔ c.switch? identifier ≠ some false := by
  rw [isEnabled, ← switch?]
  cases c.switch? identifier with
  | none => simp
  | some on => cases on <;> simp

theorem isOptedIn_iff : c.isOptedIn identifier = true ↔ c.switch? identifier = some true := by
  rw [isOptedIn, ← switch?]
  cases c.switch? identifier with
  | none => simp
  | some on => cases on <;> simp

end Config

/-! ## What a rule contributes -/

namespace Linter

/-- **What a rule contributes to the report of a unit** when it runs: its findings at the level set
for it, without those that a directive silences. -/
def contribution (c : Config) (unit : SourceUnit) (rule : Rule) : List Violation :=
  (((rule.validate unit (c.settings rule.identifier)).toOption.getD []).map
    (Violation.relevel (c.severity? rule.identifier))).filter fun v =>
      !(Suppressions.collect unit).isSuppressed v.location.line v.rule

variable {c : Config} (unit : SourceUnit)

theorem kept_of_isEnabled {rule : Rule} (h : c.isEnabled rule.identifier = true) :
    kept c unit rule = contribution c unit rule := by
  rw [kept, emitted, if_pos h, contribution]

/-- **The findings of a unit** are what the rules that are not switched off contribute, sorted. -/
theorem isStableSort_check (rules : List Rule) :
    IsStableSort Violation.compareInFile
      ((rules.filter (c.isEnabled ·.identifier)).flatMap (contribution c unit))
      (check ⟨rules, c⟩ unit).violations := by
  have hkept : (rules.filter (c.isEnabled ·.identifier)).flatMap (contribution c unit)
      = rules.flatMap (kept c unit) := by
    rw [← flatMap_filter_of_nil fun rule _ hoff => (kept_of_not_isEnabled unit hoff).1]
    exact List.flatMap_congr fun rule hrule =>
      (kept_of_isEnabled unit (List.mem_filter.1 hrule).2).symm
  rw [check_eq, hkept]
  exact isStableSort_mergeSort _

/-- Built-in rules never give up. -/
theorem diagnostics_check_eq_nil {rules : List Rule} (h : ∀ rule ∈ rules, rule ∈ Catalog.rules) :
    (check ⟨rules, c⟩ unit).diagnostics = [] := by
  rw [check_eq]
  refine List.filterMap_eq_nil_iff.2 fun rule hrule => ?_
  obtain ⟨findings, hok, -⟩ := (Catalog.signs_of_mem_rules (h rule hrule)).exists_validate_eq_ok
    unit (c.settings rule.identifier)
  rw [fault?, hok]
  split <;> rfl

end Linter

/-! ## Presets -/

namespace Preset

theorem mem_catalog {preset : Preset} {rule : Rule} (h : rule ∈ preset.rules) :
    rule ∈ Catalog.rules := by
  cases preset with
  | all => exact h
  | default =>
    simp only [rules, List.mem_cons, List.not_mem_nil, or_false] at h
    rcases h with rfl | rfl | rfl | rfl | rfl <;> simp [Catalog.rules]
  | minimal =>
    simp only [rules, List.mem_cons, List.not_mem_nil, or_false] at h
    rcases h with rfl | rfl <;> simp [Catalog.rules]

theorem nodup_identifiers (preset : Preset) : (preset.rules.map Rule.identifier).Nodup := by
  cases preset <;> decide

end Preset

namespace Command

namespace LintArguments

variable {a : LintArguments} {config : Config}

/-! ## The rules that are chosen -/

theorem chooseRules_of_names (h : a.rules ≠ []) :
    a.chooseRules config = Catalog.select a.rules := by
  rw [chooseRules, if_neg (by simpa using h)]

/-- **Without names** the preset is chosen, and besides it what the configuration switches on. -/
theorem chooseRules_of_nil (config : Config) (h : a.rules = []) :
    ∃ chosen, a.chooseRules config = .ok chosen ∧ (chosen.map Rule.identifier).Nodup ∧
      ∀ rule, rule ∈ chosen ↔ rule ∈ a.preset.rules ∨
        rule ∈ Catalog.rules ∧ config.switch? rule.identifier = some true := by
  let added := Catalog.rules.filter fun rule => config.isOptedIn rule.identifier &&
    !a.preset.rules.any (·.identifier == rule.identifier)
  have hmem : ∀ rule, rule ∈ added ↔ rule ∈ Catalog.rules ∧
      config.switch? rule.identifier = some true ∧
      ∀ other ∈ a.preset.rules, other.identifier ≠ rule.identifier := by
    intro rule
    simp only [added, List.mem_filter, Bool.and_eq_true, Config.isOptedIn_iff]
    simp
  refine ⟨a.preset.rules ++ added, by rw [chooseRules, if_pos (by simp [h])], ?_, fun rule => ?_⟩
  · rw [List.map_append]
    refine List.nodup_append.2 ⟨a.preset.nodup_identifiers,
      (List.filter_sublist.map _).nodup Catalog.nodup_identifiers, ?_⟩
    intro identifier hpreset other hadded heq
    obtain ⟨first, hfirst, rfl⟩ := List.mem_map.1 hpreset
    obtain ⟨second, hsecond, rfl⟩ := List.mem_map.1 hadded
    exact ((hmem second).1 hsecond).2.2 first hfirst heq
  · rw [List.mem_append, hmem]
    constructor
    · rintro (hpreset | ⟨hrule, hon, -⟩)
      · exact .inl hpreset
      · exact .inr ⟨hrule, hon⟩
    · rintro (hpreset | ⟨hrule, hon⟩)
      · exact .inl hpreset
      · -- a rule of the preset with the same identifier is the same rule
        by_cases hsame : ∃ other ∈ a.preset.rules, other.identifier = rule.identifier
        · obtain ⟨other, hother, hid⟩ := hsame
          obtain rfl := List.inj_on_of_nodup_map Catalog.nodup_identifiers
            (Preset.mem_catalog hother) hrule hid
          exact .inl hother
        · push Not at hsame
          exact .inr ⟨hrule, hon, hsame⟩

/-- **Only built-in rules are chosen.** -/
theorem mem_catalog_of_chooseRules {chosen : List Rule} (h : a.chooseRules config = .ok chosen)
    {rule : Rule} (hrule : rule ∈ chosen) : rule ∈ Catalog.rules := by
  by_cases hnames : a.rules = []
  · obtain ⟨found, hfound, -, hmem⟩ := chooseRules_of_nil config hnames
    obtain rfl : found = chosen := Except.ok.inj (hfound.symm.trans h)
    exact ((hmem rule).1 hrule).elim Preset.mem_catalog (·.1)
  · rw [chooseRules_of_names hnames] at h
    exact (Catalog.select_eq_ok_iff.1 h).2.1 rule hrule

/-- **No rule is chosen twice.** -/
theorem nodup_of_chooseRules {chosen : List Rule} (h : a.chooseRules config = .ok chosen) :
    (chosen.map Rule.identifier).Nodup := by
  by_cases hnames : a.rules = []
  · obtain ⟨found, hfound, hdistinct, -⟩ := chooseRules_of_nil config hnames
    obtain rfl : found = chosen := Except.ok.inj (hfound.symm.trans h)
    exact hdistinct
  · rw [chooseRules_of_names hnames] at h
    rw [(Catalog.select_eq_ok_iff.1 h).2.2]
    exact nodup_eraseDups _

end LintArguments

end Command

end SwiftStyle
