import SwiftStyle.Proofs.Lint.Check
import SwiftStyle.Proofs.Rules.Places

/-!
# Proofs/Lint/Isolation — no rule has an influence on another

Two reports of a unit are compared.  Switching an identifier off is the same as taking its rules out
of the list (`check_disable`); a rule that gives up is missing from the report, and its diagnostic
stands where its own place is (`check_of_fault`); and a level that is set for an identifier changes
the levels of what its rules emit, finding by finding (`exists_emissions`).  For the last, findings
are sorted together with the identifier of the rule they come from, which may not be the one that
they carry.
-/

open Std

namespace SwiftStyle

/-! ## Changing what is set for one rule -/

namespace Config

/-- Put other settings in the place of those that a rule has. -/
def adjust (c : Config) (identifier : String) (change : RuleSettings → RuleSettings) : Config :=
  { c with rules :=
      (identifier, change (c.settings identifier)) :: c.rules.filter (·.1 != identifier) }

/-- Switch a rule off. -/
def disable (c : Config) (identifier : String) : Config :=
  c.adjust identifier fun settings => { settings with enabled := some false }

/-- Set a level for the findings of a rule. -/
def withLevel (c : Config) (identifier : String) (level : Severity) : Config :=
  c.adjust identifier fun settings => { settings with severity := some level }

variable (c : Config) {identifier other : String} {change : RuleSettings → RuleSettings}

theorem settings_adjust_self :
    (c.adjust identifier change).settings identifier = change (c.settings identifier) := by
  simp [adjust, settings, settings?]

theorem settings_adjust_of_ne (h : other ≠ identifier) :
    (c.adjust identifier change).settings other = c.settings other := by
  have hfind : (c.rules.filter (·.1 != identifier)).find? (·.1 == other)
      = c.rules.find? (·.1 == other) := by
    rw [List.find?_filter]
    refine congrArg (c.rules.find? ·) (funext fun entry => ?_)
    by_cases hentry : entry.1 = other <;> simp [hentry, h]
  simp only [adjust, settings, settings?, List.find?_cons, beq_false_of_ne h.symm, hfind]

theorem isEnabled_eq : c.isEnabled identifier = (c.settings identifier).enabled.getD true := by
  rw [isEnabled, settings]
  cases c.settings? identifier <;> rfl

theorem severity?_eq : c.severity? identifier = (c.settings identifier).severity := by
  rw [severity?, settings]
  cases c.settings? identifier <;> rfl

end Config

namespace Linter

variable (c : Config) (unit : SourceUnit)

/-! ## What a rule adds under other settings -/

/-- Two configurations that agree on the settings of a rule have the same use for it. -/
theorem kept_congr {c c' : Config} {rule : Rule}
    (h : c'.settings rule.identifier = c.settings rule.identifier) :
    kept c' unit rule = kept c unit rule ∧ fault? c' unit rule = fault? c unit rule := by
  simp only [kept, emitted, fault?, Config.isEnabled_eq, Config.severity?_eq, h, and_self]

/-- A rule that is switched off adds nothing. -/
theorem kept_of_not_isEnabled {c : Config} {rule : Rule} (h : c.isEnabled rule.identifier = false) :
    kept c unit rule = [] ∧ fault? c unit rule = none := by
  simp [kept, emitted, fault?, h]

theorem not_isEnabled_disable (identifier : String) :
    (c.disable identifier).isEnabled identifier = false := by
  rw [Config.isEnabled_eq, Config.disable, Config.settings_adjust_self]
  rfl

/-- **Switching an identifier off takes its rules out of the list.** -/
theorem check_disable (rules : List Rule) (identifier : String) :
    check ⟨rules, c.disable identifier⟩ unit
      = check ⟨rules.filter (·.identifier != identifier), c⟩ unit := by
  have hdisabled : ∀ rule : Rule, (rule.identifier != identifier) = false →
      kept (c.disable identifier) unit rule = [] ∧ fault? (c.disable identifier) unit rule = none := by
    intro rule hrule
    obtain rfl : rule.identifier = identifier := by simpa using hrule
    exact kept_of_not_isEnabled unit (not_isEnabled_disable c rule.identifier)
  have hother : ∀ rule : Rule, (rule.identifier != identifier) = true →
      kept (c.disable identifier) unit rule = kept c unit rule ∧
        fault? (c.disable identifier) unit rule = fault? c unit rule := fun rule hrule =>
    kept_congr unit (Config.settings_adjust_of_ne c (by simpa using hrule))
  have hkept : rules.flatMap (kept (c.disable identifier) unit)
      = (rules.filter (·.identifier != identifier)).flatMap (kept c unit) := by
    rw [← flatMap_filter_of_nil fun rule _ hrule => (hdisabled rule hrule).1]
    exact List.flatMap_congr fun rule hrule => (hother rule (List.mem_filter.1 hrule).2).1
  have hdiagnostics : (rules.filterMap fun rule =>
        (fault? (c.disable identifier) unit rule).map (faultDiagnostic unit rule))
      = (rules.filter (·.identifier != identifier)).filterMap fun rule =>
        (fault? c unit rule).map (faultDiagnostic unit rule) := by
    rw [List.filterMap_filter]
    refine List.filterMap_congr fun rule _ => ?_
    split
    · next hrule => rw [(hother rule hrule).2]
    · next hrule => rw [(hdisabled rule (by simpa using hrule)).2, Option.map_none]
  rw [check_eq, check_eq, hkept, hdiagnostics]

/-! ## A rule that gives up -/

/-- A rule that gives up adds its diagnostic and nothing else. -/
theorem kept_of_fault {c : Config} {rule : Rule} {fault : Fault}
    (henabled : c.isEnabled rule.identifier = true)
    (hfault : rule.validate unit (c.settings rule.identifier) = .error fault) :
    kept c unit rule = [] ∧ fault? c unit rule = some fault := by
  simp [kept, emitted, fault?, henabled, hfault, Except.toOption]

/-- **A rule that gives up costs no finding of the others**, and its diagnostic stands at its
place. -/
theorem check_of_fault {c : Config} {before after : List Rule} {rule : Rule} {fault : Fault}
    (henabled : c.isEnabled rule.identifier = true)
    (hfault : rule.validate unit (c.settings rule.identifier) = .error fault) :
    (check ⟨before ++ rule :: after, c⟩ unit).violations
        = (check ⟨before ++ after, c⟩ unit).violations ∧
      (check ⟨before ++ rule :: after, c⟩ unit).diagnostics
        = (check ⟨before, c⟩ unit).diagnostics ++
          faultDiagnostic unit rule fault :: (check ⟨after, c⟩ unit).diagnostics ∧
      (check ⟨before ++ after, c⟩ unit).diagnostics
        = (check ⟨before, c⟩ unit).diagnostics ++ (check ⟨after, c⟩ unit).diagnostics := by
  obtain ⟨hkept, hdiagnostic⟩ := kept_of_fault unit henabled hfault
  simp only [check_eq]
  refine ⟨?_, ?_, List.filterMap_append⟩
  · rw [List.flatMap_append, List.flatMap_cons, hkept, List.nil_append, List.flatMap_append]
  · rw [List.filterMap_append, List.filterMap_cons, hdiagnostic]
    rfl

/-! ## A level for the findings of one rule -/

/-- A finding and the identifier of the rule that it comes from. -/
structure Emission where
  source : String
  finding : Violation
deriving DecidableEq

namespace Emission

/-- The order of findings inside one file; where they come from does not count. -/
def compareInFile (e f : Emission) : Ordering := Violation.compareInFile e.finding f.finding

instance : TransCmp compareInFile where
  eq_swap := (inferInstance : TransCmp Violation.compareInFile).eq_swap
  isLE_trans := (inferInstance : TransCmp Violation.compareInFile).isLE_trans

/-- The finding, at a level if it comes from the rule that the level is set for. -/
def relevel (identifier : String) (level : Severity) (e : Emission) : Violation :=
  if e.source = identifier then { e.finding with severity := level } else e.finding

end Emission

/-- The findings of a rule that count, with the identifier of the rule. -/
def emissions (rule : Rule) : List Emission :=
  (kept c unit rule).map fun v => ⟨rule.identifier, v⟩

/-- Whether a finding counts is not a matter of its level. -/
theorem kept_eq (rule : Rule) :
    kept c unit rule = ((emitted c unit rule).filter fun v =>
      !(Suppressions.collect unit).isSuppressed v.location.line v.rule).map
        (Violation.relevel (c.severity? rule.identifier)) :=
  List.filter_map

/-- **A level that is set for an identifier changes the levels** of the findings of its rules, and
nothing else. -/
theorem kept_withLevel {c : Config} {rule : Rule} {identifier : String} {level : Severity}
    (h : rule.identifier = identifier → rule.IgnoresLevel) :
    kept (c.withLevel identifier level) unit rule
        = (emissions c unit rule).map (Emission.relevel identifier level) ∧
      fault? (c.withLevel identifier level) unit rule = fault? c unit rule := by
  by_cases hrule : rule.identifier = identifier
  · have hsettings : (c.withLevel identifier level).settings rule.identifier
        = { c.settings rule.identifier with severity := some level } :=
      hrule ▸ Config.settings_adjust_self c
    have hvalidate := h hrule unit (c.settings rule.identifier) (some level)
    have hemitted : emitted (c.withLevel identifier level) unit rule = emitted c unit rule := by
      simp only [emitted, Config.isEnabled_eq, hsettings, hvalidate]
    refine ⟨?_, by simp only [fault?, Config.isEnabled_eq, hsettings, hvalidate]⟩
    rw [emissions, kept_eq, kept_eq, hemitted, Config.severity?_eq, hsettings, List.map_map,
      List.map_map]
    refine List.map_congr_left fun v _ => ?_
    simp [Emission.relevel, Violation.relevel, hrule]
  · have hsettings : (c.withLevel identifier level).settings rule.identifier
        = c.settings rule.identifier := Config.settings_adjust_of_ne c hrule
    obtain ⟨hkept, hfault⟩ := kept_congr unit hsettings
    refine ⟨?_, hfault⟩
    have hsame : ∀ v, Emission.relevel identifier level ⟨rule.identifier, v⟩ = v :=
      fun v => if_neg hrule
    rw [hkept, emissions, List.map_map]
    exact (List.map_id'' hsame _).symm

/-- **A report is sorted together with where its findings come from.** -/
theorem violations_check_eq_map (rules : List Rule) {f : Emission → Violation}
    (hf : ∀ e e', Violation.compareInFile (f e) (f e') = Emission.compareInFile e e')
    {c' : Config} (h : ∀ rule ∈ rules, kept c' unit rule = (emissions c unit rule).map f) :
    (check ⟨rules, c'⟩ unit).violations
      = ((rules.flatMap (emissions c unit)).mergeSort
          fun e e' => (Emission.compareInFile e e').isLE).map f := by
  rw [check_eq, List.flatMap_congr h, ← List.map_flatMap, Violation.sortInFile]
  exact (List.map_mergeSort fun e _ e' _ => by rw [hf]).symm

/-- The same finding but for its level. -/
def SameExceptLevel (v w : Violation) : Prop :=
  v.rule = w.rule ∧ v.location = w.location ∧ v.reason = w.reason

theorem sameExceptLevel_relevel (identifier : String) (level : Severity) (e : Emission) :
    SameExceptLevel (e.relevel identifier level) e.finding := by
  rw [Emission.relevel]
  split <;> exact ⟨rfl, rfl, rfl⟩

/-- **Findings keep their places when a level is set**: those of the identifier's rules have the
level, and all others are as before. -/
theorem exists_emissions {rules : List Rule} {identifier : String} (level : Severity)
    (h : ∀ rule ∈ rules, rule.identifier = identifier → rule.IgnoresLevel) :
    ∃ found, IsStableSort Emission.compareInFile (rules.flatMap (emissions c unit)) found ∧
      (check ⟨rules, c⟩ unit).violations = found.map Emission.finding ∧
      (check ⟨rules, c.withLevel identifier level⟩ unit).violations
        = found.map (Emission.relevel identifier level) ∧
      (check ⟨rules, c.withLevel identifier level⟩ unit).diagnostics
        = (check ⟨rules, c⟩ unit).diagnostics := by
  refine ⟨_, isStableSort_mergeSort _, ?_, ?_, ?_⟩
  · refine violations_check_eq_map c unit rules (fun _ _ => rfl) fun rule _ => ?_
    rw [emissions, List.map_map]
    exact (List.map_id'' (fun _ => rfl) _).symm
  · refine violations_check_eq_map c unit rules (fun e e' => ?_) fun rule hrule =>
      (kept_withLevel unit (h rule hrule)).1
    obtain ⟨hrule, hlocation, _⟩ := sameExceptLevel_relevel identifier level e
    obtain ⟨hrule', hlocation', _⟩ := sameExceptLevel_relevel identifier level e'
    rw [Emission.compareInFile, Violation.compareInFile, Violation.compareInFile, hrule, hlocation,
      hrule', hlocation']
  · rw [check_eq, check_eq]
    exact List.filterMap_congr fun rule hrule => by rw [(kept_withLevel unit (h rule hrule)).2]

/-! ## All three -/

/-- **Rules are isolated from each other.**  Switching an identifier off is taking its rules out of
the list.  A rule that gives up is missing, and the diagnostic that names it stands at its place.  A
level that is set for an identifier, over another one or over none, leaves every finding where it
is: those that the identifier's rules emit have the level, whatever name they carry, and the others
are as before.  No built-in rule reads the level that is set for it. -/
theorem check_isolated :
    (∀ rules identifier, check ⟨rules, c.disable identifier⟩ unit
      = check ⟨rules.filter (·.identifier != identifier), c⟩ unit) ∧
    (∀ before rule after fault, c.isEnabled rule.identifier = true →
      rule.validate unit (c.settings rule.identifier) = .error fault →
      (check ⟨before ++ rule :: after, c⟩ unit).violations
        = (check ⟨before ++ after, c⟩ unit).violations ∧
      (check ⟨before ++ rule :: after, c⟩ unit).diagnostics
        = (check ⟨before, c⟩ unit).diagnostics ++
          faultDiagnostic unit rule fault :: (check ⟨after, c⟩ unit).diagnostics ∧
      (check ⟨before ++ after, c⟩ unit).diagnostics
        = (check ⟨before, c⟩ unit).diagnostics ++ (check ⟨after, c⟩ unit).diagnostics) ∧
    (∀ rules identifier level, (∀ rule ∈ rules, rule.identifier = identifier → rule.IgnoresLevel) →
      (∃ found, IsStableSort Emission.compareInFile (rules.flatMap (emissions c unit)) found ∧
        (check ⟨rules, c⟩ unit).violations = found.map Emission.finding ∧
        (check ⟨rules, c.withLevel identifier level⟩ unit).violations
          = found.map (Emission.relevel identifier level)) ∧
      List.Forall₂ SameExceptLevel (check ⟨rules, c.withLevel identifier level⟩ unit).violations
        (check ⟨rules, c⟩ unit).violations ∧
      (check ⟨rules, c.withLevel identifier level⟩ unit).diagnostics
        = (check ⟨rules, c⟩ unit).diagnostics) ∧
    ∀ rule ∈ Catalog.rules, rule.IgnoresLevel := by
  refine ⟨check_disable c unit, fun _ _ _ _ => check_of_fault unit, ?_,
    fun _ => Catalog.ignoresLevel_of_mem_rules⟩
  intro rules identifier level h
  obtain ⟨found, hfound, hbefore, hafter, hdiagnostics⟩ := exists_emissions c unit level h
  refine ⟨⟨found, hfound, hbefore, hafter⟩, ?_, hdiagnostics⟩
  rw [hbefore, hafter, List.forall₂_map_left_iff, List.forall₂_map_right_iff]
  exact List.forall₂_same.2 fun e _ => sameExceptLevel_relevel identifier level e

namespace Foreign

/-- A unit of one line. -/
def oneLine : SourceUnit := .ofContents "a\n"

/-- A low finding on the line, under a name. -/
def finding (name reason : String) : Violation :=
  { rule := name, severity := .low, location := { line := 1 }, reason }

/-- A rule with one finding, under a name that need not be its own. -/
def emitting (identifier name : String) : Rule where
  descriptor := { identifier, name := identifier, description := "" }
  validate _ _ := .ok [finding name identifier]

/-- A rule that always gives up. -/
def faulty : Rule where
  descriptor := { identifier := "faulty", name := "faulty", description := "" }
  validate _ _ := .error .unexplained

def first : Rule := emitting "first" "second"

def second : Rule := emitting "second" "second"

/-- What the two rules find. -/
def findings : List Violation := [finding "second" "first", finding "second" "second"]

end Foreign

/-- Two rules have findings under the name of the second.  The first one's is there when the second
is off, and keeps its level when one is set for the second; a rule that gives up between them costs
neither. -/
theorem check_isolated_foreign :
    (check ⟨[Foreign.first, Foreign.second], Config.disable {} "second"⟩ Foreign.oneLine).violations
        = [Foreign.finding "second" "first"] ∧
      check ⟨[Foreign.first, Foreign.faulty, Foreign.second], {}⟩ Foreign.oneLine
        = ⟨Foreign.findings, [⟨"faulty", "rule faulted on <stdin>: unknown fault"⟩]⟩ ∧
      (check ⟨[Foreign.first, Foreign.second], Config.withLevel {} "second" .high⟩
          Foreign.oneLine).violations
        = [Foreign.finding "second" "first",
          { Foreign.finding "second" "second" with severity := .high }] := by
  obtain ⟨hdisable, hfault, hlevel, _⟩ := check_isolated {} Foreign.oneLine
  refine ⟨?_, ?_, ?_⟩
  · rw [hdisable]
    exact violations_check_eq (by decide +kernel) (by decide +kernel)
  · obtain ⟨hviolations, hdiagnostics, _⟩ := hfault [Foreign.first] Foreign.faulty [Foreign.second]
      .unexplained (by decide) rfl
    have hfindings : (check ⟨[Foreign.first, Foreign.second], {}⟩ Foreign.oneLine).violations
        = Foreign.findings := violations_check_eq (by decide +kernel) (by decide +kernel)
    exact congrArg₂ UnitReport.mk (hviolations.trans hfindings) (hdiagnostics.trans (by rfl))
  · have hignores : ∀ rule ∈ [Foreign.first, Foreign.second], rule.identifier = "second" →
        rule.IgnoresLevel := by
      intro rule hrule _
      rcases List.mem_pair.1 hrule with rfl | rfl <;> exact fun _ _ _ => rfl
    obtain ⟨⟨found, hfound, _, hlevels⟩, _⟩ := hlevel _ "second" .high hignores
    have hemissions : [Foreign.first, Foreign.second].flatMap (emissions {} Foreign.oneLine)
        = [⟨"first", Foreign.finding "second" "first"⟩,
          ⟨"second", Foreign.finding "second" "second"⟩] := by decide +kernel
    have hsorted : IsStableSort Emission.compareInFile
        ([Foreign.first, Foreign.second].flatMap (emissions {} Foreign.oneLine)) _ :=
      ⟨.refl _, by rw [hemissions]; decide +kernel, fun _ => rfl⟩
    rw [hlevels, hfound.unique hsorted, hemissions]
    rfl

end Linter

end SwiftStyle
