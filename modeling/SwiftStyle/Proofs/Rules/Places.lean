import SwiftStyle.Rules.Catalog

/-!
# Proofs/Rules/Places — whose findings they are, and where they lie

A report relies on three properties of a rule: its findings lie in the file of the unit
(`StampsPath`), they carry the identifier of the rule (`CarriesName`), and the level that is set for
the rule has no influence on them (`IgnoresLevel`).  A rule that *signs* its findings has all three;
every built-in rule does (`Catalog.signs_of_mem_rules`), because each makes its findings from its
identifier, the path of the unit and its options.
-/

namespace SwiftStyle

namespace Rule

/-- The findings of the rule lie in the file of the unit. -/
def StampsPath (rule : Rule) : Prop :=
  ∀ unit settings findings, rule.validate unit settings = .ok findings →
    ∀ v ∈ findings, v.location.file = unit.path

/-- The findings of the rule carry its identifier. -/
def CarriesName (rule : Rule) : Prop :=
  ∀ unit settings findings, rule.validate unit settings = .ok findings →
    ∀ v ∈ findings, v.rule = rule.identifier

/-- The rule does not read the level that is set for it. -/
def IgnoresLevel (rule : Rule) : Prop :=
  ∀ (unit : SourceUnit) (settings : RuleSettings) (level : Option Severity),
    rule.validate unit { settings with severity := level } = rule.validate unit settings

/-- The rule makes its findings from the unit and its options, under its own identifier and in the
file of the unit. -/
def Signs (rule : Rule) : Prop :=
  ∃ findings, rule = ofFindings rule.descriptor findings ∧ ∀ unit options,
    ∀ v ∈ findings unit options, v.rule = rule.identifier ∧ v.location.file = unit.path

theorem signs_ofFindings {descriptor : RuleDescriptor}
    {findings : SourceUnit → Options → List Violation}
    (h : ∀ unit options, ∀ v ∈ findings unit options,
      v.rule = descriptor.identifier ∧ v.location.file = unit.path) :
    (ofFindings descriptor findings).Signs :=
  ⟨findings, rfl, h⟩

namespace Signs

variable {rule : Rule} (h : rule.Signs)
include h

/-- **A rule that signs its findings never gives up.** -/
theorem exists_validate_eq_ok (unit : SourceUnit) (settings : RuleSettings) :
    ∃ findings, rule.validate unit settings = .ok findings ∧
      ∀ v ∈ findings, v.rule = rule.identifier ∧ v.location.file = unit.path := by
  obtain ⟨findings, hrule, hsigned⟩ := h
  exact ⟨findings unit settings.options, hrule ▸ rfl, hsigned unit settings.options⟩

theorem stampsPath : rule.StampsPath := by
  intro unit settings found hfound v hv
  obtain ⟨findings, hfindings, hsigned⟩ := h.exists_validate_eq_ok unit settings
  obtain rfl := Except.ok.inj (hfindings.symm.trans hfound)
  exact (hsigned v hv).2

theorem carriesName : rule.CarriesName := by
  intro unit settings found hfound v hv
  obtain ⟨findings, hfindings, hsigned⟩ := h.exists_validate_eq_ok unit settings
  obtain rfl := Except.ok.inj (hfindings.symm.trans hfound)
  exact (hsigned v hv).1

theorem ignoresLevel : rule.IgnoresLevel := by
  intro unit settings level
  obtain ⟨findings, hrule, _⟩ := h
  rw [hrule]
  rfl

end Signs

end Rule

namespace FileLength

theorem signs_rule : rule.Signs := by
  refine Rule.signs_ofFindings fun unit options v hv => ?_
  simp only [findings] at hv
  split at hv
  · simp at hv
  · rw [List.mem_singleton.1 hv]
    exact ⟨rfl, rfl⟩

end FileLength

namespace LineLength

theorem signed_of_finding? {path : Option Path} {options : Options} {line : Line} {v : Violation}
    (h : finding? path options line = some v) :
    v.rule = descriptor.identifier ∧ v.location.file = path := by
  simp only [finding?] at h
  split at h
  · simp at h
  · obtain ⟨_, _, rfl⟩ := Option.map_eq_some_iff.1 h
    exact ⟨rfl, rfl⟩

theorem signs_rule : rule.Signs := by
  refine Rule.signs_ofFindings fun unit options v hv => ?_
  obtain ⟨line, _, hline⟩ := List.mem_filterMap.1 hv
  exact signed_of_finding? hline

end LineLength

namespace MultilineArguments

theorem signs_rule : rule.Signs := by
  refine Rule.signs_ofFindings fun unit options v hv => ?_
  obtain ⟨position, _, rfl⟩ := List.mem_map.1 hv
  exact ⟨rfl, rfl⟩

end MultilineArguments

namespace TrailingNewline

theorem signs_rule : rule.Signs := by
  refine Rule.signs_ofFindings fun unit options v hv => ?_
  simp only [findings] at hv
  split at hv
  · simp at hv
  · rw [List.mem_singleton.1 hv]
    exact ⟨rfl, rfl⟩

end TrailingNewline

namespace TrailingWhitespace

theorem signed_of_finding? {path : Option Path} {ignoresEmptyLines : Bool} {line : Line}
    {v : Violation} (h : finding? path ignoresEmptyLines line = some v) :
    v.rule = descriptor.identifier ∧ v.location.file = path := by
  simp only [finding?] at h
  split at h
  · simp at h
  · split at h
    · simp at h
    · rw [← Option.some.inj h]
      exact ⟨rfl, rfl⟩

theorem signs_rule : rule.Signs := by
  refine Rule.signs_ofFindings fun unit options v hv => ?_
  obtain ⟨line, _, hline⟩ := List.mem_filterMap.1 hv
  exact signed_of_finding? hline

end TrailingWhitespace

namespace TypeName

/-- **What is found on a node**: a type with a name that something is wrong with, at a position. -/
theorem finding?_eq_some_iff {path : Option Path} {lines : List Line} {shortest longest : Nat}
    {node : Node} {v : Violation} : finding? path lines shortest longest node = some v ↔
      node.kind.isType = true ∧ ∃ name problem p, node.name = some name ∧
        problem? shortest longest name.toList = some problem ∧
        positionIn? lines node.offset = some p ∧
        v = { rule := descriptor.identifier
              severity := .medium
              location := { file := path, line := p.line, character := some p.character }
              reason := reason shortest longest name problem } := by
  unfold finding? guard
  constructor
  · intro h
    obtain ⟨_, htype, h⟩ := Option.bind_eq_some_iff.1 h
    obtain ⟨name, hname, h⟩ := Option.bind_eq_some_iff.1 h
    obtain ⟨problem, hproblem, h⟩ := Option.bind_eq_some_iff.1 h
    obtain ⟨p, hp, hv⟩ := Option.bind_eq_some_iff.1 h
    refine ⟨?_, name, problem, p, hname, hproblem, hp, (Option.some.inj hv).symm⟩
    split at htype
    · assumption
    · cases htype
  · rintro ⟨htype, name, problem, p, hname, hproblem, hp, rfl⟩
    rw [if_pos htype, hname]
    simp only [Option.bind_eq_bind, Option.bind_some, hproblem, hp, Option.pure_def]

theorem signs_rule : rule.Signs := by
  refine Rule.signs_ofFindings fun unit options v hv => ?_
  obtain ⟨node, _, hnode⟩ := List.mem_filterMap.1 hv
  obtain ⟨_, name, problem, p, _, _, _, rfl⟩ := finding?_eq_some_iff.1 hnode
  exact ⟨rfl, rfl⟩

end TypeName

namespace Catalog

/-- **Every built-in rule signs its findings.** -/
theorem signs_of_mem_rules {rule : Rule} (h : rule ∈ rules) : rule.Signs := by
  simp only [rules, List.mem_cons, List.not_mem_nil, or_false] at h
  rcases h with rfl | rfl | rfl | rfl | rfl | rfl
  · exact FileLength.signs_rule
  · exact LineLength.signs_rule
  · exact MultilineArguments.signs_rule
  · exact TrailingNewline.signs_rule
  · exact TrailingWhitespace.signs_rule
  · exact TypeName.signs_rule

theorem stampsPath_of_mem_rules {rule : Rule} (h : rule ∈ rules) : rule.StampsPath :=
  (signs_of_mem_rules h).stampsPath

theorem carriesName_of_mem_rules {rule : Rule} (h : rule ∈ rules) : rule.CarriesName :=
  (signs_of_mem_rules h).carriesName

theorem ignoresLevel_of_mem_rules {rule : Rule} (h : rule ∈ rules) : rule.IgnoresLevel :=
  (signs_of_mem_rules h).ignoresLevel

end Catalog

end SwiftStyle
