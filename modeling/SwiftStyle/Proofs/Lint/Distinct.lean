import SwiftStyle.Proofs.Lint.Registration
import SwiftStyle.Proofs.Rules.Distinct
import SwiftStyle.Proofs.Swift.Shape

/-!
# Proofs/Lint/Distinct — no finding is reported twice

Levels and directives leave places as they are, so what counts of a rule lies as far apart as what
it finds; and findings of two rules differ in the rule that they name.  Sorted findings of which no
two are at the same place and of the same rule are strictly increasing.
-/

namespace SwiftStyle

/-- What tells findings apart: line, character and rule. -/
def Violation.key (v : Violation) : Nat × Option Nat × String :=
  (v.location.line, v.location.character, v.rule)

/-- **Before another finding**: by line, then by character with the whole line first, then by rule,
and not at the same place by the same rule. -/
def Violation.Before (v w : Violation) : Prop :=
  v.location.line < w.location.line ∨ v.location.line = w.location.line ∧
    (v.location.character < w.location.character ∨
      v.location.character = w.location.character ∧ v.rule < w.rule)

theorem Violation.before_of_isLE {v w : Violation} (hle : (compareInFile v w).isLE)
    (hne : v.key ≠ w.key) : v.Before w := by
  rcases isLE_compareInFile_iff.1 hle with h | ⟨hline, h | ⟨hcharacter, hrule⟩⟩
  · exact .inl h
  · exact .inr ⟨hline, .inl h⟩
  · refine .inr ⟨hline, .inr ⟨hcharacter, ?_⟩⟩
    refine Decidable.of_not_not fun hnot => hne ?_
    rw [key, key, hline, hcharacter, String.le_antisymm hrule (String.not_lt.1 hnot)]

namespace Linter

variable {c : Config} {unit : SourceUnit}

/-- What counts of a rule lies apart, if what it finds does. -/
theorem nodup_place_kept {rule : Rule} (h : rule.KeepsApart unit) :
    ((kept c unit rule).map Violation.place).Nodup := by
  have hrelevel : ∀ findings : List Violation,
      (findings.map (Violation.relevel (c.severity? rule.identifier))).map Violation.place
        = findings.map Violation.place := fun findings => by
    rw [List.map_map]
    rfl
  have hemitted : ((emitted c unit rule).map Violation.place).Nodup := by
    rw [emitted]
    split
    · cases hvalidate : rule.validate unit (c.settings rule.identifier) with
      | error fault => exact List.nodup_nil
      | ok findings => exact h _ _ hvalidate
    · exact List.nodup_nil
  rw [← hrelevel] at hemitted
  exact hemitted.sublist (List.filter_sublist.map Violation.place)

/-- **Findings of rules that keep them apart are told apart** by line, character and rule. -/
theorem nodup_key_check (linter : Linter) (unit : SourceUnit)
    (hdistinct : (linter.rules.map Rule.identifier).Nodup)
    (hnames : ∀ rule ∈ linter.rules, rule.CarriesName)
    (hapart : ∀ rule ∈ linter.rules, rule.KeepsApart unit) :
    ((linter.check unit).violations.map Violation.key).Nodup := by
  have hall : ((linter.rules.flatMap (kept linter.config unit)).map Violation.key).Nodup := by
    refine List.pairwise_map.2 (List.pairwise_flatMap.2 ⟨fun rule hrule => ?_, ?_⟩)
    · have hplaces := nodup_place_kept (c := linter.config) (hapart rule hrule)
      refine (List.pairwise_map.1 hplaces).imp fun {v w} hne hkey => ?_
      obtain ⟨hline, hrest⟩ := Prod.mk.inj hkey
      exact hne (Prod.ext hline (Prod.mk.inj hrest).1)
    · refine (List.pairwise_map.1 hdistinct).imp_of_mem fun {r s} hr hs hne v hv w hw hkey => hne ?_
      rw [← rule_of_mem_kept (hnames r hr) hv, ← rule_of_mem_kept (hnames s hs) hw]
      exact (Prod.mk.inj (Prod.mk.inj hkey).2).2
  rw [check_eq]
  exact ((List.mergeSort_perm _ _).map Violation.key).nodup_iff.2 hall

/-- **They are reported in strictly increasing order.** -/
theorem pairwise_before_check {linter : Linter}
    (hkeys : ((linter.check unit).violations.map Violation.key).Nodup) :
    (linter.check unit).violations.Pairwise Violation.Before := by
  have hordered : (linter.check unit).violations.Pairwise
      fun v w => (Violation.compareInFile v w).isLE := by
    rw [check_eq]
    exact (isStableSort_mergeSort _).ordered
  exact hordered.imp₂ (fun _ _ => Violation.before_of_isLE) (List.pairwise_map.1 hkeys)

end Linter

/-- **No finding is reported twice.**  Built-in rules, each registered once, report strictly
increasing findings on a Swift text: no two of them have the same line, character and rule. -/
theorem Linter.check_reports_once (path : Option Path) (contents : String) (config : Config)
    (rules : List Rule) (hrules : ∀ rule ∈ rules, rule ∈ Catalog.rules) (hnodup : rules.Nodup) :
    ∃ unit, Swift.extractor.unitOf path contents = .ok unit ∧
      (check ⟨rules, config⟩ unit).violations.Pairwise Violation.Before ∧
      ((check ⟨rules, config⟩ unit).violations.map Violation.key).Nodup := by
  have hidentifiers : (rules.map Rule.identifier).Nodup :=
    hnodup.map_on fun r hr s hs => List.inj_on_of_nodup_map (by decide : Catalog.identifiers.Nodup)
      (hrules r hr) (hrules s hs)
  have hkeys := nodup_key_check ⟨rules, config⟩ ⟨path, contents, Swift.structureOf contents⟩
    hidentifiers
    (fun rule hrule => Catalog.carriesName_of_mem_rules (hrules rule hrule))
    fun rule hrule => Catalog.keepsApart_of_mem_rules (hrules rule hrule)
      (Swift.distinct_structureOf contents)
  exact ⟨_, rfl, pairwise_before_check hkeys, hkeys⟩

namespace Linter

namespace Nested

/-- A call over several lines in an argument of another. -/
def text : String := "f(a, g(b, c,\n  d), e)\n"

/-- The finding on an argument. -/
def finding (line character : Nat) : Violation :=
  { rule := MultilineArguments.descriptor.identifier
    severity := .medium
    location := { line, character := some character }
    reason := "Arguments should be either on the same line, or one per line." }

end Nested

/-- The arguments of the call inside count for it alone. -/
theorem check_reports_once_nested :
    ∃ unit, Swift.extractor.unitOf none Nested.text = .ok unit ∧
      (check ⟨Catalog.rules, {}⟩ unit).violations = [Nested.finding 1 6, Nested.finding 1 11] ∧
      (check ⟨Catalog.rules, {}⟩ unit).violations.Pairwise Violation.Before := by
  obtain ⟨unit, hunit, hbefore, _⟩ := check_reports_once none Nested.text {} Catalog.rules
    (fun _ hrule => hrule) (List.Nodup.of_map Rule.identifier (by decide))
  obtain rfl := Except.ok.inj hunit
  exact ⟨_, rfl, violations_check_eq (by decide +kernel) (by decide +kernel), hbefore⟩

end Linter

end SwiftStyle
