import SwiftStyle.Proofs.Lint.Check
import SwiftStyle.Proofs.Rules.Places

/-!
# Proofs/Lint/Registration — the order in which rules are registered does not count

Findings that compare equal carry the same name.  When every rule reports under its own name and no
two rules share one, they come from one rule, so however the rules are ordered they stand as that
rule gave them; a stable sort then leaves no choice (`violations_check_perm`).
-/

open Std

namespace SwiftStyle

namespace Linter

variable {c : Config} {unit : SourceUnit}

/-- What counts of a rule's findings carries the name that the rule gave them. -/
theorem rule_of_mem_kept {rule : Rule} (h : rule.CarriesName) {v : Violation}
    (hv : v ∈ kept c unit rule) : v.rule = rule.identifier := by
  obtain ⟨findings, hfindings, w, hw, rfl⟩ := exists_of_mem_kept hv
  exact h unit _ findings hfindings w hw

section Permuted

variable {rules rules' : List Rule} (hperm : rules'.Perm rules)
include hperm

/-- **Permuted rules have the same findings**, those that compare equal in the same order. -/
theorem violations_check_perm (hdistinct : (rules.map Rule.identifier).Nodup)
    (hnames : ∀ rule ∈ rules, rule.CarriesName) :
    (check ⟨rules', c⟩ unit).violations = (check ⟨rules, c⟩ unit).violations := by
  rw [check_eq, check_eq]
  refine (eq_mergeSort_iff.2 ?_).symm
  have hsort : IsStableSort Violation.compareInFile (rules.flatMap (kept c unit)) _ :=
    isStableSort_mergeSort _
  refine ⟨hsort.perm.trans (hperm.flatMap_right _).symm, hsort.ordered, fun v => ?_⟩
  refine (hsort.stable v).trans (filter_flatMap_perm hdistinct.of_map hperm ?_ v).symm
  -- equal findings carry one name, and that is the identifier of one rule
  intro rule hrule rule' hrule' v hv w hw hvw
  refine List.inj_on_of_nodup_map hdistinct hrule' hrule ?_
  rw [← rule_of_mem_kept (hnames rule hrule) hv, ← rule_of_mem_kept (hnames rule' hrule') hw,
    (Violation.compareInFile_eq_iff.1 hvw).2.2]

/-- Permuted rules give up for the same reasons. -/
theorem diagnostics_check_perm :
    (check ⟨rules', c⟩ unit).diagnostics.Perm (check ⟨rules, c⟩ unit).diagnostics := by
  rw [check_eq, check_eq]
  exact hperm.filterMap _

end Permuted

/-- **The order of registration does not count.**  Rules with distinct identifiers that report under
their own give the same list of findings in every order, and the same diagnostics in some order.
The built-in rules have distinct identifiers and report under their own, so this holds of any choice
of them without repetition. -/
theorem check_perm :
    (∀ c unit rules rules', rules'.Perm rules → (rules.map Rule.identifier).Nodup →
      (∀ rule ∈ rules, rule.CarriesName) →
      (check ⟨rules', c⟩ unit).violations = (check ⟨rules, c⟩ unit).violations ∧
      (check ⟨rules', c⟩ unit).diagnostics.Perm (check ⟨rules, c⟩ unit).diagnostics) ∧
    (∀ rule ∈ Catalog.rules, rule.CarriesName) ∧ Catalog.identifiers.Nodup :=
  ⟨fun _ _ _ _ hperm hdistinct hnames =>
      ⟨violations_check_perm hperm hdistinct hnames, diagnostics_check_perm hperm⟩,
    fun _ => Catalog.carriesName_of_mem_rules, by decide⟩

namespace Tied

/-- A rule with two findings on one line that compare equal. -/
def rule (identifier : String) : Rule where
  descriptor := { identifier, name := identifier, description := "" }
  validate unit _ := .ok
    [{ rule := identifier, severity := .high, location := { file := unit.path, line := 1 },
       reason := "given first" },
     { rule := identifier, severity := .low, location := { file := unit.path, line := 1 },
       reason := "given second" }]

/-- A finding of such a rule on a unit that comes from no file. -/
def finding (identifier : String) (severity : Severity) (reason : String) : Violation :=
  { rule := identifier, severity, location := { line := 1 }, reason }

theorem carriesName (identifier : String) : (rule identifier).CarriesName := by
  intro unit settings findings hfindings v hv
  obtain rfl := Except.ok.inj hfindings
  rcases List.mem_pair.1 hv with rfl | rfl <;> rfl

end Tied

/-- Two rules in the wrong order report as in the right one. -/
theorem check_perm_tied :
    (check ⟨[Tied.rule "b", Tied.rule "a"], {}⟩ (.ofContents "x\n")).violations =
      [Tied.finding "a" .high "given first", Tied.finding "a" .low "given second",
        Tied.finding "b" .high "given first", Tied.finding "b" .low "given second"] := by
  have hnames : ∀ rule ∈ [Tied.rule "a", Tied.rule "b"], rule.CarriesName := by
    intro rule hrule
    rcases List.mem_pair.1 hrule with rfl | rfl <;> exact Tied.carriesName _
  obtain ⟨hviolations, _⟩ := check_perm.1 {} (.ofContents "x\n") [Tied.rule "a", Tied.rule "b"]
    [Tied.rule "b", Tied.rule "a"] (.swap _ _ _) (by decide) hnames
  rw [hviolations]
  exact violations_check_eq (by decide +kernel) (by decide +kernel)

end Linter

end SwiftStyle
