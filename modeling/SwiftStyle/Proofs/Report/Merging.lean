import Mathlib.Algebra.GroupWithZero.Nat
import SwiftStyle.Proofs.Lists
import SwiftStyle.Proofs.Order
import SwiftStyle.Report

/-!
# Proofs/Report/Merging — reports put together in any number of steps

On its way to its final form a report takes in parts and is sorted, in any order and any number of
times (`Report.after`).  A sort in between leaves the last one nothing else to do
(`Report.sortAcrossFiles_after`), so in the end the findings of all parts stand as one stable sort
puts them (`Report.sort_after`), and everything that is counted adds up (`Report.merging_exact`).
-/

namespace SwiftStyle

namespace SeverityCounts

/-- The number of findings of one level. -/
def of (counts : SeverityCounts) : Severity → Nat
  | .high => counts.high
  | .medium => counts.medium
  | .low => counts.low

/-- The number of findings of all levels. -/
def total (counts : SeverityCounts) : Nat := counts.high + counts.medium + counts.low

end SeverityCounts

namespace Report

theorem hasViolationsAt_iff {r : Report} {threshold : Severity} :
    r.hasViolationsAt threshold = true ↔ ∃ v ∈ r.violations, threshold ≤ v.severity := by
  simp [hasViolationsAt]

/-! ## Counts -/

theorem of_counts (r : Report) (s : Severity) :
    r.counts.of s = r.violations.countP (·.severity = s) := by
  cases s <;> rfl

/-- Reports with the same findings have the same counts, in whatever order the findings stand. -/
theorem counts_eq_of_perm {r r' : Report} (h : r.violations.Perm r'.violations) :
    r.counts = r'.counts := by
  simp only [counts, h.countP_eq]

/-- **Every finding is counted once**, under its level. -/
theorem total_counts (r : Report) : r.counts.total = r.violations.length := by
  rw [SeverityCounts.total, counts]
  induction r.violations with
  | nil => rfl
  | cons v violations ih =>
    simp only [List.countP_cons, List.length_cons, ← ih]
    cases v.severity <;> simp <;> omega

/-- **The findings of a level are the longest sublist of findings of that level.** -/
theorem eq_bySeverity_iff {r : Report} {s : Severity} {found : List Violation} :
    found = r.bySeverity s ↔ found.Sublist r.violations ∧ (∀ v ∈ found, v.severity = s) ∧
      found.length = r.counts.of s := by
  have hlength : (r.bySeverity s).length = r.counts.of s := by
    rw [of_counts, bySeverity, List.countP_eq_length_filter]
  constructor
  · rintro rfl
    refine ⟨List.filter_sublist, fun v hv => ?_, hlength⟩
    simpa using (List.mem_filter.1 hv).2
  · rintro ⟨hsublist, hlevel, hcount⟩
    -- what is left of `found` in the filter is all of it, and the filter has no room for more
    have hkept : found.filter (·.severity = s) = found :=
      List.filter_eq_self.2 fun v hv => by simpa using hlevel v hv
    have hfilter : found.Sublist (r.bySeverity s) := hkept ▸ hsublist.filter _
    exact hfilter.eq_of_length (hcount.trans hlength.symm)

theorem hasViolationsAt_iff_counts {r : Report} {threshold : Severity} :
    r.hasViolationsAt threshold = true ↔ ∃ s, threshold ≤ s ∧ r.counts.of s ≠ 0 := by
  simp only [hasViolationsAt_iff, of_counts, Nat.ne_zero_iff_zero_lt, List.countP_pos_iff,
    decide_eq_true_iff]
  constructor
  · rintro ⟨v, hv, hle⟩
    exact ⟨v.severity, hle, v, hv, rfl⟩
  · rintro ⟨_, hle, v, hv, rfl⟩
    exact ⟨v, hv, hle⟩

/-! ## Steps -/

/-- What is done to a report on the way to its final form. -/
inductive Step
  | extend (part : Report)
  | sort

/-- The report after one step. -/
def Step.apply (r : Report) : Step → Report
  | extend part => r.extend part
  | sort => r.sort

/-- The part that a step adds. -/
def Step.part? : Step → Option Report
  | extend part => some part
  | sort => none

/-- The report after a sequence of steps. -/
def after (r : Report) (steps : List Step) : Report := steps.foldl Step.apply r

/-- The parts that a sequence of steps adds, in the order in which it does. -/
def parts (steps : List Step) : List Report := steps.filterMap Step.part?

@[simp] theorem parts_extend (part : Report) (steps : List Step) :
    parts (.extend part :: steps) = part :: parts steps := rfl

@[simp] theorem parts_sort (steps : List Step) : parts (.sort :: steps) = parts steps := rfl

variable (r : Report) (steps : List Step)

theorem after_concat_sort : r.after (steps ++ [.sort]) = (r.after steps).sort :=
  List.foldl_append

/-- **Sorting in between makes no difference** to the order in the end. -/
theorem sortAcrossFiles_after :
    Violation.sortAcrossFiles (r.after steps).violations
      = Violation.sortAcrossFiles (r.violations ++ (parts steps).flatMap (·.violations)) := by
  induction steps generalizing r with
  | nil => simp [after, parts]
  | cons step steps ih =>
    refine (ih (step.apply r)).trans ?_
    cases step with
    | extend part => simp [Step.apply, extend]
    | sort => exact mergeSort_append_left r.violations _

/-- **No step loses a finding or makes one up.** -/
theorem perm_after :
    (r.after steps).violations.Perm (r.violations ++ (parts steps).flatMap (·.violations)) := by
  have hperm : ∀ vs : List Violation, (Violation.sortAcrossFiles vs).Perm vs := fun vs =>
    List.mergeSort_perm vs _
  have hsort := hperm (r.after steps).violations
  rw [sortAcrossFiles_after] at hsort
  exact hsort.symm.trans (hperm _)

theorem diagnostics_after :
    (r.after steps).diagnostics = r.diagnostics ++ (parts steps).flatMap (·.diagnostics) := by
  induction steps generalizing r with
  | nil => simp [after, parts]
  | cons step steps ih =>
    refine (ih (step.apply r)).trans ?_
    cases step <;> simp [Step.apply, extend, sort]

theorem filesChecked_after :
    (r.after steps).filesChecked = r.filesChecked + ((parts steps).map (·.filesChecked)).sum := by
  induction steps generalizing r with
  | nil => simp [after, parts]
  | cons step steps ih =>
    refine (ih (step.apply r)).trans ?_
    cases step <;> simp [Step.apply, extend, sort, Nat.add_assoc]

/-- **A report that is sorted in the end** is one sort of everything that was added to it. -/
theorem sort_after :
    (r.after steps).sort =
      { violations :=
          Violation.sortAcrossFiles (r.violations ++ (parts steps).flatMap (·.violations))
        filesChecked := r.filesChecked + ((parts steps).map (·.filesChecked)).sum
        diagnostics := r.diagnostics ++ (parts steps).flatMap (·.diagnostics) } := by
  rw [sort, sortAcrossFiles_after, filesChecked_after, diagnostics_after]

/-- **Reports added one after the other**, and sorted. -/
theorem sort_foldl_extend (reports : List Report) :
    (reports.foldl extend r).sort =
      { violations := Violation.sortAcrossFiles (r.violations ++ reports.flatMap (·.violations))
        filesChecked := r.filesChecked + (reports.map (·.filesChecked)).sum
        diagnostics := r.diagnostics ++ reports.flatMap (·.diagnostics) } := by
  have hafter : r.after (reports.map .extend) = reports.foldl extend r := List.foldl_map
  have hparts : parts (reports.map .extend) = reports := by
    rw [parts, List.filterMap_map]
    exact List.filterMap_some
  rw [← hafter, sort_after, hparts]

/-- **Counts add up** over the parts, level by level. -/
theorem of_counts_after (s : Severity) :
    (r.after steps).counts.of s
      = r.counts.of s + ((parts steps).map fun part => part.counts.of s).sum := by
  simp only [of_counts, (perm_after r steps).countP_eq, List.countP_append, List.countP_flatMap]
  rfl

/-- **Merging and sorting can be interleaved freely.**  After any steps that end with a sort, the
findings are the one stable sort, across files, of those of the report and of all parts, one after
the other as they were added; the diagnostics are those of the parts in the same order, and the
numbers of files are added up.  Counts by level add up over the parts and do not change when a
report is sorted; together they are the number of findings.  The findings of a level are the sublist
of all those of that level, as many as are counted; and some finding reaches a threshold exactly
when a level from the threshold up has a count that is not zero. -/
theorem merging_exact :
    (∀ violations, violations = (r.after (steps ++ [.sort])).violations ↔
      IsStableSort Violation.compareAcrossFiles
        (r.violations ++ (parts steps).flatMap (·.violations)) violations) ∧
    (r.after (steps ++ [.sort])).diagnostics
      = r.diagnostics ++ (parts steps).flatMap (·.diagnostics) ∧
    (r.after (steps ++ [.sort])).filesChecked
      = r.filesChecked + ((parts steps).map (·.filesChecked)).sum ∧
    (∀ s, (r.after steps).counts.of s
      = r.counts.of s + ((parts steps).map fun part => part.counts.of s).sum) ∧
    r.sort.counts = r.counts ∧
    r.counts.total = r.violations.length ∧
    (∀ s found, found = r.bySeverity s ↔
      found.Sublist r.violations ∧ (∀ v ∈ found, v.severity = s) ∧
        found.length = r.counts.of s) ∧
    ∀ threshold, r.hasViolationsAt threshold = true ↔
      ∃ s, threshold ≤ s ∧ r.counts.of s ≠ 0 := by
  rw [after_concat_sort, sort_after]
  exact ⟨fun violations => eq_mergeSort_iff, rfl, rfl, r.of_counts_after steps,
    counts_eq_of_perm (List.mergeSort_perm _ _), r.total_counts, fun s found => eq_bySeverity_iff,
    fun threshold => hasViolationsAt_iff_counts⟩

end Report

end SwiftStyle
