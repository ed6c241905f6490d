import SwiftStyle.Violation

/-!
# Proofs/Order — the comparisons of paths and findings are lawful

The comparisons of steps, paths and findings are total preorders (`TransCmp`), because each is a
chain of comparisons of keys.  Paths compare equal when they name the same steps
(`Path.compare_eq_iff`), and the order of findings inside one file is spelled out in
`Violation.isLE_compareInFile_iff`.  Findings compare equal across files when they stand in the same
file, on the same line, at the same character and for the same rule
(`Violation.compareAcrossFiles_eq_iff`); inside one file the two orders are one.
-/

open Std

namespace SwiftStyle

/-! ## Steps and paths -/

instance : TransOrd Path.Component :=
  inferInstanceAs (TransCmp (compareLex (compareOn Path.Component.rank)
    (compareOn Path.Component.text)))

instance : LawfulEqOrd Path.Component where
  eq_of_compare {a b} h := by
    obtain ⟨hrank, htext⟩ := Ordering.then_eq_eq.1 h
    have hrank := LawfulEqCmp.eq_of_compare hrank
    have htext := LawfulEqCmp.eq_of_compare htext
    cases a <;> cases b <;> simp_all [Path.Component.rank, Path.Component.text]

instance : TransOrd Path := inferInstanceAs (TransCmp (compareOn Path.components))

namespace Path

/-- **Paths that compare equal name the same steps.** -/
theorem compare_eq_iff {p q : Path} : compare p q = .eq ↔ p.components = q.components := by
  change compare p.components q.components = .eq ↔ _
  exact LawfulEqOrd.compare_eq_iff_eq

theorem sameSteps_iff {p q : Path} : p.sameSteps q = true ↔ p.components = q.components := by
  rw [sameSteps, beq_iff_eq]

/-- Both files are absent, or both name the same steps. -/
def SameFile : Option Path → Option Path → Prop := Option.Rel fun p q => p.components = q.components

theorem compare_file_eq_iff {f g : Option Path} : compare f g = .eq ↔ SameFile f g := by
  constructor
  · intro h
    cases f with
    | none =>
      cases g with
      | none => exact .none
      | some q => cases h
    | some p =>
      cases g with
      | none => cases h
      | some q => exact .some (compare_eq_iff.1 h)
  · rintro (h | _)
    · exact compare_eq_iff.2 h
    · rfl

end Path

/-! ## Findings -/

namespace Violation

instance : TransCmp compareInFile :=
  inferInstanceAs (TransCmp (compareLex (compareOn fun v : Violation => v.location.line)
    (compareLex (compareOn fun v => v.location.character) (compareOn Violation.rule))))

instance : TransCmp compareAcrossFiles :=
  inferInstanceAs (TransCmp (compareLex (compareOn fun v : Violation => v.location.file)
    compareInFile))

/-- A whole line comes before any of its characters. -/
theorem compare_character_eq_lt_iff {c d : Option Nat} : compare c d = .lt ↔ c < d := by
  cases c with
  | none => cases d <;> simp [compare]
  | some c =>
    cases d with
    | none => simp [compare]
    | some d =>
      change compare c d = .lt ↔ some c < some d
      rw [Nat.compare_eq_lt, Option.some_lt_some]

/-- **The order inside one file, spelled out**: by line, then by character with the whole line
first, then by rule. -/
theorem isLE_compareInFile_iff {v w : Violation} :
    (compareInFile v w).isLE ↔
      v.location.line < w.location.line ∨ v.location.line = w.location.line ∧
        (v.location.character < w.location.character ∨
          v.location.character = w.location.character ∧ v.rule ≤ w.rule) := by
  have hrule : (compare v.rule w.rule).isLE ↔ v.rule ≤ w.rule :=
    isLE_compareOfLessAndEq String.le_antisymm String.not_le String.le_total
  rw [compareInFile, Ordering.isLE_then_iff_or, Ordering.isLE_then_iff_or, Nat.compare_eq_lt,
    Nat.compare_eq_eq, compare_character_eq_lt_iff, LawfulEqOrd.compare_eq_iff_eq, hrule]

theorem compareInFile_eq_iff {v w : Violation} :
    compareInFile v w = .eq ↔ v.location.line = w.location.line ∧
      v.location.character = w.location.character ∧ v.rule = w.rule := by
  rw [compareInFile, Ordering.then_eq_eq, Ordering.then_eq_eq, LawfulEqOrd.compare_eq_iff_eq,
    LawfulEqOrd.compare_eq_iff_eq, LawfulEqOrd.compare_eq_iff_eq]

/-- **Findings that compare equal across files.** -/
theorem compareAcrossFiles_eq_iff {v w : Violation} :
    compareAcrossFiles v w = .eq ↔ Path.SameFile v.location.file w.location.file ∧
      v.location.line = w.location.line ∧ v.location.character = w.location.character ∧
      v.rule = w.rule := by
  rw [compareAcrossFiles, Ordering.then_eq_eq, Path.compare_file_eq_iff, compareInFile_eq_iff]

/-- **In one file the two orders agree.** -/
theorem compareAcrossFiles_of_sameFile {v w : Violation}
    (h : Path.SameFile v.location.file w.location.file) :
    compareAcrossFiles v w = compareInFile v w := by
  rw [compareAcrossFiles, Path.compare_file_eq_iff.2 h, Ordering.eq_then]

end Violation

end SwiftStyle
