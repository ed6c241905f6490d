import SwiftStyle.Proofs.Lists
import SwiftStyle.Proofs.Order

/-!
# Proofs/Report/Sorting — findings have one order, however they come in

Both orders of findings are total preorders.  So, as long as distinct findings do not compare equal,
sorting gives the one arrangement that is in order, from whatever arrangement it starts
(`sortsUniquely_mergeSort`).  How a path is written does not count, because paths are compared by
their steps (`Violation.orders_exact`).
-/

open Std

namespace SwiftStyle

/-- **A comparison that puts everything in order**, but for what it holds equal. -/
structure OrdersTotally {α : Type} (cmp : α → α → Ordering) : Prop where
  refl : ∀ a, cmp a a = .eq
  swap : ∀ a b, cmp b a = (cmp a b).swap
  total : ∀ a b, (cmp a b).isLE ∨ (cmp b a).isLE
  trans : ∀ a b c, (cmp a b).isLE → (cmp b c).isLE → (cmp a c).isLE

/-- **Sorting leaves nothing open** for lists without distinct elements that compare equal: it gives
the same list for every arrangement of them, the only one that is in order. -/
structure SortsUniquely {α : Type} (cmp : α → α → Ordering) (sort : List α → List α) : Prop where
  sort_perm : ∀ l l', l'.Perm l → (∀ a ∈ l, ∀ b ∈ l, cmp a b = .eq → a = b) → sort l' = sort l
  eq_sort_iff : ∀ l sorted, (∀ a ∈ l, ∀ b ∈ l, cmp a b = .eq → a = b) →
    (sorted = sort l ↔ sorted.Perm l ∧ sorted.Pairwise fun a b => (cmp a b).isLE)

section TransCmp

variable {α : Type} (cmp : α → α → Ordering) [TransCmp cmp]

theorem ordersTotally_of_transCmp : OrdersTotally cmp where
  refl _ := ReflCmp.compare_self
  swap _ _ := OrientedCmp.eq_swap
  total a b := Bool.or_eq_true_iff.1 (isLE_total a b)
  trans _ _ _ := TransCmp.isLE_trans

theorem sortsUniquely_mergeSort :
    SortsUniquely cmp fun l => l.mergeSort fun a b => (cmp a b).isLE where
  sort_perm l l' hperm hl := by
    have hsort : IsStableSort cmp l' _ := isStableSort_mergeSort l'
    exact (eq_mergeSort_iff_of_distinct hl).2 ⟨hsort.perm.trans hperm, hsort.ordered⟩
  eq_sort_iff _ _ := eq_mergeSort_iff_of_distinct

end TransCmp

namespace Violation

/-- **The orders of findings are total preorders**, and sorting by them depends on nothing but what
there is to sort, as long as distinct findings do not compare equal.  Across files, findings compare
equal when they are in the same file, on the same line, at the same character and of the same rule;
and the two orders agree in files that are the same. -/
theorem orders_exact :
    OrdersTotally compareInFile ∧ OrdersTotally compareAcrossFiles ∧
    (∀ v w, compareAcrossFiles v w = .eq ↔ Path.SameFile v.location.file w.location.file ∧
      v.location.line = w.location.line ∧ v.location.character = w.location.character ∧
      v.rule = w.rule) ∧
    (∀ v w, Path.SameFile v.location.file w.location.file →
      compareAcrossFiles v w = compareInFile v w) ∧
    SortsUniquely compareInFile sortInFile ∧
    SortsUniquely compareAcrossFiles sortAcrossFiles :=
  ⟨ordersTotally_of_transCmp _, ordersTotally_of_transCmp _,
    fun _ _ => compareAcrossFiles_eq_iff, fun _ _ => compareAcrossFiles_of_sameFile,
    sortsUniquely_mergeSort _, sortsUniquely_mergeSort _⟩

namespace Respelled

/-- A finding on the first line of a file. -/
def finding (file : Option Path) (reason : String) : Violation :=
  { rule := "line_length", severity := .low, location := { file, line := 1 }, reason }

/-- In no file. -/
def piped : Violation := finding none "too long"

/-- In a directory. -/
def plain : Violation := finding (some ⟨"a/b"⟩) "too long"

/-- In the same file, with its path written in another way. -/
def wordy : Violation := finding (some ⟨"a//./b/"⟩) "far too long"

/-- In a file that stands beside the directory. -/
def beside : Violation := finding (some ⟨"a.b"⟩) "too long"

end Respelled

open Respelled in
/-- What is in a directory comes before what is beside it, in whatever order they come in, and one
file whose path is written in two ways is one file. -/
theorem orders_exact_respelled :
    compareAcrossFiles plain wordy = .eq ∧
      compareAcrossFiles wordy plain = compareInFile wordy plain ∧
      (compareAcrossFiles piped beside).isLE ∧
      [piped, plain, beside] = sortAcrossFiles [beside, plain, piped] ∧
      sortAcrossFiles [beside, piped, plain] = sortAcrossFiles [beside, plain, piped] := by
  obtain ⟨_, hacross, heq, hsame, _, hsort⟩ := orders_exact
  have hplain : compareAcrossFiles plain wordy = .eq :=
    (heq plain wordy).2 ⟨.some (by decide +kernel), rfl, rfl, rfl⟩
  have hdistinct : ∀ v ∈ [beside, plain, piped], ∀ w ∈ [beside, plain, piped],
      compareAcrossFiles v w = .eq → v = w := by decide +kernel
  refine ⟨hplain, hsame wordy plain (.some (by decide +kernel)), ?_, ?_, ?_⟩
  · exact hacross.trans piped plain beside (by decide +kernel) (by decide +kernel)
  · refine (hsort.eq_sort_iff _ _ hdistinct).2 ⟨by decide +kernel, by decide +kernel⟩
  · exact hsort.sort_perm _ _ (by decide +kernel) hdistinct

end Violation

end SwiftStyle
