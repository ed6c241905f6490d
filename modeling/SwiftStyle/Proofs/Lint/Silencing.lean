import SwiftStyle.Proofs.Rules.Bounds
import SwiftStyle.Proofs.Suppression

/-!
# Proofs/Lint/Silencing — what the directives of a unit silence

All that is known of the directives of a unit, put together: which rules they silence on which lines,
the line after the last one included, where the rule about the end of the file reports; and how far
a change to one line can reach.
-/

namespace SwiftStyle

namespace Suppressions

/-- **Suppression is exact per directive.**  A rule is silenced on a line just where some line
silences it there, and there is no directive just where no line carries one; looking for the marker
first never changes the answer, and the lines answer one by one.  A directive on the last line that
speaks of the next one covers the line after the last, where a missing or repeated last newline is
reported.  When only the text of line `k` changes, then at most the answers for `k` and `k + 1` do. -/
theorem collect_exact (unit : SourceUnit) :
    (∀ target rule, (collect unit).isSuppressed target rule ↔
      ∃ line ∈ unit.lines, line.Silences target rule) ∧
    ((collect unit).isEmpty ↔ ∀ line ∈ unit.lines, Directive.parse? line.text = none) ∧
    collect unit = ofLines unit.lines ∧
    (∀ target rule, (collect unit).isSuppressed target rule
      = unit.lines.any fun line => (ofLines [line]).isSuppressed target rule) ∧
    (∀ line d rule, unit.lines.getLast? = some line → Directive.parse? line.text = some d →
      d.scope = .nextLine → rule ∈ d.rules ∨ "all" ∈ d.rules →
      (collect unit).isSuppressed (unit.lines.length + 1) rule) ∧
    (∀ options, ∀ v ∈ TrailingNewline.findings unit options,
      v.location.line = unit.lines.length + 1) ∧
    ∀ (other : SourceUnit) (k : Nat),
      (∀ i, i + 1 ≠ k →
        (other.lines[i]?).map Line.text = (unit.lines[i]?).map Line.text) →
      ∀ target, target ≠ k → target ≠ k + 1 → ∀ rule,
        (collect other).isSuppressed target rule = (collect unit).isSuppressed target rule := by
  rw [collect_eq]
  refine ⟨fun _ _ => isSuppressed_ofLines_iff, isEmpty_ofLines_iff, rfl,
    isSuppressed_ofLines_eq unit.lines, fun line d rule hlast hd hscope hnames => ?_,
    fun options v hv => (TrailingNewline.of_mem_findings hv).2.1,
    fun other k h target hthis hnext rule => ?_⟩
  · rw [isSuppressed_ofLines_iff]
    refine ⟨line, List.mem_of_getLast? hlast, d, hd, hnames, .inr ⟨hscope, ?_⟩⟩
    rw [index_of_getLast?_lineTable hlast]
    rfl
  · rw [collect_eq]
    exact isSuppressed_lineTable_congr h hthis hnext rule

namespace Edited

/-- A directive on each of two lines, the last one aimed behind the end. -/
def unit : SourceUnit :=
  .ofContents "x//tidemark:disable:this-line a\n//tidemark:disable:next-line all"

/-- The same without the directive on the first line, which ends otherwise. -/
def other : SourceUnit := .ofContents "x\r\n//tidemark:disable:next-line all"

/-- The last line of both. -/
def last : List Char := "//tidemark:disable:next-line all".toList

theorem lines_unit :
    unit.lines = [⟨1, 0, ⟨"x//tidemark:disable:this-line a".toList, .newline⟩⟩,
      ⟨2, 32, ⟨last, .none⟩⟩] := by
  have hcontents : unit.contents.toList = _ := String.toList_ofList
  rw [SourceUnit.lines, hcontents]
  decide +kernel

theorem lines_other :
    other.lines = [⟨1, 0, ⟨['x'], .returnNewline⟩⟩, ⟨2, 3, ⟨last, .none⟩⟩] := by
  have hcontents : other.contents.toList = _ := String.toList_ofList
  rw [SourceUnit.lines, hcontents]
  decide +kernel

theorem parse?_last : Directive.parse? last = some ⟨.nextLine, ["all"]⟩ := by decide +kernel

end Edited

/-- The directive on the last line silences every rule on the line after it, and still does when the
first line has changed. -/
theorem collect_exact_edited :
    (collect Edited.unit).isSuppressed 3 "trailing_newline" ∧
      (collect Edited.other).isSuppressed 3 "trailing_newline" := by
  obtain ⟨_, _, _, _, hlast, _, hchange⟩ := collect_exact Edited.unit
  rw [Edited.lines_unit] at hlast hchange
  have hcovered : (collect Edited.unit).isSuppressed 3 "trailing_newline" :=
    hlast _ _ _ rfl Edited.parse?_last rfl (.inr List.mem_cons_self)
  refine ⟨hcovered, ?_⟩
  rw [hchange Edited.other 1 (fun i hi => ?_) 3 (by decide) (by decide), hcovered]
  rw [Edited.lines_other]
  cases i with
  | zero => exact absurd rfl hi
  | succ i => cases i <;> rfl

end Suppressions

end SwiftStyle
