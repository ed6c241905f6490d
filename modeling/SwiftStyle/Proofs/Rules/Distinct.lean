import Mathlib.Data.List.Flatten
import SwiftStyle.Proofs.Rules.Places
import SwiftStyle.Proofs.Source.Lines
import SwiftStyle.Proofs.Source.Structure

/-!
# Proofs/Rules/Distinct — a built-in rule reports a place once

A rule keeps its findings apart when no two of them have the same line and character.  Rules about
the whole file give one finding, rules about lines give one for a line, and rules about nodes give
one for a node, so these lie apart if the nodes have places of their own (`Node.Distinct`).  The rule
about arguments visits every call: an argument is a child of one call and no more
(`Node.walk_perm`), and is looked at once there.
-/

namespace SwiftStyle

/-- The line and the character of a finding. -/
def Violation.place (v : Violation) : Nat × Option Nat := (v.location.line, v.location.character)

/-- **A rule reports no place of a unit twice**, whatever its settings are. -/
def Rule.KeepsApart (rule : Rule) (unit : SourceUnit) : Prop :=
  ∀ settings findings, rule.validate unit settings = .ok findings →
    (findings.map Violation.place).Nodup

theorem Rule.keepsApart_ofFindings {descriptor : RuleDescriptor} {unit : SourceUnit}
    {findings : SourceUnit → Options → List Violation}
    (h : ∀ options, ((findings unit options).map Violation.place).Nodup) :
    (ofFindings descriptor findings).KeepsApart unit := by
  intro settings found hfound
  obtain rfl := Except.ok.inj hfound
  exact h settings.options

/-- At most one finding on each line. -/
theorem nodup_place_of_lines {contents : List Char} {finding? : Line → Option Violation}
    (h : ∀ line v, finding? line = some v → v.location.line = line.index) :
    (((lineTable contents).filterMap finding?).map Violation.place).Nodup := by
  have hlines := List.pairwise_map.1 (nodup_index_lineTable contents)
  refine List.pairwise_map.2 (List.pairwise_filterMap.2 (hlines.imp fun {a b} hab => ?_))
  intro v hv w hw hplace
  have hline := (Prod.mk.inj hplace).1
  rw [h a v hv, h b w hw] at hline
  exact hab hline

namespace FileLength

theorem keepsApart (unit : SourceUnit) : rule.KeepsApart unit := by
  refine Rule.keepsApart_ofFindings fun options => ?_
  simp only [findings]
  split <;> simp

end FileLength

namespace LineLength

theorem keepsApart (unit : SourceUnit) : rule.KeepsApart unit := by
  refine Rule.keepsApart_ofFindings fun options => nodup_place_of_lines fun line v hv => ?_
  simp only [finding?] at hv
  split at hv
  · cases hv
  · obtain ⟨_, _, rfl⟩ := Option.map_eq_some_iff.1 hv
    rfl

end LineLength

namespace TrailingNewline

theorem keepsApart (unit : SourceUnit) : rule.KeepsApart unit := by
  refine Rule.keepsApart_ofFindings fun options => ?_
  simp only [findings]
  split <;> simp

end TrailingNewline

namespace TrailingWhitespace

theorem keepsApart (unit : SourceUnit) : rule.KeepsApart unit := by
  refine Rule.keepsApart_ofFindings fun options => nodup_place_of_lines fun line v hv => ?_
  simp only [finding?] at hv
  split at hv
  · cases hv
  split at hv
  · cases hv
  · obtain rfl := Option.some.inj hv
    rfl

end TrailingWhitespace

namespace TypeName

/-- A finding stands for a type, at its position. -/
theorem place_of_finding? {path : Option Path} {lines : List Line} {shortest longest : Nat}
    {node : Node} {v : Violation} (h : finding? path lines shortest longest node = some v) :
    node.kind.declares ∧ ∃ p, positionIn? lines node.offset = some p ∧
      v.place = (p.line, some p.character) := by
  obtain ⟨htype, name, problem, p, _, _, hp, rfl⟩ := finding?_eq_some_iff.1 h
  exact ⟨NodeKind.declares_of_isType htype, p, hp, rfl⟩

theorem keepsApart {unit : SourceUnit} (h : unit.tree.Distinct) : rule.KeepsApart unit := by
  refine Rule.keepsApart_ofFindings fun options => ?_
  have hnodes := List.pairwise_filter.1 (List.pairwise_map.1 h.declarations)
  refine List.pairwise_map.2 (List.pairwise_filterMap.2 (hnodes.imp fun {a b} hab => ?_))
  intro v hv w hw hplace
  obtain ⟨ha, p, hp, hvp⟩ := place_of_finding? hv
  obtain ⟨hb, q, hq, hwq⟩ := place_of_finding? hw
  rw [hvp, hwq] at hplace
  obtain ⟨hline, hcharacter⟩ := Prod.mk.inj hplace
  have hpq : p = q := by
    cases p; cases q
    simp_all
  exact hab ha hb (positionIn?_injective hp (hpq ▸ hq))

end TypeName

namespace MultilineArguments

theorem crowded_sublist (occupied : List Nat) (positions : List Position) :
    (crowded occupied positions).Sublist positions := by
  fun_induction crowded occupied positions with
  | case1 => exact .slnil
  | case2 occupied p rest _ ih => exact ih.cons_cons p
  | case3 occupied p rest _ ih => exact ih.cons p

theorem offending_sublist (placement : Placement) (call : Nat) (positions : List Position) :
    (offending placement call positions).Sublist positions := by
  cases positions with
  | nil => exact .slnil
  | cons first rest =>
    rw [offending]
    split
    · exact List.nil_sublist _
    · have hfirst :
          (if placement.misplaced call first.line then [first] else []).Sublist [first] := by
        split
        · exact .refl _
        · exact List.nil_sublist _
      exact hfirst.append (crowded_sublist [first.line] rest)

/-- What is offending in a node are argument positions, each at most as often as it is one. -/
theorem offendingIn_sublist (lines : List Line) (placement : Placement) (node : Node) :
    (offendingIn lines placement node).Sublist (argumentPositions lines node) := by
  unfold offendingIn
  split
  · split
    · exact List.nil_sublist _
    · exact offending_sublist _ _ _
  · exact List.nil_sublist _

/-- **The positions of all arguments of a tree are distinct.** -/
theorem nodup_argumentPositions {contents : List Char} {tree : Node} (h : tree.Distinct) :
    (tree.walk.flatMap (argumentPositions (lineTable contents))).Nodup := by
  have hperm := (tree.walk_perm.filter (·.kind = .argument)).map Node.offset
  have hperm := hperm.nodup_iff.1 h.arguments
  rw [List.filter_cons_of_neg (by simpa using h.notArgument)] at hperm
  have hpositions : tree.walk.flatMap (argumentPositions (lineTable contents))
      = ((tree.walk.flatMap Node.children).filter (·.kind = .argument)).filterMap
        fun node => positionIn? (lineTable contents) node.offset := by
    rw [List.filter_flatMap, List.filterMap_flatMap]
    rfl
  rw [hpositions]
  refine List.pairwise_filterMap.2 ((List.pairwise_map.1 hperm).imp fun {a b} hab => ?_)
  rintro p hp q hq rfl
  exact hab (positionIn?_injective hp hq)

theorem keepsApart {unit : SourceUnit} (h : unit.tree.Distinct) : rule.KeepsApart unit := by
  refine Rule.keepsApart_ofFindings fun options => ?_
  have hpositions := (nodup_argumentPositions h).sublist (List.Sublist.flatMap_right unit.tree.walk
    fun node _ => offendingIn_sublist (lineTable unit.contents.toList) (placementOf options) node)
  rw [findings, List.map_map]
  refine hpositions.map fun p q hpq => ?_
  obtain ⟨hline, hcharacter⟩ := Prod.mk.inj hpq
  cases p; cases q
  simp_all [finding]

end MultilineArguments

namespace Catalog

/-- **Every built-in rule keeps its findings apart.** -/
theorem keepsApart_of_mem_rules {rule : Rule} {unit : SourceUnit} (hrule : rule ∈ rules)
    (h : unit.tree.Distinct) : rule.KeepsApart unit := by
  simp only [rules, List.mem_cons, List.not_mem_nil, or_false] at hrule
  rcases hrule with rfl | rfl | rfl | rfl | rfl | rfl
  · exact FileLength.keepsApart unit
  · exact LineLength.keepsApart unit
  · exact MultilineArguments.keepsApart h
  · exact TrailingNewline.keepsApart unit
  · exact TrailingWhitespace.keepsApart unit
  · exact TypeName.keepsApart h

end Catalog

end SwiftStyle
