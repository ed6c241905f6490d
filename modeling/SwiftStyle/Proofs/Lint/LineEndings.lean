import SwiftStyle.Proofs.Lint.Check
import SwiftStyle.Proofs.Source.LineEndings
import SwiftStyle.Proofs.Suppression
import SwiftStyle.Rules.Catalog

/-!
# Proofs/Lint/LineEndings — line endings do not change findings

Three things make up what a built-in rule finds: the numbers and texts of lines, the positions of
nodes of the structure tree, and for `TrailingNewline` the endings at the end of the contents.  None
of them changes when `\r\n` is written for `\n`, so every built-in rule answers alike
(`Catalog.validate_withReturns`), and directives are a matter of the lines as well.
-/

namespace SwiftStyle

/-! ## What rules read -/

/-- Every node that a rule asks for the position of lies in the contents. -/
def SourceUnit.NodesInside (unit : SourceUnit) : Prop :=
  ∀ node, unit.tree.Contains node →
    node.kind.isType = true ∨ node.kind = .call ∨ node.kind = .argument →
    node.offset < unit.contents.utf8ByteSize

section Lines

variable {unit : SourceUnit} (h : '\r' ∉ unit.contents.toList) (options : Options)
include h

theorem Suppressions.collect_withReturns : collect unit.withReturns = collect unit := by
  rw [collect_eq, collect_eq, ofLines, ofLines,
    SourceUnit.filterMap_lines_withReturns h fun _ => rfl]

theorem LineLength.findings_withReturns :
    findings unit.withReturns options = findings unit options :=
  SourceUnit.filterMap_lines_withReturns h fun _ => rfl

theorem TrailingWhitespace.findings_withReturns :
    findings unit.withReturns options = findings unit options :=
  SourceUnit.filterMap_lines_withReturns h fun _ => rfl

theorem SourceUnit.length_lines_withReturns :
    unit.withReturns.lines.length = unit.lines.length := by
  simpa using congrArg List.length (map_bare_lines_withReturns h)

theorem FileLength.findings_withReturns :
    findings unit.withReturns options = findings unit options := by
  have hbare : ∀ (lines : List Line) (ignoresComments : Bool),
      measure lines ignoresComments = measure (lines.map Line.bare) ignoresComments := by
    intro lines ignoresComments
    rw [measure, measure, List.countP_map, List.length_map]
    rfl
  rw [findings, findings, hbare unit.withReturns.lines, hbare unit.lines,
    SourceUnit.map_bare_lines_withReturns h, SourceUnit.length_lines_withReturns h]
  rfl

end Lines

/-! ## Endings at the end -/

namespace TrailingNewline

/-- Read from the end, a return behind each newline makes no further ending. -/
theorem leadingEndings_flatMap {l : List Char} (h : '\r' ∉ l) :
    leadingEndings (l.flatMap fun c => if c = '\n' then ['\n', '\r'] else [c])
      = leadingEndings l := by
  induction l with
  | nil => rfl
  | cons c l ih =>
    have hc : c ≠ '\r' := fun he => h (he ▸ List.mem_cons_self)
    have hl : '\r' ∉ l := fun hr => h (List.mem_cons_of_mem _ hr)
    rw [List.flatMap_cons]
    by_cases hn : c = '\n'
    · have hsecond : leadingEndings ('\n' :: l) = leadingEndings l + 1 := by
        rw [leadingEndings]
        rintro rest rfl
        exact hl List.mem_cons_self
      rw [if_pos hn, hn, hsecond, ← ih hl]
      rfl
    · have hnone : ∀ rest, leadingEndings (c :: rest) = 0 := fun rest => by
        rw [leadingEndings] <;> simp [hc, hn]
      rw [if_neg hn, List.singleton_append, hnone, hnone]

/-- A text ends in as many endings as before. -/
theorem trailingEndings_withReturns {text : List Char} (h : '\r' ∉ text) :
    trailingEndings (withReturns text) = trailingEndings text := by
  have hreverse : (withReturns text).reverse
      = text.reverse.flatMap fun c => if c = '\n' then ['\n', '\r'] else [c] := by
    rw [withReturns, List.reverse_flatMap]
    refine congrArg (text.reverse.flatMap ·) (funext fun c => ?_)
    by_cases hc : c = '\n' <;> simp [hc]
  rw [trailingEndings, trailingEndings, hreverse, leadingEndings_flatMap (by simpa using h)]

theorem findings_withReturns {unit : SourceUnit} (h : '\r' ∉ unit.contents.toList)
    (options : Options) : findings unit.withReturns options = findings unit options := by
  have hempty : (withReturns unit.contents.toList).isEmpty = unit.contents.toList.isEmpty := by
    cases unit.contents.toList with
    | nil => rfl
    | cons c rest =>
      rw [withReturns, List.flatMap_cons]
      split <;> rfl
  have hlength := SourceUnit.length_lines_withReturns h
  have hcontents : unit.withReturns.contents.toList = withReturns unit.contents.toList :=
    String.toList_ofList
  rw [findings, findings, hcontents, hempty, trailingEndings_withReturns h, hlength]
  rfl

end TrailingNewline

/-! ## Positions of nodes -/

/-- Of a node that declares no type nothing is found. -/
theorem TypeName.finding?_of_not_isType {path : Option Path} {lines : List Line}
    {shortest longest : Nat} {node : Node} (h : node.kind.isType = false) :
    finding? path lines shortest longest node = none := by
  rw [finding?, h]
  rfl

section Nodes

variable {unit : SourceUnit} (h : '\r' ∉ unit.contents.toList) (hnodes : unit.NodesInside)
  (options : Options)
include h hnodes

/-- A node that a rule asks for the position of keeps it. -/
theorem SourceUnit.NodesInside.positionIn?_eq {node : Node} (hnode : unit.tree.Contains node)
    (hkind : node.kind.isType = true ∨ node.kind = .call ∨ node.kind = .argument) :
    positionIn? unit.withReturns.lines (unit.movedOffset node.offset)
      = positionIn? unit.lines node.offset :=
  SourceUnit.position?_withReturns h (hnodes node hnode hkind)

theorem TypeName.findings_withReturns :
    findings unit.withReturns options = findings unit options := by
  rw [findings, findings, SourceUnit.tree_withReturns, Node.walk_mapOffsets, List.filterMap_map]
  refine List.filterMap_congr fun node hnode => ?_
  rw [Function.comp_apply]
  cases hkind : node.kind.isType with
  | true =>
    rw [finding?, finding?, Node.kind_mapOffsets, Node.name_mapOffsets, Node.offset_mapOffsets,
      hnodes.positionIn?_eq h (Node.mem_walk_iff.1 hnode) (.inl hkind)]
    rfl
  | false =>
    rw [finding?_of_not_isType hkind,
      finding?_of_not_isType ((congrArg _ (Node.kind_mapOffsets _ node)).trans hkind)]

/-- The arguments of a call keep their positions. -/
theorem MultilineArguments.argumentPositions_withReturns {node : Node}
    (hnode : unit.tree.Contains node) :
    argumentPositions unit.withReturns.lines (node.mapOffsets unit.movedOffset)
      = argumentPositions unit.lines node := by
  rw [argumentPositions, argumentPositions, Node.children_mapOffsets, List.filter_map,
    List.filterMap_map]
  have hkinds : (fun node : Node => decide (node.kind = .argument)) ∘
      Node.mapOffsets unit.movedOffset = fun node => decide (node.kind = .argument) :=
    funext fun node => by rw [Function.comp_apply, Node.kind_mapOffsets]
  rw [hkinds]
  refine List.filterMap_congr fun child hchild => ?_
  obtain ⟨hmem, hkind⟩ := List.mem_filter.1 hchild
  have hinside := hnode.trans (.nested hmem (.here child))
  rw [Function.comp_apply, Node.offset_mapOffsets,
    hnodes.positionIn?_eq h hinside (.inr (.inr (of_decide_eq_true hkind)))]

theorem MultilineArguments.findings_withReturns :
    findings unit.withReturns options = findings unit options := by
  rw [findings, findings, SourceUnit.tree_withReturns, Node.walk_mapOffsets, List.flatMap_map]
  refine congrArg (List.map (finding unit.path)) (List.flatMap_congr fun node hnode => ?_)
  have hnode := Node.mem_walk_iff.1 hnode
  rw [offendingIn, offendingIn, Node.kind_mapOffsets]
  split
  · next hkind =>
    rw [Node.offset_mapOffsets, hnodes.positionIn?_eq h hnode (.inr (.inl hkind)),
      argumentPositions_withReturns h hnodes hnode]
  · rfl

/-- **Every built-in rule answers alike** when line endings change. -/
theorem Catalog.validate_withReturns {rule : Rule} (hrule : rule ∈ rules)
    (settings : RuleSettings) :
    rule.validate unit.withReturns settings = rule.validate unit settings := by
  simp only [rules, List.mem_cons, List.not_mem_nil, or_false] at hrule
  rcases hrule with rfl | rfl | rfl | rfl | rfl | rfl
  · exact congrArg Except.ok (FileLength.findings_withReturns h _)
  · exact congrArg Except.ok (LineLength.findings_withReturns h _)
  · exact congrArg Except.ok (MultilineArguments.findings_withReturns h hnodes _)
  · exact congrArg Except.ok (TrailingNewline.findings_withReturns h _)
  · exact congrArg Except.ok (TrailingWhitespace.findings_withReturns h _)
  · exact congrArg Except.ok (TypeName.findings_withReturns h hnodes _)

end Nodes

/-! ## The report -/

namespace Linter

/-- **Line endings do not change findings.**  When a unit without carriage returns is written with
`\r\n` for every `\n`, and its tree moved along, any list of built-in rules under any configuration
reports the same. -/
theorem check_withReturns {linter : Linter} {unit : SourceUnit}
    (hcontents : '\r' ∉ unit.contents.toList)
    (hnodes : ∀ node, unit.tree.Contains node →
      node.kind.isType = true ∨ node.kind = .call ∨ node.kind = .argument →
      node.offset < unit.contents.utf8ByteSize)
    (hrules : ∀ rule ∈ linter.rules, rule ∈ Catalog.rules) :
    linter.check unit.withReturns = linter.check unit :=
  check_congr rfl (Suppressions.collect_withReturns hcontents) fun rule hrule settings =>
    Catalog.validate_withReturns hcontents hnodes (hrules rule hrule) settings

namespace FourFindings

/-- A text with something to find on three of its lines and at its end. -/
def unit : SourceUnit where
  contents := "struct a \nfoo(1,\n2, 3)\n\n"
  tree := Node.fileRoot 24
    [.mk .structType (some "a") 0 8 [],
      .mk .call (some "foo") 13 9
        [.mk .argument none 14 1 [], .mk .argument none 17 1 [], .mk .argument none 20 1 []]]

def linter : Linter where
  rules := [TypeName.rule, TrailingWhitespace.rule, MultilineArguments.rule, TrailingNewline.rule]

/-- What is found, in order. -/
def findings : List Violation :=
  [{ rule := "type_name", severity := .medium, location := { line := 1, character := some 1 },
     reason := "Type name should start with an uppercase character: 'a'" },
   { rule := "trailing_whitespace", severity := .medium,
     location := { line := 1, character := some 9 },
     reason := "Lines should not have trailing whitespace." },
   { rule := "multiline_arguments", severity := .medium,
     location := { line := 3, character := some 4 },
     reason := "Arguments should be either on the same line, or one per line." },
   { rule := "trailing_newline", severity := .medium, location := { line := 5 },
     reason := "File should have a single trailing newline." }]

end FourFindings

/-- With returns in the text the same is found at the same places. -/
theorem check_withReturns_fourFindings :
    FourFindings.unit.withReturns.contents = "struct a \r\nfoo(1,\r\n2, 3)\r\n\r\n" ∧
      (FourFindings.linter.check FourFindings.unit.withReturns).violations
        = FourFindings.findings := by
  have hnodes : ∀ node, FourFindings.unit.tree.Contains node →
      node.kind.isType = true ∨ node.kind = .call ∨ node.kind = .argument →
      node.offset < FourFindings.unit.contents.utf8ByteSize := by
    intro node hnode
    rw [← Node.mem_walk_iff, Node.walk_eq_preorder] at hnode
    have hall : ∀ node ∈ FourFindings.unit.tree.preorder,
        node.kind.isType = true ∨ node.kind = .call ∨ node.kind = .argument →
        node.offset < FourFindings.unit.contents.utf8ByteSize := by decide +kernel
    exact hall node hnode
  have hrules : ∀ rule ∈ FourFindings.linter.rules, rule ∈ Catalog.rules := by
    simp [FourFindings.linter, Catalog.rules]
  refine ⟨by decide +kernel, ?_⟩
  rw [check_withReturns (by decide +kernel) hnodes hrules]
  exact violations_check_eq (by decide +kernel) (by decide +kernel)

end Linter

end SwiftStyle
