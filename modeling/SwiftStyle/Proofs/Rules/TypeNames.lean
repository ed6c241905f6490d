import SwiftStyle.Proofs.Rules.Places
import SwiftStyle.Proofs.Source.Preorder

/-!
# Proofs/Rules/TypeNames — what is read off the structure tree of a unit

Two things are read off a walk node by node: the tracked names of a kind, and the findings on the
names of types.  A name is at fault when it does not begin with an upper-case character or has too
few or too many characters (`TypeName.problem?_eq_some_iff`).  What is reported is what the nodes
give in pre-order, one address of the tree after the other (`SourceUnit.traversal_exact`).
-/

namespace SwiftStyle

namespace TypeName

/-- The name begins with an upper-case character. -/
def BeginsUppercase (name : String) : Prop :=
  ∃ c ∈ name.toList.head?, Text.isUppercase c = true

instance (name : String) : Decidable (BeginsUppercase name) :=
  inferInstanceAs (Decidable (∃ c ∈ name.toList.head?, Text.isUppercase c = true))

/-- The name does not begin with an upper-case character, is too short or is too long. -/
def AtFault (shortest longest : Nat) (name : String) : Prop :=
  ¬BeginsUppercase name ∨ name.length < shortest ∨ longest < name.length

/-- **What the rule finds on a node**: it declares a type, its name is at fault and its offset has a
position. -/
def IsFinding (unit : SourceUnit) (shortest longest : Nat) (node : Node) (v : Violation) : Prop :=
  node.kind ∈ [.protocol, .classType, .structType, .enumType] ∧
    ∃ name position, node.name = some name ∧ AtFault shortest longest name ∧
      unit.position? node.offset = some position ∧
      v = { rule := "type_name"
            severity := .medium
            location :=
              { file := unit.path, line := position.line, character := some position.character }
            reason := reason shortest longest name
              (if BeginsUppercase name then .badLength else .lowercaseStart) }

theorem beginsUppercase_iff {name : String} :
    BeginsUppercase name ↔ name.toList.head?.map Text.isUppercase = some true := by
  rw [BeginsUppercase, Option.map_eq_some_iff]
  rfl

/-- **A name has a problem just when it is at fault.**  The first character is blamed first. -/
theorem problem?_eq_some_iff {shortest longest : Nat} {name : String} {problem : Problem} :
    problem? shortest longest name.toList = some problem ↔ AtFault shortest longest name ∧
      problem = if BeginsUppercase name then .badLength else .lowercaseStart := by
  rw [problem?, String.length_toList, AtFault]
  by_cases hstart : BeginsUppercase name
  · rw [if_neg (by simpa using beginsUppercase_iff.1 hstart), if_pos hstart,
      or_iff_right (not_not_intro hstart)]
    split
    · next h =>
      have hlength : name.length < shortest ∨ longest < name.length := by simpa using h
      rw [Option.some.injEq]
      exact ⟨fun h => ⟨hlength, h.symm⟩, fun h => h.2.symm⟩
    · next h => exact iff_of_false (by simp) fun hlength => h (by simpa using hlength.1)
  · rw [if_pos (by simpa using fun h => hstart (beginsUppercase_iff.2 h)), if_neg hstart,
      Option.some.injEq]
    exact ⟨fun h => ⟨.inl hstart, h.symm⟩, fun h => h.2.symm⟩

theorem isType_iff_mem {kind : NodeKind} :
    kind.isType = true ↔ kind ∈ [.protocol, .classType, .structType, .enumType] := by
  cases kind <;> decide

theorem isFinding_iff (unit : SourceUnit) (shortest longest : Nat) (node : Node) (v : Violation) :
    IsFinding unit shortest longest node v
      ↔ finding? unit.path unit.lines shortest longest node = some v := by
  rw [finding?_eq_some_iff, isType_iff_mem, IsFinding]
  refine and_congr_right fun _ => exists_congr fun name => ?_
  constructor
  · rintro ⟨position, hname, hfault, hposition, rfl⟩
    exact ⟨_, position, hname, problem?_eq_some_iff.2 ⟨hfault, rfl⟩, hposition, rfl⟩
  · rintro ⟨problem, position, hname, hproblem, hposition, hv⟩
    obtain ⟨hfault, hblamed⟩ := problem?_eq_some_iff.1 hproblem
    exact ⟨position, hname, hfault, hposition, hblamed ▸ hv⟩

end TypeName

namespace SourceUnit

/-- Tracked names are read off node by node. -/
theorem trackedNames_eq_filterMap (unit : SourceUnit) (kind : NodeKind) :
    unit.trackedNames kind
      = unit.tree.walk.filterMap fun node => if node.kind = kind then node.name else none := by
  rw [trackedNames, List.filterMap_filter]
  simp only [decide_eq_true_eq]

/-- **The structure tree is read in pre-order.**  Visiting the tree with a stack comes to an end and
gives the nodes in pre-order, a node first and then its children one after the other; every address
of the tree is come to once, in the order of addresses.  The tracked names of a kind are those of
the named nodes of that kind, and the findings on the names of types are those on the named
protocols, classes, structs and enums whose name is at fault and whose offset has a position: at any
depth, one for each address, in the order of addresses. -/
theorem traversal_exact (unit : SourceUnit) :
    (∀ nodes, Node.Visits [unit.tree] nodes ↔ nodes = unit.tree.preorder) ∧
    unit.tree.walk = unit.tree.preorder ∧
    (∀ node : Node, node.preorder = node :: node.children.flatMap Node.preorder) ∧
    (∀ nodes, unit.tree.Gathers Eq nodes ↔ nodes = unit.tree.preorder) ∧
    (∀ kind names, unit.tree.Gathers (fun node name => node.kind = kind ∧ node.name = some name)
      names ↔ names = unit.trackedNames kind) ∧
    ∀ settings, ∃ findings, TypeName.rule.validate unit settings = .ok findings ∧
      ∀ found, unit.tree.Gathers (TypeName.IsFinding unit (settings.options.count "min_length" 3)
        (settings.options.count "max_length" 40)) found ↔ found = findings := by
  refine ⟨fun nodes => ?_, unit.tree.walk_eq_preorder, Node.preorder_eq_flatMap, fun nodes => ?_,
    fun kind names => ?_, fun settings => ⟨_, rfl, fun found => ?_⟩⟩
  · rw [Node.visits_iff, Node.walk_eq_preorder]
  · rw [Node.gathers_iff (f := some) fun _ _ => Option.some_inj.symm, List.filterMap_some,
      Node.walk_eq_preorder]
  · rw [trackedNames_eq_filterMap]
    exact Node.gathers_iff fun node name => by simp
  · exact Node.gathers_iff (TypeName.isFinding_iff unit _ _)

end SourceUnit

end SwiftStyle
