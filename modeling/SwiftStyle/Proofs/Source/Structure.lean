import SwiftStyle.Source.Unit

/-!
# Proofs/Source/Structure — what a walk of a structure tree meets

The walk with a stack lists the tree in pre-order (`walk_eq_preorder`), hence it meets exactly the
nodes that the tree contains at any depth (`mem_walk_iff`), the first and then each child of a node
that is met (`walk_perm`).  `Declares` says of a unit that a node of a kind has a name;
`trackedNames` lists these names and no others.  Moving the offsets of a tree moves those of the
nodes that a walk meets (`walk_mapOffsets`).
-/

namespace SwiftStyle

/-- The kinds of nodes that declare something. -/
def NodeKind.declares : NodeKind → Bool
  | protocol | classType | structType | enumType | extension | function => true
  | _ => false

/-- Types are declared. -/
theorem NodeKind.declares_of_isType {kind : NodeKind} (h : kind.isType) : kind.declares := by
  cases kind <;> first | rfl | cases h

/-- What declares is of no kind that does not. -/
theorem NodeKind.ne_of_declares {kind kind' : NodeKind} (h : kind.declares)
    (h' : kind'.declares = false) : kind ≠ kind' := by
  rintro rfl
  simp [h'] at h

namespace Node

/-! ## The walk -/

theorem preorder_eq (node : Node) : node.preorder = node :: preorderAll node.children := by
  cases node
  rw [preorder, children]

theorem preorderAll_eq_flatMap (nodes : List Node) :
    preorderAll nodes = nodes.flatMap preorder := by
  induction nodes with
  | nil => rw [preorderAll, List.flatMap_nil]
  | cons node rest ih => rw [preorderAll, ih, List.flatMap_cons]

/-- **A tree in pre-order** is its first node and then its children in pre-order, one after the
other. -/
theorem preorder_eq_flatMap (node : Node) :
    node.preorder = node :: node.children.flatMap preorder := by
  rw [preorder_eq, preorderAll_eq_flatMap]

theorem preorderAll_append (a b : List Node) :
    preorderAll (a ++ b) = preorderAll a ++ preorderAll b := by
  simp only [preorderAll_eq_flatMap, List.flatMap_append]

theorem preorderAll_singleton (node : Node) :
    preorderAll [node] = node :: preorderAll node.children := by
  rw [preorderAll, preorderAll, List.append_nil, preorder_eq]

/-- **The stack holds what is still to be listed in pre-order.** -/
theorem walkFrom_eq (stack : List Node) : walkFrom stack = preorderAll stack := by
  induction stack using walkFrom.induct with
  | case1 => rw [walkFrom, preorderAll]
  | case2 node stack ih =>
    rw [walkFrom, ih, preorderAll_append, preorderAll, preorder_eq, List.cons_append]

/-- **A walk is the pre-order.** -/
theorem walk_eq_preorder (node : Node) : node.walk = node.preorder := by
  rw [walk, walkFrom_eq, preorderAll, preorderAll, List.append_nil]

/-- **A walk meets the first node, and every other one as a child**, once. -/
theorem walk_perm (node : Node) : node.walk.Perm (node :: node.walk.flatMap children) := by
  have hstack : ∀ stack : List Node,
      (walkFrom stack).Perm (stack ++ (walkFrom stack).flatMap children) := by
    intro stack
    induction stack using walkFrom.induct with
    | case1 => rw [walkFrom, List.flatMap_nil, List.nil_append]
    | case2 node stack ih =>
      rw [walkFrom, List.flatMap_cons, List.cons_append]
      refine (ih.trans ?_).cons node
      rw [List.append_assoc]
      exact List.perm_append_comm_assoc _ _ _
  exact hstack [node]

/-! ## Nodes at any depth -/

/-- A node is the other one or is nested in it, at any depth. -/
inductive Contains : Node → Node → Prop
  | here (node : Node) : Contains node node
  | nested {node child inner : Node} (hchild : child ∈ node.children)
      (h : Contains child inner) : Contains node inner

mutual

theorem Contains.of_mem_preorder : ∀ {node inner : Node}, inner ∈ node.preorder →
    node.Contains inner
  | mk kind name offset length children, inner, h => by
    rw [preorder] at h
    rcases List.mem_cons.1 h with rfl | h
    · exact .here _
    · obtain ⟨child, hchild, h⟩ := Contains.exists_of_mem_preorderAll h
      exact .nested hchild h

theorem Contains.exists_of_mem_preorderAll : ∀ {nodes : List Node} {inner : Node},
    inner ∈ preorderAll nodes → ∃ node ∈ nodes, node.Contains inner
  | [], inner, h => by simp [preorderAll] at h
  | node :: rest, inner, h => by
    rw [preorderAll] at h
    rcases List.mem_append.1 h with h | h
    · exact ⟨node, List.mem_cons_self, Contains.of_mem_preorder h⟩
    · obtain ⟨other, hother, h⟩ := Contains.exists_of_mem_preorderAll h
      exact ⟨other, List.mem_cons_of_mem node hother, h⟩

end

/-- **A walk meets exactly what the tree contains.** -/
theorem mem_walk_iff {node inner : Node} : inner ∈ node.walk ↔ node.Contains inner := by
  rw [walk_eq_preorder]
  refine ⟨Contains.of_mem_preorder, fun h => ?_⟩
  induction h with
  | here node =>
    rw [preorder_eq]
    exact List.mem_cons_self
  | nested hchild _ ih =>
    rw [preorder_eq_flatMap]
    exact List.mem_cons_of_mem _ (List.mem_flatMap.2 ⟨_, hchild, ih⟩)

theorem Contains.trans {node middle inner : Node} (h : node.Contains middle)
    (h' : middle.Contains inner) : node.Contains inner := by
  induction h with
  | here node => exact h'
  | nested hchild _ ih => exact .nested hchild (ih h')

/-- **No two declarations and no two arguments of a tree begin at the same byte**, and the first
node is no argument. -/
structure Distinct (tree : Node) : Prop where
  notArgument : tree.kind ≠ .argument
  arguments : ((tree.walk.filter (·.kind = .argument)).map offset).Nodup
  declarations : ((tree.walk.filter (·.kind.declares)).map offset).Nodup

/-! ## Moving offsets -/

mutual

/-- The tree with other offsets, each computed from the one before. -/
def mapOffsets (f : Nat → Nat) : Node → Node
  | mk kind name offset length children =>
      mk kind name (f offset) length (mapOffsetsAll f children)

/-- The trees with other offsets. -/
def mapOffsetsAll (f : Nat → Nat) : List Node → List Node
  | [] => []
  | node :: rest => node.mapOffsets f :: mapOffsetsAll f rest

end

section MapOffsets

variable (f : Nat → Nat) (node : Node)

@[simp] theorem kind_mapOffsets : (node.mapOffsets f).kind = node.kind := by
  cases node; rw [mapOffsets, kind, kind]

@[simp] theorem name_mapOffsets : (node.mapOffsets f).name = node.name := by
  cases node; rw [mapOffsets, name, name]

@[simp] theorem offset_mapOffsets : (node.mapOffsets f).offset = f node.offset := by
  cases node; rw [mapOffsets, offset, offset]

theorem mapOffsetsAll_eq (nodes : List Node) :
    mapOffsetsAll f nodes = nodes.map (mapOffsets f) := by
  induction nodes with
  | nil => rfl
  | cons node nodes ih => rw [mapOffsetsAll, ih, List.map_cons]

@[simp] theorem children_mapOffsets :
    (node.mapOffsets f).children = node.children.map (mapOffsets f) := by
  cases node; rw [mapOffsets, children, children, mapOffsetsAll_eq]

/-- **A walk meets the same nodes**, at their new offsets. -/
theorem walk_mapOffsets : (node.mapOffsets f).walk = node.walk.map (mapOffsets f) := by
  have hstack : ∀ stack : List Node,
      walkFrom (stack.map (mapOffsets f)) = (walkFrom stack).map (mapOffsets f) := by
    intro stack
    induction stack using walkFrom.induct with
    | case1 => rw [walkFrom, List.map_nil, walkFrom]
    | case2 node stack ih =>
      rw [walkFrom, List.map_cons, walkFrom, List.map_cons, children_mapOffsets, ← List.map_append,
        ih]
  exact hstack [node]

end MapOffsets

end Node

namespace SourceUnit

/-- Somewhere in the unit stands a node of a kind with a name. -/
def Declares (unit : SourceUnit) (kind : NodeKind) (name : String) : Prop :=
  ∃ node, unit.tree.Contains node ∧ node.kind = kind ∧ node.name = some name

/-- **Tracked names are the declared ones.** -/
theorem mem_trackedNames_iff {unit : SourceUnit} {kind : NodeKind} {name : String} :
    name ∈ unit.trackedNames kind ↔ unit.Declares kind name := by
  simp only [trackedNames, List.mem_filterMap, List.mem_filter, Node.mem_walk_iff,
    decide_eq_true_eq, Declares, and_assoc]

end SourceUnit

end SwiftStyle
