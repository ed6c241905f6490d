import Mathlib.Data.List.Forall2
import SwiftStyle.Proofs.Lists
import SwiftStyle.Proofs.Source.Structure

/-!
# Proofs/Source/Preorder — a walk comes to every node of a tree once, in order

A walk is one visit after the other of a stack whose top is at its end (`visits_iff`).  The address
of a node is the way to it by the numbers of children; nodes that look the same differ in it.  An
address comes before those below it, and what is below one child comes before what is below the
next: this is the lexicographic order of addresses.  In pre-order the addresses of a tree stand in
it (`increasing_located`), all of them and no others (`mem_located_iff`).  So what is read off a
walk is what the nodes give, each at its address, in the order of addresses (`gathers_iff`).
-/

namespace SwiftStyle.Node

/-! ## One visit after the other -/

/-- **One visit**: the node at the end of the stack is taken off, and its children are put onto the
stack from the last to the first.  An empty stack has nothing left to visit. -/
def visit? (stack : List Node) : Option (Node × List Node) :=
  stack.getLast?.map fun node => (node, stack.dropLast ++ node.children.reverse)

/-- The nodes that are visited one after the other until nothing is left. -/
inductive Visits : List Node → List Node → Prop
  | done {stack : List Node} (h : visit? stack = none) : Visits stack []
  | next {stack rest nodes : List Node} {node : Node} (h : visit? stack = some (node, rest))
      (hrest : Visits rest nodes) : Visits stack (node :: nodes)

theorem visit?_reverse_cons (node : Node) (stack : List Node) :
    visit? (node :: stack).reverse = some (node, (node.children ++ stack).reverse) := by
  simp [visit?]

/-- **Visiting comes to an end**, with the nodes of a walk. -/
theorem visits_walkFrom (stack : List Node) : Visits stack.reverse (walkFrom stack) := by
  induction stack using walkFrom.induct with
  | case1 =>
    rw [walkFrom]
    exact .done rfl
  | case2 node stack ih =>
    rw [walkFrom]
    exact .next (visit?_reverse_cons node stack) ih

theorem Visits.unique {stack nodes nodes' : List Node} (h : Visits stack nodes)
    (h' : Visits stack nodes') : nodes = nodes' := by
  induction h generalizing nodes' with
  | done hnone =>
    cases h' with
    | done => rfl
    | next hsome => cases hnone.symm.trans hsome
  | next hsome _ ih =>
    cases h' with
    | done hnone => cases hnone.symm.trans hsome
    | next hsome' hrest' =>
      obtain ⟨rfl, rfl⟩ := Prod.mk.inj (Option.some.inj (hsome.symm.trans hsome'))
      rw [ih hrest']

/-- **From one node on, the visits are a walk.** -/
theorem visits_iff {node : Node} {nodes : List Node} : Visits [node] nodes ↔ nodes = node.walk :=
  ⟨fun h => h.unique (visits_walkFrom [node]), fun h => h ▸ visits_walkFrom [node]⟩

/-! ## Addresses -/

/-- The node at an address of a tree. -/
def at? : Node → List Nat → Option Node
  | node, [] => some node
  | node, index :: address => node.children[index]?.bind (·.at? address)

mutual

/-- The nodes of a tree with their addresses, in pre-order. -/
def located : Node → List (List Nat × Node)
  | mk kind name offset length children =>
      ([], mk kind name offset length children) :: locatedAll 0 children

/-- The nodes of a list of trees with their addresses, in pre-order; the first of the trees is child
number `index`. -/
def locatedAll : Nat → List Node → List (List Nat × Node)
  | _, [] => []
  | index, node :: rest =>
      node.located.map (fun entry => (index :: entry.1, entry.2)) ++ locatedAll (index + 1) rest

end

theorem located_eq (node : Node) : node.located = ([], node) :: locatedAll 0 node.children := by
  cases node
  rw [located, children]

mutual

theorem map_snd_located : ∀ node : Node, node.located.map Prod.snd = node.preorder
  | mk kind name offset length children => by
    rw [located, preorder, List.map_cons, map_snd_locatedAll 0 children]

theorem map_snd_locatedAll : ∀ (index : Nat) (nodes : List Node),
    (locatedAll index nodes).map Prod.snd = preorderAll nodes
  | _, [] => rfl
  | index, node :: rest => by
    rw [locatedAll, preorderAll, List.map_append, map_snd_locatedAll (index + 1) rest, List.map_map,
      ← map_snd_located node]
    rfl

end

/-- An address in a list of trees leads to one of the trees, and goes on inside it. -/
theorem mem_locatedAll_iff {index : Nat} {nodes : List Node} {address : List Nat} {inner : Node} :
    (address, inner) ∈ locatedAll index nodes ↔ ∃ i rest node, address = (index + i) :: rest ∧
      nodes[i]? = some node ∧ (rest, inner) ∈ node.located := by
  induction nodes generalizing index with
  | nil => simp [locatedAll]
  | cons first nodes ih =>
    rw [locatedAll, List.mem_append, ih]
    constructor
    · rintro (hfirst | ⟨i, rest, node, rfl, hnode, hrest⟩)
      · obtain ⟨⟨rest, _⟩, hrest, he⟩ := List.mem_map.1 hfirst
        obtain ⟨rfl, rfl⟩ := Prod.mk.inj he
        exact ⟨0, rest, first, rfl, rfl, hrest⟩
      · exact ⟨i + 1, rest, node, by rw [Nat.add_assoc, Nat.add_comm 1], hnode, hrest⟩
    · rintro ⟨i, rest, node, rfl, hnode, hrest⟩
      cases i with
      | zero =>
        obtain rfl := Option.some.inj hnode
        exact .inl (List.mem_map.2 ⟨(rest, inner), hrest, rfl⟩)
      | succ i => exact .inr ⟨i, rest, node, by rw [Nat.add_assoc, Nat.add_comm 1], hnode, hrest⟩

/-- **The listed addresses are the addresses of the tree**, each with its node. -/
theorem mem_located_iff {node inner : Node} {address : List Nat} :
    (address, inner) ∈ node.located ↔ node.at? address = some inner := by
  induction address generalizing node with
  | nil =>
    rw [located_eq, List.mem_cons, mem_locatedAll_iff, at?]
    simp [eq_comm]
  | cons index address ih =>
    rw [located_eq, List.mem_cons, mem_locatedAll_iff, at?, Option.bind_eq_some_iff]
    simp [ih]

mutual

/-- **In pre-order, addresses are strictly increasing.** -/
theorem increasing_located : ∀ node : Node, Increasing (node.located.map Prod.fst)
  | mk kind name offset length children => by
    rw [located, List.map_cons]
    refine List.pairwise_cons.2 ⟨fun address haddress => ?_, increasing_locatedAll 0 children⟩
    obtain ⟨⟨_, inner⟩, hmem, rfl⟩ := List.mem_map.1 haddress
    obtain ⟨i, rest, _, rfl, _⟩ := mem_locatedAll_iff.1 hmem
    rfl

theorem increasing_locatedAll : ∀ (index : Nat) (nodes : List Node),
    Increasing ((locatedAll index nodes).map Prod.fst)
  | _, [] => .nil
  | index, node :: nodes => by
    rw [locatedAll, List.map_append, List.map_map]
    refine List.pairwise_append.2 ⟨?_, increasing_locatedAll (index + 1) nodes, ?_⟩
    · -- below one child, addresses are in the order in which they go on
      have hbelow := List.pairwise_map.1 (increasing_located node)
      refine List.pairwise_map.2 (hbelow.imp fun {a b} hab => ?_)
      change compare (index :: a.1) (index :: b.1) = .lt
      rw [List.compare_cons_cons, Nat.compare_eq_eq.2 rfl]
      exact hab
    · rintro address haddress address' haddress'
      obtain ⟨_, _, rfl⟩ := List.mem_map.1 haddress
      obtain ⟨⟨_, inner⟩, hmem, rfl⟩ := List.mem_map.1 haddress'
      obtain ⟨i, rest, _, rfl, _⟩ := mem_locatedAll_iff.1 hmem
      change compare (index :: _) ((index + 1 + i) :: rest) = .lt
      rw [List.compare_cons_cons, Nat.compare_eq_lt.2 (by omega)]
      rfl

end

/-! ## What is gathered from a tree -/

section Gathers

variable {β : Type}

/-- The node at an address gives a result. -/
def GivesAt (tree : Node) (gives : Node → β → Prop) (address : List Nat) (result : β) : Prop :=
  ∃ node, tree.at? address = some node ∧ gives node result

/-- **Results and their addresses**: all addresses where a node gives a result, in strictly
increasing order, and for each of them the result that is given there. -/
structure GathersAt (tree : Node) (gives : Node → β → Prop) (addresses : List (List Nat))
    (results : List β) : Prop where
  increasing : Increasing addresses
  mem_iff : ∀ address, address ∈ addresses ↔ ∃ result, tree.GivesAt gives address result
  given : List.Forall₂ (tree.GivesAt gives) addresses results

/-- **What the nodes of a tree give, in pre-order.** -/
def Gathers (tree : Node) (gives : Node → β → Prop) (results : List β) : Prop :=
  ∃ addresses, tree.GathersAt gives addresses results

variable {tree : Node} {gives : Node → β → Prop}

/-- When a node gives one result, one list is gathered. -/
theorem Gathers.unique (hgives : Relator.RightUnique gives) {results results' : List β}
    (h : tree.Gathers gives results) (h' : tree.Gathers gives results') : results = results' := by
  obtain ⟨addresses, h⟩ := h
  obtain ⟨addresses', h'⟩ := h'
  obtain rfl : addresses = addresses' :=
    h.increasing.eq_of_mem_iff h'.increasing fun address => (h.mem_iff address).trans
      (h'.mem_iff address).symm
  refine List.right_unique_forall₂' ?_ h.given h'.given
  rintro address a b ⟨node, hnode, ha⟩ ⟨node', hnode', hb⟩
  obtain rfl := Option.some.inj (hnode.symm.trans hnode')
  exact hgives ha hb

/-- Results that are read off nodes, beside the addresses of these nodes. -/
theorem forall₂_filterMap {f : Node → Option β} (hgives : ∀ node b, gives node b ↔ f node = some b)
    {entries : List (List Nat × Node)}
    (hentries : ∀ entry ∈ entries, tree.at? entry.1 = some entry.2) :
    List.Forall₂ (tree.GivesAt gives)
      ((entries.filter fun entry => (f entry.2).isSome).map Prod.fst)
      ((entries.map Prod.snd).filterMap f) := by
  induction entries with
  | nil => exact .nil
  | cons entry entries ih =>
    obtain ⟨hentry, hentries⟩ := List.forall_mem_cons.1 hentries
    rw [List.map_cons]
    cases hf : f entry.2 with
    | none =>
      rw [List.filter_cons_of_neg (by simp [hf]), List.filterMap_cons_none hf]
      exact ih hentries
    | some b =>
      rw [List.filter_cons_of_pos (by simp [hf]), List.filterMap_cons_some hf, List.map_cons]
      exact .cons ⟨entry.2, hentry, (hgives entry.2 b).2 hf⟩ (ih hentries)

/-- **What is read off a walk is what is gathered from the tree.** -/
theorem gathers_iff {f : Node → Option β} (hgives : ∀ node b, gives node b ↔ f node = some b)
    {results : List β} : tree.Gathers gives results ↔ results = tree.walk.filterMap f := by
  have hwalk : tree.Gathers gives (tree.walk.filterMap f) := by
    rw [walk_eq_preorder, ← map_snd_located]
    refine ⟨(tree.located.filter fun entry => (f entry.2).isSome).map Prod.fst, ?_, ?_, ?_⟩
    · exact (increasing_located tree).sublist (List.filter_sublist.map Prod.fst)
    · intro address
      simp only [List.mem_map, List.mem_filter, Option.isSome_iff_exists, ← hgives]
      constructor
      · rintro ⟨⟨address, node⟩, ⟨hmem, b, hb⟩, rfl⟩
        exact ⟨b, node, mem_located_iff.1 hmem, hb⟩
      · rintro ⟨b, node, hnode, hb⟩
        exact ⟨(address, node), ⟨mem_located_iff.2 hnode, b, hb⟩, rfl⟩
    · exact forall₂_filterMap hgives fun _ hentry => mem_located_iff.1 hentry
  refine ⟨fun h => h.unique (fun node _ _ ha hb => ?_) hwalk, fun h => h ▸ hwalk⟩
  exact Option.some.inj (((hgives node _).1 ha).symm.trans ((hgives node _).1 hb))

end Gathers

end SwiftStyle.Node
