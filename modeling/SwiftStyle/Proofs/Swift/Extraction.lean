import Mathlib.Data.List.Forall2
import Mathlib.Data.List.Perm.Basic
import SwiftStyle.Proofs.Swift.Grammar

/-!
# Proofs/Swift/Extraction — no declaration and no call is lost or doubled

Whatever a phrase is nested in, a callee, an argument, a closure or an attribute, it is met once.
So the nodes of a parse tree that declare, and those that call, match its declarations and its calls
one for one (`ParseTree.extraction_exact`).  Calls put their arguments before the other parts of the
suffix; where arguments stand first in the text as well, the nodes come in the order of the text.

The engine is `Matched`, a one-to-one match of listed phrases with listed nodes that survives
putting lists together (`Matched.append`) and moving a list of arguments to the front of its suffix
(`Matched.move`).
-/

namespace SwiftStyle.Swift

namespace ParseTree

/-! ## Matching phrases with nodes -/

/-- **The phrases that count match the nodes that count**, one for one: in some order, and in the
order in which they are listed if `ordered`. -/
inductive Matched (counts : ParseTree → Bool) (counts' : Node → Bool)
    (R : ParseTree → Node → Prop) (ordered : Prop) (trees : List ParseTree) (nodes : List Node) :
    Prop
  | intro (picked : List ParseTree) (perm : picked.Perm (trees.filter counts))
      (eq : ordered → picked = trees.filter counts)
      (match_ : List.Forall₂ R picked (nodes.filter counts'))

namespace Matched

variable {counts : ParseTree → Bool} {counts' : Node → Bool} {R : ParseTree → Node → Prop}
  {ordered : Prop} {trees trees' between : List ParseTree} {nodes nodes' nodes'' : List Node}

theorem nil : Matched counts counts' R ordered [] [] := ⟨[], .nil, fun _ => rfl, .nil⟩

theorem append (h : Matched counts counts' R ordered trees nodes)
    (h' : Matched counts counts' R ordered trees' nodes') :
    Matched counts counts' R ordered (trees ++ trees') (nodes ++ nodes') := by
  obtain ⟨picked, hperm, heq, hR⟩ := h
  obtain ⟨picked', hperm', heq', hR'⟩ := h'
  refine ⟨picked ++ picked', ?_, fun ho => ?_, ?_⟩
  · rw [List.filter_append]
    exact hperm.append hperm'
  · rw [List.filter_append, heq ho, heq' ho]
  · rw [List.filter_append]
    exact List.rel_append hR hR'

/-- A phrase that counts for nothing may be put in front. -/
theorem skip {t : ParseTree} (ht : counts t = false)
    (h : Matched counts counts' R ordered trees nodes) :
    Matched counts counts' R ordered (t :: trees) nodes := by
  obtain ⟨picked, hperm, heq, hmatch⟩ := h
  have hfilter : (t :: trees).filter counts = trees.filter counts :=
    List.filter_cons_of_neg (by simp [ht])
  exact ⟨picked, hfilter ▸ hperm, hfilter ▸ heq, hmatch⟩

/-- A node that counts for nothing may be put in front. -/
theorem skipNode {node : Node} (hnode : counts' node = false)
    (h : Matched counts counts' R ordered trees nodes) :
    Matched counts counts' R ordered trees (node :: nodes) := by
  obtain ⟨picked, hperm, heq, hmatch⟩ := h
  refine ⟨picked, hperm, heq, ?_⟩
  rwa [List.filter_cons_of_neg (by simp [hnode])]

/-- A phrase and its node are put in front: they match, or neither counts. -/
theorem cons {t : ParseTree} {node : Node} (ht : counts t = counts' node)
    (hR : counts t = true → R t node) (h : Matched counts counts' R ordered trees nodes) :
    Matched counts counts' R ordered (t :: trees) (node :: nodes) := by
  obtain ⟨picked, hperm, heq, hmatch⟩ := h
  cases hcounts : counts t with
  | false =>
    refine skip hcounts ⟨picked, hperm, heq, ?_⟩
    rwa [List.filter_cons_of_neg (by simp [← ht, hcounts])]
  | true =>
    refine ⟨t :: picked, ?_, fun ho => ?_, ?_⟩
    · rw [List.filter_cons_of_pos hcounts]
      exact hperm.cons t
    · rw [List.filter_cons_of_pos hcounts, heq ho]
    · rw [List.filter_cons_of_pos (ht ▸ hcounts)]
      exact .cons (hR hcounts) hmatch

/-- **Nodes may be moved to the front** of those of phrases before them; they stay in order if
these do not count. -/
theorem move (hbetween : Matched counts counts' R ordered between nodes')
    (h : Matched counts counts' R ordered trees nodes)
    (h' : Matched counts counts' R ordered trees' nodes'')
    (hnone : ordered → between.filter counts = []) :
    Matched counts counts' R ordered (between ++ (trees ++ trees'))
      (nodes ++ (nodes' ++ nodes'')) := by
  obtain ⟨picked, hperm, heq, hR⟩ := h.append (hbetween.append h')
  have hswap : (trees ++ (between ++ trees')).Perm (between ++ (trees ++ trees')) :=
    List.perm_append_comm_assoc _ _ _
  refine ⟨picked, hperm.trans (hswap.filter _), fun ho => ?_, hR⟩
  rw [heq ho]
  simp [hnone ho]

end Matched

/-! ## Phrases and their nodes -/

/-- What a match of phrases with nodes rests on, for one phrase: a declaration and a call match
their nodes, and nothing else counts. -/
structure Matches (counts : ParseTree → Bool) (counts' : Node → Bool)
    (R : ParseTree → Node → Prop) (contents : List Char) (t : ParseTree) : Prop where
  declaration : ∀ kind, t.nodeKind? = some kind →
    counts t = counts' (declarationNode contents kind t) ∧
      (counts t = true → R t (declarationNode contents kind t))
  call : ∀ c, t.callParts? = some c →
    counts t = counts' (callNode contents t c) ∧ (counts t = true → R t (callNode contents t c))
  other : t.nodeKind? = none → t.callParts? = none → counts t = false
  argument : counts' (argumentNode contents t) = false

section Engine

variable {counts : ParseTree → Bool} {counts' : Node → Bool} {R : ParseTree → Node → Prop}
  {ordered : Prop} {contents : List Char}

/-- A phrase that is neither a declaration nor a call expression does not count. -/
theorem Matches.counts_eq_false {t : ParseTree} {kind : PhraseKind}
    (h : Matches counts counts' R contents t) (ht : t.isOf kind)
    (hkind : kind = .callSuffix ∨ kind = .valueArguments ∨ kind = .valueArgument ∨ kind = .other) :
    counts t = false := by
  have ht := isOf_iff.1 ht
  refine h.other ?_ (callParts?_of_kind?_ne ?_)
  · rcases hkind with rfl | rfl | rfl | rfl <;> rw [nodeKind?, ht]
  · rcases hkind with rfl | rfl | rfl | rfl <;> simp [ht]

/-- Phrases match their nodes one after the other. -/
theorem matched_nodesAll {l : List ParseTree}
    (h : ∀ t ∈ l, Matched counts counts' R ordered t.preorder
      (Node.preorderAll (nodes contents t))) :
    Matched counts counts' R ordered (preorderAll l)
      (Node.preorderAll (nodesAll contents l)) := by
  induction l with
  | nil => simpa [Node.preorderAll] using Matched.nil
  | cons t l ih =>
    rw [preorderAll_cons, nodesAll_cons, Node.preorderAll_append]
    exact (h t List.mem_cons_self).append (ih fun s hs => h s (List.mem_cons_of_mem _ hs))

variable (hmatches : ∀ t, Matches counts counts' R contents t)
include hmatches

/-- The phrases of a list of arguments match their nodes, if what is in an argument does. -/
theorem matched_argumentNodes {l : List ParseTree}
    (h : ∀ t ∈ l, Matched counts counts' R ordered t.preorder
      (Node.preorderAll (nodes contents t)))
    (hinside : ∀ t ∈ l, Matched counts counts' R ordered (preorderAll t.phrases)
      (Node.preorderAll (nodesAll contents t.phrases))) :
    Matched counts counts' R ordered (preorderAll l)
      (Node.preorderAll (argumentNodes contents l)) := by
  induction l with
  | nil => simpa [Node.preorderAll, argumentNodes] using Matched.nil
  | cons t l ih =>
    rw [List.forall_mem_cons] at h hinside
    rw [preorderAll_cons, argumentNodes, Node.preorderAll_append]
    refine Matched.append ?_ (ih h.2 hinside.2)
    split
    · next hkind =>
      have hcounts := (hmatches t).counts_eq_false hkind (.inr (.inr (.inl rfl)))
      have hchildren : (argumentNode contents t).children = nodesAll contents t.phrases := by
        rw [argumentNode]
        rfl
      rw [preorder_eq_of_isOf hkind, Node.preorderAll_singleton, hchildren]
      exact .cons (hcounts.trans (hmatches t).argument.symm) (fun hc => by simp [hcounts] at hc)
        hinside.1
    · exact h.1

/-- **The phrases of a tree match its nodes.** -/
theorem matched_nodes {t : ParseTree} (h : ordered → ∀ s ∈ t.preorder, s.SuffixInOrder) :
    Matched counts counts' R ordered t.preorder (Node.preorderAll (nodes contents t)) := by
  induction t using reading with
  | declaration t kind hkind ih =>
    have ih := matched_nodesAll fun p hp => ih p hp fun ho s hs =>
      h ho s (mem_preorder_of_mem_phrases hp hs)
    obtain ⟨hcounts, hR⟩ := (hmatches t).declaration kind hkind
    rw [nodes_of_nodeKind? hkind, preorder_eq (isPhrase_of_nodeKind? hkind),
      Node.preorderAll_singleton]
    exact .cons hcounts hR ih
  | call t c hcall ihCallee ihList ihInside ihOthers =>
    obtain ⟨suffix, before, after, hsuffix, hlist, hphrases, hbefore, hothers, hpreorder⟩ :=
      preorder_of_callParts? hcall
    have hinner : ∀ p, p ∈ c.callee ∨ p ∈ c.list.phrases ∨ p ∈ c.others →
        ordered → ∀ s ∈ p.preorder, s.SuffixInOrder := fun p hp ho s hs =>
      h ho s (mem_preorder_trans (mem_preorder_of_mem_callParts? hcall hp) hs)
    have hcallee := matched_nodesAll fun p hp => ihCallee p hp (hinner p (.inl hp))
    have hothers' := fun p hp => ihOthers p hp (hinner p (.inr (.inr hp)))
    rw [hothers] at hothers'
    have hbetween := matched_nodesAll fun p hp => hothers' p (List.mem_append_left _ hp)
    have hafter := matched_nodesAll fun p hp => hothers' p (List.mem_append_right _ hp)
    have harguments := matched_argumentNodes hmatches
      (fun p hp => ihList p hp (hinner p (.inr (.inl hp))))
      fun p hp => matched_nodesAll fun q hq => ihInside p hp q hq fun ho s hs =>
        hinner p (.inr (.inl hp)) ho s (mem_preorder_of_mem_phrases hq hs)
    -- in order, what stands before the list is of no account
    have hnone : ordered → (preorderAll before).filter counts = [] := fun ho =>
      List.filter_eq_nil_iff.2 fun p hp => by
        have hmem : suffix ∈ t.preorder := by simp [hpreorder]
        have hother := h ho suffix hmem hsuffix before c.list after hphrases hlist hbefore p hp
        simp [(hmatches p).counts_eq_false hother (.inr (.inr (.inr rfl)))]
    obtain ⟨hcounts, hR⟩ := (hmatches t).call c hcall
    have hsuffix := (hmatches suffix).counts_eq_false hsuffix (.inl rfl)
    have hlist := (hmatches c.list).counts_eq_false hlist (.inr (.inl rfl))
    rw [nodes_of_callParts? hcall, Node.preorderAll_singleton, hpreorder]
    refine .cons hcounts hR ?_
    simp only [callNode, Node.children, CallParts.nodes, hothers, nodesAll_append,
      Node.preorderAll_append, List.append_assoc, List.cons_append]
    exact hcallee.append (.skip hsuffix (hbetween.move (.skip hlist harguments) hafter hnone))
  | transparent t hkind hcall ih =>
    have ih := matched_nodesAll fun p hp => ih p hp fun ho s hs =>
      h ho s (mem_preorder_of_mem_phrases hp hs)
    rw [nodes_of_none hkind hcall]
    cases t with
    | token role text span => exact ih
    | phrase role kind span parts =>
      rw [preorder_eq rfl]
      exact ih.skip ((hmatches _).other hkind hcall)

end Engine

/-! ## Declarations -/

/-- **A node stands for a declaration**: it has the name of the declaration, and, as the grammar
gives every declaration a keyword, the kind that the keyword introduces and its place. -/
structure Declares (contents : List Char) (t : ParseTree) (node : Node) : Prop where
  name : node.name = t.name? contents
  keyword : t.Keyworded → ∃ keyword, t.keyword? = some keyword ∧
    t.introduces? keyword = some node.kind ∧ node.offset = keyword.span.start

/-- Declarations match the nodes that declare. -/
theorem matches_declaration {contents : List Char} (t : ParseTree) :
    Matches isDeclaration (fun node => node.kind.declares) (Declares contents) contents t where
  declaration kind hkind := by
    rw [isDeclaration_iff.2 (hkind ▸ rfl)]
    exact ⟨(declares_of_nodeKind? hkind).symm, fun _ => ⟨rfl, fun ht => ht.exists_keyword hkind⟩⟩
  call c hcall := by
    have hnone := isDeclaration_eq_false (nodeKind?_of_callParts? hcall)
    simp [hnone, callNode, Node.kind, NodeKind.declares]
  other hkind _ := isDeclaration_eq_false hkind
  argument := by rw [argumentNode]; rfl

/-! ## Calls -/

/-- A call expression with a list of arguments in parentheses: the list is the first in the
suffix. -/
structure HasArguments (t list : ParseTree) : Prop where
  kind : t.kind? = some .callExpression
  parts : ∃ callee suffix before after, t.phrases = callee ++ [suffix] ∧
    suffix.kind? = some .callSuffix ∧ suffix.phrases = before ++ list :: after ∧
    (∀ p ∈ before, p.kind? ≠ some .valueArguments) ∧ list.kind? = some .valueArguments
  opening : ∃ role span rest, list.parts = .token role "(" span :: rest

/-- **Calls are what is taken apart.** -/
theorem hasArguments_iff {t list : ParseTree} :
    t.HasArguments list ↔ ∃ c, t.callParts? = some c ∧ c.list = list := by
  constructor
  · rintro ⟨hkind, hparts, hopening⟩
    obtain ⟨callee, suffix, before, after, hphrases, hsuffix, hparts, hbefore, hlist⟩ := hparts
    have hfind : suffix.phrases.find? (·.isOf .valueArguments) = some list :=
      List.find?_eq_some_iff_append.2 ⟨isOf_iff.2 hlist, before, after, hparts, fun p hp => by
        simpa [isOf] using hbefore p hp⟩
    have hcall : (suffix.isSuffixOf t && list.isParenthesised) = true := by
      simp [isSuffixOf, hkind, hsuffix, isParenthesised_iff.2 hopening]
    rw [callParts?, hphrases, List.getLast?_concat]
    simp only [Option.bind_eq_bind, Option.bind_some, hfind, hcall, if_true]
    exact ⟨_, rfl, rfl⟩
  · rintro ⟨c, hc, rfl⟩
    obtain ⟨suffix, before, after, hphrases, hsuffix, _, hcall, hbefore, hlist, hopening⟩ :=
      callParts?_eq_some hc
    obtain ⟨ht, hkind⟩ := Bool.and_eq_true_iff.1 hcall
    exact ⟨isOf_iff.1 ht, ⟨c.callee, suffix, before, after, hphrases, isOf_iff.1 hkind, hsuffix,
      fun p hp => by simpa [isOf] using hbefore p hp, isOf_iff.1 hlist⟩,
      isParenthesised_iff.1 hopening⟩

/-- Whether a phrase is a call expression with a list of arguments in parentheses. -/
def IsCall (t : ParseTree) : Prop := ∃ list, t.HasArguments list

theorem isCall_iff {t : ParseTree} : t.IsCall ↔ t.callParts?.isSome := by
  simp only [IsCall, hasArguments_iff, Option.isSome_iff_exists]
  exact ⟨fun ⟨_, c, hc, _⟩ => ⟨c, hc⟩, fun ⟨c, hc⟩ => ⟨_, c, hc, rfl⟩⟩

instance : DecidablePred IsCall := fun _ => decidable_of_iff _ isCall_iff.symm

/-- **A node stands for a call**: it lies at the list of arguments, and its arguments are the value
arguments of the list in their order, each with its label and its place. -/
structure Calls (contents : List Char) (t : ParseTree) (node : Node) : Prop where
  list : ∃ list, t.HasArguments list ∧ node.offset = list.span.start ∧
    List.Forall₂ (fun (a : ParseTree) (argument : Node) => argument.name = a.name? contents ∧
        argument.offset = a.span.start ∧ argument.length = a.span.stop - a.span.start)
      (list.phrases.filter (·.isOf .valueArgument)) (node.children.filter (·.kind = .argument))

/-- **A call is read off its parts.** -/
theorem calls_callNode {contents : List Char} {t : ParseTree} {c : CallParts}
    (h : t.callParts? = some c) : Calls contents t (callNode contents t c) := by
  refine ⟨c.list, hasArguments_iff.2 ⟨c, h, rfl⟩, rfl, ?_⟩
  rw [filter_argument_callNode, List.forall₂_map_right_iff, List.forall₂_same]
  intro a _
  rw [argumentNode]
  exact ⟨rfl, rfl, rfl⟩

/-- A declaration is no call. -/
theorem callParts?_of_nodeKind? {t : ParseTree} {kind : NodeKind} (h : t.nodeKind? = some kind) :
    t.callParts? = none :=
  Option.eq_none_iff_forall_ne_some.2 fun c hc => by simp [nodeKind?_of_callParts? hc] at h

/-- Calls match the nodes that call. -/
theorem matches_call {contents : List Char} (t : ParseTree) :
    Matches (fun t => decide t.IsCall) (fun node => decide (node.kind = .call)) (Calls contents)
      contents t where
  declaration kind hkind := by
    have hcall := callParts?_of_nodeKind? hkind
    have hne : kind ≠ .call := NodeKind.ne_of_declares (declares_of_nodeKind? hkind) rfl
    simp [isCall_iff, hcall, declarationNode, Node.kind, hne]
  call c hcall := ⟨by simp [isCall_iff, hcall, callNode, Node.kind], fun _ => calls_callNode hcall⟩
  other _ hcall := by simp [isCall_iff, hcall]
  argument := by rw [argumentNode]; rfl

/-! ## Names -/

/-- The kind of node that the keyword of a declaration introduces. -/
def declared? (t : ParseTree) : Option NodeKind := t.keyword?.bind t.introduces?

/-- The names of the declarations of a kind, in the order in which they are listed. -/
def declaredNames (contents : List Char) (kind : NodeKind) (trees : List ParseTree) : List String :=
  (trees.filter (·.declared? = some kind)).filterMap (·.name? contents)

theorem isDeclaration_of_declared? {t : ParseTree} {kind : NodeKind}
    (h : t.declared? = some kind) : t.isDeclaration := by
  obtain ⟨keyword, hkeyword, _⟩ := Option.bind_eq_some_iff.1 h
  obtain ⟨word, kind, _, hmem, _⟩ := exists_of_mem_keyword? hkeyword
  rw [isDeclaration, Bool.not_eq_true', List.isEmpty_eq_false_iff]
  exact List.ne_nil_of_mem hmem

/-- Only declarations have names that count. -/
theorem declaredNames_filter (contents : List Char) (kind : NodeKind) (trees : List ParseTree) :
    declaredNames contents kind (trees.filter isDeclaration)
      = declaredNames contents kind trees := by
  rw [declaredNames, List.filter_filter, declaredNames]
  congr 2
  funext t
  by_cases h : t.declared? = some kind
  · simp [h, isDeclaration_of_declared? h]
  · simp [h]

theorem names_eq_of_declares {contents : List Char} {trees : List ParseTree} {nodes : List Node}
    (h : List.Forall₂ (Declares contents) trees nodes) (hkeywords : ∀ t ∈ trees, t.Keyworded)
    (kind : NodeKind) :
    (nodes.filter (·.kind = kind)).filterMap Node.name = declaredNames contents kind trees := by
  induction h with
  | nil => rfl
  | @cons t node trees nodes hnode _ ih =>
    rw [List.forall_mem_cons] at hkeywords
    obtain ⟨keyword, hkeyword, hkind, _⟩ := hnode.keyword hkeywords.1
    have ih := ih hkeywords.2
    have hdeclared : t.declared? = some node.kind := by
      rw [declared?, hkeyword, Option.bind_some, hkind]
    rw [declaredNames, List.filter_cons, List.filter_cons]
    by_cases hk : node.kind = kind
    · simp only [hdeclared, hk, decide_true, if_true, List.filterMap_cons, hnode.name, ih,
        declaredNames]
    · have hne : t.declared? ≠ some kind := by simpa [hdeclared] using hk
      simp only [hk, hne, decide_false, Bool.false_eq_true, if_false, ih, declaredNames]

/-- Names of a kind are those of the declarations of the kind. -/
theorem trackedNames_eq {unit : SourceUnit} {kind : NodeKind} (hkind : kind.declares) :
    unit.trackedNames kind
      = ((unit.tree.walk.filter (·.kind.declares)).filter (·.kind = kind)).filterMap Node.name := by
  rw [SourceUnit.trackedNames, List.filter_filter]
  congr 2
  funext node
  by_cases h : node.kind = kind <;> simp [h, hkind]

/-- **Where declarations match, names of nodes are names of declarations.** -/
theorem Matched.trackedNames {ordered : Prop} {trees : List ParseTree} (unit : SourceUnit)
    (h : Matched isDeclaration (fun node => node.kind.declares) (Declares unit.contents.toList)
      ordered trees unit.tree.walk) (hkeywords : ∀ t ∈ trees, t.Keyworded) {kind : NodeKind}
    (hkind : kind.declares) :
    (unit.trackedNames kind).Perm (declaredNames unit.contents.toList kind trees) ∧
      (ordered → unit.trackedNames kind = declaredNames unit.contents.toList kind trees) := by
  obtain ⟨picked, hperm, heq, hmatch⟩ := h
  have hkeywords : ∀ t ∈ picked, t.Keyworded := fun t ht =>
    hkeywords t (List.mem_filter.1 (hperm.mem_iff.1 ht)).1
  rw [trackedNames_eq hkind, names_eq_of_declares hmatch hkeywords,
    ← declaredNames_filter _ _ trees]
  exact ⟨(hperm.filter _).filterMap _, fun ho => by rw [heq ho]⟩

/-! ## All in all -/

/-- The phrases of a tree match the nodes of a whole file. -/
theorem matched_fileRoot {counts : ParseTree → Bool} {counts' : Node → Bool}
    {R : ParseTree → Node → Prop} {contents : List Char} (length : Nat) (root : ParseTree)
    (hroot : ∀ node : Node, node.kind = .file → counts' node = false)
    (hmatches : ∀ t, Matches counts counts' R contents t) :
    Matched counts counts' R (∀ t ∈ preorderAll root.phrases, t.SuffixInOrder)
      (preorderAll root.phrases)
      (Node.fileRoot length (nodesAll contents root.phrases)).walk := by
  rw [Node.walk_eq_preorder, Node.preorder_eq]
  exact .skipNode (hroot _ rfl) (matched_nodesAll fun p hp => matched_nodes hmatches
    fun ho s hs => ho s (mem_preorderAll.2 ⟨p, hp, hs⟩))

/-- Declarations match the nodes of a whole file. -/
theorem matched_declarations (contents : List Char) (length : Nat) (root : ParseTree) :
    Matched isDeclaration (fun node => node.kind.declares) (Declares contents)
      (∀ t ∈ preorderAll root.phrases, t.SuffixInOrder) (preorderAll root.phrases)
      (Node.fileRoot length (nodesAll contents root.phrases)).walk :=
  matched_fileRoot length root (fun node hkind => by simp [hkind, NodeKind.declares])
    matches_declaration

/-- **No declaration and no call is lost or doubled.**  In any parse tree the declarations match the
nodes that declare, one for one, and the calls with arguments match the nodes that call; nodes come
in the order of the phrases, if arguments come first in the suffixes of calls.  So, every
declaration having a keyword, the names of a kind are those of the declarations of the kind, each as
often as it is declared.  The parse tree of a Swift text is such a tree, in order. -/
theorem extraction_exact (path : Option Path) (contents : String) (root : ParseTree) :
    let trees := preorderAll root.phrases
    let ordered := ∀ t ∈ trees, t.SuffixInOrder
    let tree := Node.fileRoot contents.utf8ByteSize (nodesAll contents.toList root.phrases)
    let unit : SourceUnit := ⟨path, contents, tree⟩
    Matched isDeclaration (fun node => node.kind.declares) (Declares contents.toList) ordered trees
        tree.walk ∧
      Matched (fun t => decide t.IsCall) (fun node => decide (node.kind = .call))
        (Calls contents.toList) ordered trees tree.walk ∧
      ((∀ t ∈ trees, t.Keyworded) → ∀ kind : NodeKind, kind.declares →
        (unit.trackedNames kind).Perm (declaredNames contents.toList kind trees) ∧
          (ordered → unit.trackedNames kind = declaredNames contents.toList kind trees)) ∧
      (∀ t ∈ preorderAll (parseTree contents).phrases, t.Keyworded ∧ t.SuffixInOrder) ∧
      ∀ kind : NodeKind, kind.declares →
        SourceUnit.trackedNames ⟨path, contents, structureOf contents⟩ kind
          = declaredNames contents.toList kind (preorderAll (parseTree contents).phrases) := by
  intro trees ordered tree unit
  have hgrammar := grammatical_parseTree contents
  refine ⟨matched_declarations _ _ root, ?_, fun hkeywords kind hkind => ?_,
    fun t ht => ⟨(hgrammar t ht).keyworded, (hgrammar t ht).suffixInOrder⟩, fun kind hkind => ?_⟩
  · exact matched_fileRoot _ root (fun node hkind => by simp [hkind]) matches_call
  · exact (matched_declarations _ _ root).trackedNames unit hkeywords hkind
  · exact ((matched_declarations _ _ (parseTree contents)).trackedNames
      ⟨path, contents, structureOf contents⟩ (fun t ht => (hgrammar t ht).keyworded) hkind).2
      fun t ht => (hgrammar t ht).suffixInOrder

/-- A class in a closure in an argument is found, and once. -/
theorem extraction_exact_nested :
    let text := "f(1, g: h { class C {} })"
    SourceUnit.trackedNames ⟨none, text, structureOf text⟩ .classType = ["C"] := by
  intro text
  have hgrammar := grammatical_parseTree text
  obtain ⟨_, _, hnames, _⟩ := extraction_exact none text (parseTree text)
  refine ((hnames (fun t ht => (hgrammar t ht).keyworded) .classType rfl).2
    fun t ht => (hgrammar t ht).suffixInOrder).trans ?_
  decide +kernel

end ParseTree

end SwiftStyle.Swift
