import SwiftStyle.Proofs.Source.Structure
import SwiftStyle.Swift.Structure

/-!
# Proofs/Swift/Nodes — how a parse tree is read

A phrase is read in one of three ways: as a declaration, as a call, or not at all, and then its
phrases are read in its place.  `ParseTree.reading` is the induction that follows these ways, and
`preorder` lists the phrases that are met, each before those in it.
-/

namespace SwiftStyle

namespace Swift.ParseTree

/-! ## Kinds -/

@[simp] theorem isOf_iff {t : ParseTree} {kind : PhraseKind} :
    t.isOf kind = true ↔ t.kind? = some kind := beq_iff_eq

theorem isPhrase_of_isOf {t : ParseTree} {kind : PhraseKind} (h : t.isOf kind) : t.isPhrase := by
  rw [isPhrase, isOf_iff.1 h]
  rfl

theorem isPhrase_of_mem_phrases {t p : ParseTree} (h : p ∈ t.phrases) : p.isPhrase :=
  (List.mem_filter.1 h).2

theorem phrases_token {role : Option Role} {text : String} {span : Span} :
    (token role text span).phrases = [] := rfl

theorem isPhrase_of_nodeKind? {t : ParseTree} {kind : NodeKind} (h : t.nodeKind? = some kind) :
    t.isPhrase := by
  cases t with
  | token role text span => cases h
  | phrase role kind span parts => rfl

theorem declares_of_nodeKind? {t : ParseTree} {kind : NodeKind} (h : t.nodeKind? = some kind) :
    kind.declares := by
  rw [nodeKind?] at h
  split at h
  · exact Option.some.inj h ▸ rfl
  · split at h <;> exact Option.some.inj h ▸ rfl
  · exact Option.some.inj h ▸ rfl
  · exact Option.some.inj h ▸ rfl
  · cases h

/-- A call expression declares nothing. -/
theorem nodeKind?_of_callParts? {t : ParseTree} {c : CallParts} (h : t.callParts? = some c) :
    t.nodeKind? = none := by
  obtain ⟨suffix, _, _, _, _, _, hcall, _⟩ := callParts?_eq_some h
  have hkind := isOf_iff.1 (Bool.and_eq_true_iff.1 hcall).1
  rw [nodeKind?, hkind]

/-- Only a call expression is taken apart. -/
theorem callParts?_of_kind?_ne {t : ParseTree} (h : t.kind? ≠ some .callExpression) :
    t.callParts? = none := by
  refine Option.eq_none_iff_forall_ne_some.2 fun c hc => h ?_
  obtain ⟨suffix, _, _, _, _, _, hcall, _⟩ := callParts?_eq_some hc
  exact isOf_iff.1 (Bool.and_eq_true_iff.1 hcall).1

/-- A phrase in parentheses begins with the token of one. -/
theorem isParenthesised_iff {t : ParseTree} :
    t.isParenthesised ↔ ∃ role span rest, t.parts = .token role "(" span :: rest := by
  rw [isParenthesised, beq_iff_eq]
  cases t.parts with
  | nil => simp
  | cons first rest => cases first <;> simp [word?]

/-! ## The three ways -/

variable (contents : List Char)

theorem nodesAll_eq_flatMap (l : List ParseTree) :
    nodesAll contents l = l.flatMap (nodes contents) := by
  induction l with
  | nil => rw [nodesAll, List.flatMap_nil]
  | cons t l ih => rw [nodesAll, ih, List.flatMap_cons]

@[simp] theorem nodesAll_nil : nodesAll contents [] = [] := by rw [nodesAll]

@[simp] theorem nodesAll_cons (t : ParseTree) (l : List ParseTree) :
    nodesAll contents (t :: l) = nodes contents t ++ nodesAll contents l := by rw [nodesAll]

@[simp] theorem nodesAll_append (l l' : List ParseTree) :
    nodesAll contents (l ++ l') = nodesAll contents l ++ nodesAll contents l' := by
  simp only [nodesAll_eq_flatMap, List.flatMap_append]

/-- The node of a declaration of a kind. -/
def declarationNode (kind : NodeKind) (t : ParseTree) : Node :=
  .mk kind (t.name? contents) t.keywordStart (t.span.stop - t.keywordStart)
    (nodesAll contents t.phrases)

/-- The nodes that the parts of a call hold. -/
def CallParts.nodes (c : CallParts) : List Node :=
  nodesAll contents c.callee ++ argumentNodes contents c.list.phrases ++ nodesAll contents c.others

/-- The node of a call with its parts. -/
def callNode (t : ParseTree) (c : CallParts) : Node :=
  .mk .call (c.name? contents) c.list.span.start (t.span.stop - c.list.span.start)
    (c.nodes contents)

variable {contents}

theorem nodes_of_nodeKind? {t : ParseTree} {kind : NodeKind} (h : t.nodeKind? = some kind) :
    nodes contents t = [declarationNode contents kind t] := by
  rw [nodes, h]
  rfl

theorem nodes_of_callParts? {t : ParseTree} {c : CallParts} (h : t.callParts? = some c) :
    nodes contents t = [callNode contents t c] := by
  rw [nodes, nodeKind?_of_callParts? h]
  simp only
  split
  · next c' hc =>
    obtain rfl := Option.some.inj (h.symm.trans hc)
    rfl
  · next hnone => simp [h] at hnone

theorem nodes_of_none {t : ParseTree} (hkind : t.nodeKind? = none) (hcall : t.callParts? = none) :
    nodes contents t = nodesAll contents t.phrases := by
  rw [nodes, hkind]
  simp only
  split
  · next hc => simp [hcall] at hc
  · rfl

theorem size_le_sizeAll {t : ParseTree} {l : List ParseTree} (h : t ∈ l) : t.size ≤ sizeAll l := by
  simpa using sizeAll_sublist (List.singleton_sublist.2 h)

/-- **Induction along the reading of a phrase.** -/
@[elab_as_elim]
theorem reading {P : ParseTree → Prop}
    (declaration : ∀ t kind, t.nodeKind? = some kind → (∀ p ∈ t.phrases, P p) → P t)
    (call : ∀ t c, t.callParts? = some c → (∀ p ∈ c.callee, P p) → (∀ p ∈ c.list.phrases, P p) →
      (∀ p ∈ c.list.phrases, ∀ q ∈ p.phrases, P q) → (∀ p ∈ c.others, P p) → P t)
    (transparent : ∀ t, t.nodeKind? = none → t.callParts? = none → (∀ p ∈ t.phrases, P p) → P t)
    (t : ParseTree) : P t := by
  induction hn : t.size using Nat.strongRecOn generalizing t with
  | _ n ih =>
    have hsmaller : ∀ l : List ParseTree, sizeAll l < t.size → ∀ p ∈ l, P p := fun l hl p hp =>
      ih p.size (hn ▸ Nat.lt_of_le_of_lt (size_le_sizeAll hp) hl) p rfl
    have hphrases := hsmaller t.phrases (sizeAll_phrases_lt t)
    cases hkind : t.nodeKind? with
    | some kind => exact declaration t kind hkind hphrases
    | none =>
      cases hcall : t.callParts? with
      | none => exact transparent t hkind hcall hphrases
      | some c =>
        have hlt := CallParts.sizeAll_lt hcall
        refine call t c hcall (hsmaller _ (by omega)) (hsmaller _ (by omega)) (fun p hp => ?_)
          (hsmaller _ (by omega))
        have hp := size_le_sizeAll hp
        exact hsmaller _ (Nat.lt_trans (sizeAll_phrases_lt p) (by omega))

/-- **What is read outside a list of arguments declares or calls**; it is no argument. -/
theorem kind_of_mem_nodes {t : ParseTree} {node : Node} (h : node ∈ nodes contents t) :
    node.kind.declares ∨ node.kind = .call := by
  induction t using reading with
  | declaration t kind hkind _ =>
    rw [nodes_of_nodeKind? hkind] at h
    obtain rfl := List.mem_singleton.1 h
    exact .inl (declares_of_nodeKind? hkind)
  | call t c hcall _ _ _ _ =>
    rw [nodes_of_callParts? hcall] at h
    obtain rfl := List.mem_singleton.1 h
    exact .inr rfl
  | transparent t hkind hcall ih =>
    rw [nodes_of_none hkind hcall, nodesAll_eq_flatMap] at h
    obtain ⟨p, hp, h⟩ := List.mem_flatMap.1 h
    exact ih p hp h

theorem kind_of_mem_nodesAll {l : List ParseTree} {node : Node} (h : node ∈ nodesAll contents l) :
    node.kind.declares ∨ node.kind = .call := by
  rw [nodesAll_eq_flatMap] at h
  obtain ⟨p, _, h⟩ := List.mem_flatMap.1 h
  exact kind_of_mem_nodes h

/-- Outside a list of arguments there is no argument. -/
theorem not_argument_of_mem_nodesAll {l : List ParseTree} {node : Node}
    (h : node ∈ nodesAll contents l) : node.kind ≠ .argument := by
  rcases kind_of_mem_nodesAll h with hkind | hkind
  · exact NodeKind.ne_of_declares hkind rfl
  · simp [hkind]

theorem filter_argument_nodesAll (l : List ParseTree) :
    (nodesAll contents l).filter (·.kind = .argument) = [] :=
  List.filter_eq_nil_iff.2 fun node hnode => by simpa using not_argument_of_mem_nodesAll hnode

/-- **The arguments in a list are its value arguments**, in order. -/
theorem filter_argument_argumentNodes (l : List ParseTree) :
    (argumentNodes contents l).filter (·.kind = .argument)
      = (l.filter (·.isOf .valueArgument)).map (argumentNode contents) := by
  induction l with
  | nil => simp [argumentNodes]
  | cons t l ih =>
    have hnone : (nodesAll contents [t]).filter (·.kind = .argument) = [] :=
      filter_argument_nodesAll [t]
    rw [nodesAll_cons, nodesAll_nil, List.append_nil] at hnone
    have hkind : (argumentNode contents t).kind = .argument := by rw [argumentNode]; rfl
    rw [argumentNodes, List.filter_append, ih]
    split
    · next h => simp [h, hkind]
    · next h => rw [hnone, List.filter_cons, if_neg h, List.nil_append]

/-- **The arguments of a call** are the value arguments of its list. -/
theorem filter_argument_callNode (t : ParseTree) (c : CallParts) :
    (callNode contents t c).children.filter (·.kind = .argument)
      = (c.list.phrases.filter (·.isOf .valueArgument)).map (argumentNode contents) := by
  rw [callNode, Node.children, CallParts.nodes, List.filter_append, List.filter_append,
    filter_argument_nodesAll, filter_argument_nodesAll, filter_argument_argumentNodes,
    List.nil_append, List.append_nil]

/-! ## The phrases that are met -/

mutual

/-- The phrases of a tree in pre-order: a phrase, then those in it. -/
def preorder : ParseTree → List ParseTree
  | token _ _ _ => []
  | phrase role kind span parts => phrase role kind span parts :: preorderAll parts

/-- The phrases of a list of trees in pre-order. -/
def preorderAll : List ParseTree → List ParseTree
  | [] => []
  | t :: rest => t.preorder ++ preorderAll rest

end

@[simp] theorem preorderAll_nil : preorderAll [] = [] := by rw [preorderAll]

@[simp] theorem preorderAll_cons (t : ParseTree) (l : List ParseTree) :
    preorderAll (t :: l) = t.preorder ++ preorderAll l := by rw [preorderAll]

@[simp] theorem preorderAll_append (l l' : List ParseTree) :
    preorderAll (l ++ l') = preorderAll l ++ preorderAll l' := by
  induction l with
  | nil => simp
  | cons t l ih => simp [ih]

/-- Tokens hold no phrases. -/
theorem preorderAll_filter_isPhrase (l : List ParseTree) :
    preorderAll (l.filter isPhrase) = preorderAll l := by
  induction l with
  | nil => rfl
  | cons t l ih =>
    cases t with
    | token role text span => simpa [isPhrase, kind?, preorder] using ih
    | phrase role kind span parts =>
      rw [List.filter_cons_of_pos rfl, preorderAll_cons, ih, preorderAll_cons]

/-- **A phrase comes before the phrases in it.** -/
theorem preorder_eq {t : ParseTree} (h : t.isPhrase) :
    t.preorder = t :: preorderAll t.phrases := by
  cases t with
  | token role text span => simp [isPhrase, kind?] at h
  | phrase role kind span parts => rw [preorder, phrases, preorderAll_filter_isPhrase]; rfl

theorem preorder_eq_of_isOf {t : ParseTree} {kind : PhraseKind} (h : t.isOf kind) :
    t.preorder = t :: preorderAll t.phrases := preorder_eq (isPhrase_of_isOf h)

theorem mem_preorderAll {l : List ParseTree} {s : ParseTree} :
    s ∈ preorderAll l ↔ ∃ t ∈ l, s ∈ t.preorder := by
  induction l with
  | nil => simp
  | cons t l ih => simp [ih]

theorem self_mem_preorder {t : ParseTree} (h : t.isPhrase) : t ∈ t.preorder :=
  preorder_eq h ▸ List.mem_cons_self

theorem mem_preorder_of_mem_phrases {t p s : ParseTree} (hp : p ∈ t.phrases)
    (hs : s ∈ p.preorder) : s ∈ t.preorder := by
  cases t with
  | token role text span => simp [phrases_token] at hp
  | phrase role kind span parts =>
    rw [preorder_eq rfl]
    exact List.mem_cons_of_mem _ (mem_preorderAll.2 ⟨p, hp, hs⟩)

mutual

theorem mem_preorder_trans : ∀ {t p s : ParseTree}, p ∈ t.preorder → s ∈ p.preorder →
    s ∈ t.preorder
  | token role text span, p, s, hp, hs => by simp [preorder] at hp
  | phrase role kind span parts, p, s, hp, hs => by
    rw [preorder] at hp ⊢
    rcases List.mem_cons.1 hp with rfl | hp
    · rwa [preorder] at hs
    · exact List.mem_cons_of_mem _ (mem_preorderAll_trans hp hs)

theorem mem_preorderAll_trans : ∀ {l : List ParseTree} {p s : ParseTree}, p ∈ preorderAll l →
    s ∈ p.preorder → s ∈ preorderAll l
  | [], p, s, hp, hs => by simp at hp
  | t :: l, p, s, hp, hs => by
    rw [preorderAll_cons, List.mem_append] at hp ⊢
    exact hp.imp (mem_preorder_trans · hs) (mem_preorderAll_trans · hs)

end

/-- **A call expression, listed**: the callee, the suffix, and in it the list of arguments. -/
theorem preorder_of_callParts? {t : ParseTree} {c : CallParts} (h : t.callParts? = some c) :
    ∃ suffix before after, suffix.isOf .callSuffix ∧ c.list.isOf .valueArguments ∧
      suffix.phrases = before ++ c.list :: after ∧ (∀ p ∈ before, ¬p.isOf .valueArguments) ∧
      c.others = before ++ after ∧
      t.preorder = t :: (preorderAll c.callee ++ suffix :: (preorderAll before
        ++ (c.list :: preorderAll c.list.phrases ++ preorderAll after))) := by
  obtain ⟨suffix, before, after, hphrases, hsuffix, hothers, hcall, hbefore, hlist, _⟩ :=
    callParts?_eq_some h
  obtain ⟨ht, hkind⟩ := Bool.and_eq_true_iff.1 hcall
  refine ⟨suffix, before, after, hkind, hlist, hsuffix, hbefore, hothers, ?_⟩
  rw [preorder_eq_of_isOf ht, hphrases, preorderAll_append, preorderAll_cons, preorderAll_nil,
    preorder_eq_of_isOf hkind, hsuffix, preorderAll_append, preorderAll_cons,
    preorder_eq_of_isOf hlist, List.append_nil]

/-- The parts of a call are met in it. -/
theorem mem_preorder_of_mem_callParts? {t p : ParseTree} {c : CallParts}
    (h : t.callParts? = some c) (hp : p ∈ c.callee ∨ p ∈ c.list.phrases ∨ p ∈ c.others) :
    p ∈ t.preorder := by
  obtain ⟨suffix, before, after, hphrases, hsuffix, hothers, _⟩ := callParts?_eq_some h
  have hself : ∀ {s q : ParseTree}, q ∈ s.phrases → q ∈ s.preorder := fun hq =>
    mem_preorder_of_mem_phrases hq (self_mem_preorder (isPhrase_of_mem_phrases hq))
  have hmem : suffix ∈ t.preorder := hself (by simp [hphrases])
  rcases hp with hp | hp | hp
  · exact hself (by simp [hphrases, hp])
  · have hlist : c.list ∈ suffix.preorder := hself (by simp [hsuffix])
    exact mem_preorder_trans hmem (mem_preorder_trans hlist (hself hp))
  · refine mem_preorder_trans hmem (hself ?_)
    rw [hothers, List.mem_append] at hp
    rw [hsuffix, List.mem_append, List.mem_cons]
    exact hp.imp id .inr

end Swift.ParseTree

end SwiftStyle
