import SwiftStyle.Proofs.Swift.Grammar
import SwiftStyle.Proofs.Swift.Layout
import SwiftStyle.Proofs.Text.Bytes

/-!
# Proofs/Swift/Shape — where the nodes of a structure tree lie

Nodes do not nest by their places: a callee lies before the parenthesis at which its call begins,
and attributes lie before the keyword of a declaration.  What carries over from phrase to phrase is
the span of bytes that a phrase takes up: all nodes that come of it lie there, in the order of the
text (`Spread`).  Spreads are put together one behind the other (`Spread.append`), and a declaration,
a call or an argument is put around what its own span holds (`Spread.around`).
-/

namespace SwiftStyle

namespace Node

/-- **A node and what is directly in it have their places in a text.** -/
structure Placed (text : List Char) (node : Node) : Prop where
  kind : node.kind.declares ∨ node.kind = .call ∨ node.kind = .argument
  start : Swift.StandsAt text [] node.offset
  stop : Swift.StandsAt text [] (node.offset + node.length)
  parenthesis : node.kind = .call → Swift.StandsAt text ['('] node.offset
  increasing : node.children.Pairwise (·.offset < ·.offset)
  arguments : ∀ a ∈ node.children, a.kind = .argument →
    node.kind = .call ∧ node.offset ≤ a.offset ∧
      a.offset + a.length ≤ node.offset + node.length
  disjoint : (node.children.filter (·.kind = .argument)).Pairwise
    fun a b => a.offset + a.length ≤ b.offset

/-- **Nodes are spread over a range of bytes**: at any depth they have their places, and none lies
outside. -/
structure Spread (text : List Char) (low high : Nat) (nodes : List Node) : Prop where
  placed : ∀ node ∈ preorderAll nodes, node.Placed text
  bounded : ∀ node ∈ preorderAll nodes, low ≤ node.offset ∧ node.offset < high
  increasing : nodes.Pairwise (·.offset < ·.offset)
  arguments : ((preorderAll nodes).filter (·.kind = .argument)).Pairwise (·.offset < ·.offset)
  declarations : ((preorderAll nodes).filter (·.kind.declares)).Pairwise (·.offset ≠ ·.offset)

theorem mem_preorderAll_self {node : Node} {nodes : List Node} (h : node ∈ nodes) :
    node ∈ preorderAll nodes := by
  rw [preorderAll_eq_flatMap]
  refine List.mem_flatMap.2 ⟨node, h, ?_⟩
  rw [preorder_eq]
  exact List.mem_cons_self

namespace Spread

variable {text : List Char} {low low' middle high high' : Nat} {nodes nodes' : List Node}

theorem nil : Spread text low high [] := by
  refine ⟨?_, ?_, .nil, ?_, ?_⟩ <;> simp [preorderAll]

theorem mono (h : Spread text low high nodes) (hlow : low' ≤ low) (hhigh : high ≤ high') :
    Spread text low' high' nodes :=
  { h with
    bounded := fun node hnode =>
      ⟨Nat.le_trans hlow (h.bounded node hnode).1,
        Nat.lt_of_lt_of_le (h.bounded node hnode).2 hhigh⟩ }

/-- **Nodes one behind the other.** -/
theorem append (h : Spread text low middle nodes) (h' : Spread text middle high nodes')
    (hlow : low ≤ middle) (hhigh : middle ≤ high) : Spread text low high (nodes ++ nodes') := by
  have hlt : ∀ a ∈ preorderAll nodes, ∀ b ∈ preorderAll nodes', a.offset < b.offset :=
    fun a ha b hb => Nat.lt_of_lt_of_le (h.bounded a ha).2 (h'.bounded b hb).1
  refine ⟨?_, ?_, ?_, ?_, ?_⟩
  · rw [preorderAll_append]
    exact List.forall_mem_append.2 ⟨h.placed, h'.placed⟩
  · rw [preorderAll_append]
    exact List.forall_mem_append.2
      ⟨(h.mono (Nat.le_refl _) hhigh).bounded, (h'.mono hlow (Nat.le_refl _)).bounded⟩
  · exact List.pairwise_append.2 ⟨h.increasing, h'.increasing, fun a ha b hb =>
      hlt a (mem_preorderAll_self ha) b (mem_preorderAll_self hb)⟩
  · rw [preorderAll_append, List.filter_append]
    exact List.pairwise_append.2 ⟨h.arguments, h'.arguments, fun a ha b hb =>
      hlt a (List.mem_filter.1 ha).1 b (List.mem_filter.1 hb).1⟩
  · rw [preorderAll_append, List.filter_append]
    exact List.pairwise_append.2 ⟨h.declarations, h'.declarations, fun a ha b hb =>
      Nat.ne_of_lt (hlt a (List.mem_filter.1 ha).1 b (List.mem_filter.1 hb).1)⟩

/-- **A node around spread nodes.** An argument begins before the arguments in it; a declaration may
begin behind some in it, but not at the same place. -/
theorem around {node : Node} (h : Spread text low high node.children) (hplaced : node.Placed text)
    (hbounded : low ≤ node.offset ∧ node.offset < high)
    (hargument : node.kind = .argument → ∀ a ∈ preorderAll node.children, a.kind = .argument →
      node.offset < a.offset)
    (hdeclaration : node.kind.declares → ∀ d ∈ preorderAll node.children, node.offset ≠ d.offset) :
    Spread text low high [node] := by
  refine ⟨?_, ?_, List.pairwise_singleton _ _, ?_, ?_⟩
  · rw [preorderAll_singleton]
    exact List.forall_mem_cons.2 ⟨hplaced, h.placed⟩
  · rw [preorderAll_singleton]
    exact List.forall_mem_cons.2 ⟨hbounded, h.bounded⟩
  · rw [preorderAll_singleton, List.filter_cons]
    split
    · next hkind =>
      refine List.pairwise_cons.2 ⟨fun a ha => ?_, h.arguments⟩
      obtain ⟨ha, hkind'⟩ := List.mem_filter.1 ha
      exact hargument (of_decide_eq_true hkind) a ha (of_decide_eq_true hkind')
    · exact h.arguments
  · rw [preorderAll_singleton, List.filter_cons]
    split
    · next hkind =>
      exact List.pairwise_cons.2 ⟨fun d hd => hdeclaration hkind d (List.mem_filter.1 hd).1,
        h.declarations⟩
    · exact h.declarations

end Spread

end Node

namespace Swift.ParseTree

open Node (Spread Placed)

variable {contents : List Char}

/-! ## Phrases and the nodes that come of them -/

/-- A phrase in which nothing but phrases of no account stand holds no node. -/
theorem nodes_of_other {t : ParseTree} (h : ∀ s ∈ t.preorder, s.isOf .other) :
    nodes contents t = [] := by
  induction t using reading with
  | declaration t kind hkind _ =>
    have hother := isOf_iff.1 (h t (self_mem_preorder (isPhrase_of_nodeKind? hkind)))
    simp [nodeKind?, hother] at hkind
  | call t c hcall _ _ _ _ =>
    obtain ⟨_, _, _, _, _, _, _, _, hpreorder⟩ := preorder_of_callParts? hcall
    have hother := isOf_iff.1 (h t (hpreorder ▸ List.mem_cons_self))
    rw [callParts?_of_kind?_ne (by simp [hother])] at hcall
    cases hcall
  | transparent t hkind hcall ih =>
    rw [nodes_of_none hkind hcall, nodesAll_eq_flatMap, List.flatMap_eq_nil_iff]
    exact fun p hp => ih p hp fun s hs => h s (mem_preorder_of_mem_phrases hp hs)

/-- **The span of a phrase holds the nodes that come of it**, and holds the arguments among them
behind its start. -/
structure Held (contents : List Char) (t : ParseTree) : Prop where
  spread : Spread contents t.span.start t.span.stop (nodes contents t)
  behind : ∀ a ∈ Node.preorderAll (nodes contents t), a.kind = .argument →
    t.span.start < a.offset

theorem spread_nodesAll {low high : Nat} {l : List ParseTree} (hlaid : Laid contents low high l)
    (h : ∀ t ∈ l, Held contents t) : Spread contents low high (nodesAll contents l) := by
  induction l generalizing low with
  | nil => simpa using Spread.nil
  | cons t l ih =>
    rw [List.forall_mem_cons] at h
    obtain ⟨hlow, hlies, hafter⟩ := hlaid.uncons
    rw [nodesAll_cons]
    exact (h.1.spread.mono hlow (Nat.le_refl _)).append (ih hafter h.2)
      (Nat.le_trans hlow (Nat.le_of_lt hlies.start_lt_stop)) hafter.le

theorem behind_nodesAll {low high : Nat} {l : List ParseTree} (hlaid : Laid contents low high l)
    (h : ∀ t ∈ l, Held contents t) :
    ∀ a ∈ Node.preorderAll (nodesAll contents l), a.kind = .argument → low < a.offset := by
  induction l with
  | nil => simp [Node.preorderAll]
  | cons t l ih =>
    rw [List.forall_mem_cons] at h
    rw [nodesAll_cons, Node.preorderAll_append, List.forall_mem_append]
    exact ⟨fun a ha hkind => Nat.lt_of_le_of_lt (hlaid.bounded t List.mem_cons_self).1
      (h.1.behind a ha hkind), ih (hlaid.sublist (List.sublist_cons_self t l)) h.2⟩

/-! ## Declarations -/

/-- A keyword is a word beside the phrases, so nothing in them lies where it begins. -/
theorem keyword_apart {t keyword : ParseTree} (hlies : Lies contents t)
    (hkeyword : keyword ∈ t.parts) (hword : keyword.word?.isSome) (h : ∀ p ∈ t.phrases, Held contents p) :
    ∀ node ∈ Node.preorderAll (nodesAll contents t.phrases),
      keyword.span.start ≠ node.offset := by
  intro node hnode
  obtain ⟨before, after, hparts⟩ := List.append_of_mem hkeyword
  have hphrases : t.phrases = before.filter isPhrase ++ after.filter isPhrase := by
    have hnone : keyword.isPhrase = false := by
      cases keyword with
      | token => rfl
      | phrase => simp [word?] at hword
    rw [phrases, hparts, List.filter_append, List.filter_cons_of_neg (by simp [hnone])]
  rw [hphrases, List.forall_mem_append] at h
  obtain ⟨hbefore, hlies', hafter⟩ := Laid.split (hparts ▸ hlies.laid_parts)
  have hbefore := spread_nodesAll (hbefore.sublist List.filter_sublist) h.1
  have hafter := spread_nodesAll (hafter.sublist List.filter_sublist) h.2
  have hlt := hlies'.start_lt_stop
  rw [hphrases, nodesAll_append, Node.preorderAll_append, List.mem_append] at hnode
  rcases hnode with hnode | hnode
  · have := hbefore.bounded node hnode
    omega
  · have := hafter.bounded node hnode
    omega

/-- A node whose children are the nodes of phrases has its place, if its ends have. -/
theorem placed_around {low high : Nat} {l : List ParseTree} {kind : NodeKind} {name : Option String}
    {start stop : Nat} (hkind : kind.declares ∨ kind = .argument) (hle : start ≤ stop)
    (hstart : StandsAt contents [] start) (hstop : StandsAt contents [] stop)
    (hspread : Spread contents low high (nodesAll contents l)) :
    (Node.mk kind name start (stop - start) (nodesAll contents l)).Placed contents where
  kind := hkind.imp id .inr
  start := hstart
  stop := by rwa [Node.offset, Node.length, Nat.add_sub_cancel' hle]
  parenthesis hcall := by
    rcases hkind with hkind | hkind
    · exact absurd hcall (NodeKind.ne_of_declares hkind rfl)
    · cases hkind.symm.trans hcall
  increasing := hspread.increasing
  arguments a ha hargument := absurd hargument (not_argument_of_mem_nodesAll ha)
  disjoint := by simp only [Node.children, filter_argument_nodesAll, List.Pairwise.nil]

theorem held_declaration {t : ParseTree} {kind : NodeKind} (hlies : Lies contents t)
    (ht : t.Keyworded) (hkind : t.nodeKind? = some kind)
    (h : ∀ p ∈ t.phrases, Held contents p) : Held contents t := by
  obtain ⟨keyword, hkeyword, _, hstart⟩ := ht.exists_keyword hkind
  have hdeclares := declares_of_nodeKind? hkind
  have hargument : (declarationNode contents kind t).kind ≠ .argument :=
    NodeKind.ne_of_declares hdeclares rfl
  have hmem : keyword ∈ t.parts := List.mem_of_find?_eq_some hkeyword
  obtain ⟨word, _, hword, _⟩ := exists_of_mem_keyword? hkeyword
  have hspread := spread_nodesAll hlies.laid_phrases h
  have hkeywordLies := hlies.laid_parts.lie keyword hmem
  have hbounded := hlies.laid_parts.bounded keyword hmem
  have hlt := hkeywordLies.start_lt_stop
  have hplaced : (declarationNode contents kind t).Placed contents :=
    placed_around (.inl hdeclares) (by omega) (hstart ▸ hkeywordLies.start) hlies.stop hspread
  constructor
  · rw [nodes_of_nodeKind? hkind]
    refine hspread.around hplaced ?_ (fun hkind => absurd hkind hargument) fun _ => ?_
    · simp only [declarationNode, Node.offset, hstart]
      omega
    · simp only [declarationNode, Node.offset, hstart, Node.children]
      exact keyword_apart hlies hmem (by simp [hword]) h
  · rw [nodes_of_nodeKind? hkind, Node.preorderAll_singleton]
    exact List.forall_mem_cons.2
      ⟨fun hkind => absurd hkind hargument, behind_nodesAll hlies.laid_phrases h⟩

/-! ## Calls -/

theorem spread_argumentNodes {low high : Nat} {l : List ParseTree}
    (hlaid : Laid contents low high l) (h : ∀ t ∈ l, Held contents t)
    (hinside : ∀ t ∈ l, ∀ p ∈ t.phrases, Held contents p) :
    Spread contents low high (argumentNodes contents l) := by
  induction l generalizing low with
  | nil => simpa [argumentNodes] using Spread.nil
  | cons t l ih =>
    rw [List.forall_mem_cons] at h hinside
    obtain ⟨hlow, hlies, hafter⟩ := hlaid.uncons
    have hlt := hlies.start_lt_stop
    have hfirst : Spread contents t.span.start t.span.stop
        (if t.isOf .valueArgument then [argumentNode contents t] else nodes contents t) := by
      split
      · have hspread := spread_nodesAll hlies.laid_phrases hinside.1
        rw [argumentNode]
        refine hspread.around (placed_around (.inr rfl) (Nat.le_of_lt hlt) hlies.start hlies.stop
          hspread) ⟨Nat.le_refl _, hlt⟩ (fun _ => behind_nodesAll hlies.laid_phrases hinside.1)
          fun hdeclares => ?_
        cases hdeclares
      · exact h.1.spread
    rw [argumentNodes]
    exact (hfirst.mono hlow (Nat.le_refl _)).append (ih hafter h.2 hinside.2)
      (Nat.le_trans hlow (Nat.le_of_lt hlt)) hafter.le

/-- **Where the parts of a call lie**: the callee before the opening parenthesis, the arguments
between the parentheses, and what else holds nodes behind them. -/
theorem CallParts.laid {t : ParseTree} {c : CallParts} (hlies : Lies contents t)
    (hcall : t.callParts? = some c) (hgrammatical : ∀ s ∈ t.preorder, s.Grammatical) :
    ∃ inner after, Laid contents t.span.start c.list.span.start c.callee ∧
      StandsAt contents ['('] c.list.span.start ∧ c.list.span.start < inner ∧
      Laid contents inner c.list.span.stop c.list.phrases ∧
      Laid contents c.list.span.stop t.span.stop after ∧ (∀ p ∈ after, p ∈ c.others) ∧
      nodesAll contents c.others = nodesAll contents after := by
  obtain ⟨suffix, before, after, hphrases, hsuffix, hothers, hsuffixOf, hbefore, hlist, hopening⟩ :=
    callParts?_eq_some hcall
  obtain ⟨hcallee, hsuffixLies, hend⟩ := Laid.split (hphrases ▸ hlies.laid_phrases)
  obtain ⟨hskipped, hlistLies, hafter⟩ := Laid.split (hsuffix ▸ hsuffixLies.laid_phrases)
  obtain ⟨role, span, rest, hparts⟩ := isParenthesised_iff.1 hopening
  -- the parenthesis is the first part of the list, and the phrases of the list are behind it
  have hstart : span.start = c.list.span.start :=
    hlistLies.start_head? (p := .token role "(" span) (by rw [hparts]; rfl)
  obtain ⟨_, hparenthesis, hinner⟩ := Laid.uncons (hparts ▸ hlistLies.laid_parts)
  have hlist_phrases : c.list.phrases = rest.filter isPhrase := by
    rw [phrases, hparts, List.filter_cons_of_neg (by simp [isPhrase, kind?])]
  have hstands : StandsAt contents ['('] c.list.span.start := by
    cases hparenthesis with
    | token _ hstands _ => exact hstart ▸ hstands
  have hlt : c.list.span.start < span.stop := hstart ▸ hparenthesis.start_lt_stop
  -- what stands before the list holds nothing
  have hnone : nodesAll contents before = [] := by
    have hmem : suffix ∈ t.phrases := by simp [hphrases]
    have hother := (hgrammatical suffix (mem_preorder_of_mem_phrases hmem
      (self_mem_preorder (isPhrase_of_mem_phrases hmem)))).suffixInOrder
      (Bool.and_eq_true_iff.1 hsuffixOf).2 before c.list after hsuffix hlist hbefore
    rw [nodesAll_eq_flatMap, List.flatMap_eq_nil_iff]
    exact fun p hp => nodes_of_other fun s hs => hother s (mem_preorderAll.2 ⟨p, hp, hs⟩)
  refine ⟨span.stop, after, hcallee.mono (Nat.le_refl _) hskipped.le, hstands, hlt, ?_,
    hafter.mono (Nat.le_refl _) hend.le, fun p hp => hothers ▸ List.mem_append_right before hp, ?_⟩
  · exact hlist_phrases ▸ hinner.sublist List.filter_sublist
  · rw [hothers, nodesAll_append, hnone, List.nil_append]

/-- The arguments of a call are the value arguments of its list. -/
theorem exists_of_argument {t : ParseTree} {c : CallParts} {a : Node}
    (ha : a ∈ (callNode contents t c).children) (hkind : a.kind = .argument) :
    ∃ p ∈ c.list.phrases, a = argumentNode contents p := by
  have hmem : a ∈ (callNode contents t c).children.filter (·.kind = .argument) :=
    List.mem_filter.2 ⟨ha, by simpa using hkind⟩
  rw [filter_argument_callNode] at hmem
  obtain ⟨p, hp, rfl⟩ := List.mem_map.1 hmem
  exact ⟨p, (List.mem_filter.1 hp).1, rfl⟩

theorem offset_argumentNode (p : ParseTree) : (argumentNode contents p).offset = p.span.start := by
  rw [argumentNode, Node.offset]

theorem stop_argumentNode {p : ParseTree} (h : p.span.start ≤ p.span.stop) :
    (argumentNode contents p).offset + (argumentNode contents p).length = p.span.stop := by
  rw [argumentNode, Node.offset, Node.length, Nat.add_sub_cancel' h]

/-- A call has its place, if its parts have. -/
theorem placed_callNode {t : ParseTree} {c : CallParts} {inner : Nat} (hlies : Lies contents t)
    (hstands : StandsAt contents ['('] c.list.span.start) (hlt : c.list.span.start < inner)
    (hlist : Laid contents inner c.list.span.stop c.list.phrases)
    (hle : c.list.span.stop ≤ t.span.stop)
    (hspread : Spread contents t.span.start t.span.stop (c.nodes contents)) :
    (callNode contents t c).Placed contents := by
  have hinner := hlist.le
  have hstop : c.list.span.start + (t.span.stop - c.list.span.start) = t.span.stop := by omega
  have hnonempty : ∀ p ∈ c.list.phrases, p.span.start ≤ p.span.stop := fun p hp =>
    Nat.le_of_lt (hlist.lie p hp).start_lt_stop
  refine ⟨.inr (.inl rfl), hstands.nil, hstop.symm ▸ hlies.stop, fun _ => hstands,
    hspread.increasing, fun a ha hkind => ?_, ?_⟩
  · obtain ⟨p, hp, rfl⟩ := exists_of_argument ha hkind
    have hbounded := hlist.bounded p hp
    rw [stop_argumentNode (hnonempty p hp), offset_argumentNode]
    exact ⟨rfl, Nat.le_trans (Nat.le_of_lt hlt) hbounded.1,
      Nat.le_trans (Nat.le_trans hbounded.2 hle) (Nat.le_of_eq hstop.symm)⟩
  · rw [filter_argument_callNode, List.pairwise_map]
    refine (hlist.ordered.sublist List.filter_sublist).imp_of_mem fun {p q} hp _ hpq => ?_
    rw [stop_argumentNode (hnonempty p (List.mem_filter.1 hp).1), offset_argumentNode]
    exact hpq

theorem held_call {t : ParseTree} {c : CallParts} (hlies : Lies contents t)
    (hcall : t.callParts? = some c) (hgrammatical : ∀ s ∈ t.preorder, s.Grammatical)
    (hcallee : ∀ p ∈ c.callee, Held contents p) (hlist : ∀ p ∈ c.list.phrases, Held contents p)
    (hinside : ∀ p ∈ c.list.phrases, ∀ q ∈ p.phrases, Held contents q)
    (hothers : ∀ p ∈ c.others, Held contents p) : Held contents t := by
  obtain ⟨inner, after, hcalleeLaid, hstands, hlt, hlistLaid, hafterLaid, hafter, hnodes⟩ :=
    CallParts.laid hlies hcall hgrammatical
  have hafter : ∀ p ∈ after, Held contents p := fun p hp => hothers p (hafter p hp)
  have hcalleeLe := hcalleeLaid.le
  have hinnerLe := hlistLaid.le
  have hafterLe := hafterLaid.le
  have harguments := spread_argumentNodes hlistLaid hlist hinside
  have hspread : Spread contents t.span.start t.span.stop (c.nodes contents) := by
    rw [CallParts.nodes, hnodes]
    exact ((spread_nodesAll hcalleeLaid hcallee).append
      (harguments.mono (Nat.le_of_lt hlt) (Nat.le_refl _)) hcalleeLe (by omega)).append
      (spread_nodesAll hafterLaid hafter) (by omega) hafterLe
  have hplaced := placed_callNode hlies hstands hlt hlistLaid hafterLe hspread
  constructor
  · rw [nodes_of_callParts? hcall]
    refine hspread.around hplaced ⟨hcalleeLe, ?_⟩ (fun hargument => ?_) fun hdeclares => ?_
    · simp only [callNode, Node.offset]
      omega
    · cases hargument
    · cases hdeclares
  · rw [nodes_of_callParts? hcall, Node.preorderAll_singleton]
    refine List.forall_mem_cons.2 ⟨fun hargument => ?_, ?_⟩
    · cases hargument
    simp only [callNode, Node.children, CallParts.nodes, hnodes, Node.preorderAll_append,
      List.forall_mem_append]
    refine ⟨⟨behind_nodesAll hcalleeLaid hcallee, fun a ha _ => ?_⟩, fun a ha hargument => ?_⟩
    · have := harguments.bounded a ha
      omega
    · have := behind_nodesAll hafterLaid hafter a ha hargument
      omega

/-! ## All phrases -/

/-- What is met in a phrase lies in the text, too. -/
theorem Lies.of_mem_preorder {t s : ParseTree} (h : Lies contents t) (hs : s ∈ t.preorder) :
    Lies contents s := by
  induction h with
  | token => simp [preorder] at hs
  | phrase nonempty start stop lie ordered bounded first ih =>
    rw [preorder] at hs
    rcases List.mem_cons.1 hs with rfl | hs
    · exact .phrase nonempty start stop lie ordered bounded first
    · obtain ⟨p, hp, hs⟩ := mem_preorderAll.1 hs
      exact ih p hp hs

/-- **The span of every phrase holds its nodes.** -/
theorem held {t : ParseTree} (hlies : Lies contents t) (h : ∀ s ∈ t.preorder, s.Grammatical) :
    Held contents t := by
  induction t using reading with
  | declaration t kind hkind ih =>
    have ht := (h t (self_mem_preorder (isPhrase_of_nodeKind? hkind))).keyworded
    exact held_declaration hlies ht hkind fun p hp => ih p hp (hlies.laid_phrases.lie p hp)
      fun s hs => h s (mem_preorder_of_mem_phrases hp hs)
  | call t c hcall ihCallee ihList ihInside ihOthers =>
    have hmem : ∀ p, p ∈ c.callee ∨ p ∈ c.list.phrases ∨ p ∈ c.others → p ∈ t.preorder :=
      fun p => mem_preorder_of_mem_callParts? hcall
    have hinner : ∀ p ∈ t.preorder, Lies contents p ∧ ∀ s ∈ p.preorder, s.Grammatical :=
      fun p hp => ⟨hlies.of_mem_preorder hp, fun s hs => h s (mem_preorder_trans hp hs)⟩
    have hcallee := fun p hp => hinner p (hmem p (.inl hp))
    have hlist := fun p hp => hinner p (hmem p (.inr (.inl hp)))
    have hothers := fun p hp => hinner p (hmem p (.inr (.inr hp)))
    exact held_call hlies hcall h (fun p hp => ihCallee p hp (hcallee p hp).1 (hcallee p hp).2)
      (fun p hp => ihList p hp (hlist p hp).1 (hlist p hp).2)
      (fun p hp q hq => ihInside p hp q hq ((hlist p hp).1.laid_phrases.lie q hq)
        fun s hs => (hlist p hp).2 s (mem_preorder_of_mem_phrases hq hs))
      fun p hp => ihOthers p hp (hothers p hp).1 (hothers p hp).2
  | transparent t hkind hcall ih =>
    have hphrases : ∀ p ∈ t.phrases, Held contents p := fun p hp =>
      ih p hp (hlies.laid_phrases.lie p hp) fun s hs => h s (mem_preorder_of_mem_phrases hp hs)
    have hnodes : nodes contents t = nodesAll contents t.phrases := nodes_of_none hkind hcall
    exact ⟨hnodes ▸ spread_nodesAll hlies.laid_phrases hphrases,
      hnodes ▸ behind_nodesAll hlies.laid_phrases hphrases⟩

end Swift.ParseTree

/-! ## Places in a text -/

namespace Swift

theorem StandsAt.isValid {contents : String} {chars : List Char} {offset : Nat}
    (h : StandsAt contents.toList chars offset) : String.Pos.Raw.IsValid contents ⟨offset⟩ := by
  obtain ⟨before, after, htext, rfl⟩ := h
  exact isValid_iff_exists_append.2 ⟨before, chars ++ after, htext, rfl⟩

theorem length_flatMap_utf8EncodeChar (text : List Char) :
    (text.flatMap String.utf8EncodeChar).length = byteLength text := by
  induction text with
  | nil => rfl
  | cons c text ih =>
    rw [List.flatMap_cons, List.length_append, ih, String.length_utf8EncodeChar, byteLength]

/-- A parenthesis is a byte. -/
theorem StandsAt.getElem?_utf8 {contents : String} {offset : Nat}
    (h : StandsAt contents.toList ['('] offset) :
    (utf8 contents)[offset]? = some '('.toUInt8 := by
  obtain ⟨before, after, htext, rfl⟩ := h
  rw [utf8_eq, htext, List.flatMap_append, ← length_flatMap_utf8EncodeChar,
    List.getElem?_append_right (Nat.le_refl _), Nat.sub_self]
  rfl

end Swift

/-! ## The structure of a text -/

/-- **The shape of a structure tree of a text.** -/
structure Node.Shape (contents : String) (tree : Node) : Prop where
  root : tree.kind = .file ∧ tree.offset = 0 ∧ tree.length = contents.utf8ByteSize
  kinds : ∀ node ∈ tree.walk.tail, node.kind ≠ .file ∧ node.kind ≠ .other
  inside : ∀ node ∈ tree.walk, node.offset + node.length ≤ contents.utf8ByteSize ∧
    String.Pos.Raw.IsValid contents ⟨node.offset⟩ ∧
      String.Pos.Raw.IsValid contents ⟨node.offset + node.length⟩
  parenthesis : ∀ node ∈ tree.walk, node.kind = .call →
    (utf8 contents)[node.offset]? = some '('.toUInt8
  /-- Arguments are children of calls alone, and inside of them. -/
  arguments : ∀ node ∈ tree.walk, ∀ a ∈ node.children, a.kind = .argument →
    node.kind = .call ∧ node.offset ≤ a.offset ∧
      a.offset + a.length ≤ node.offset + node.length
  increasing : ∀ node ∈ tree.walk, node.children.Pairwise (·.offset < ·.offset)
  disjoint : ∀ node ∈ tree.walk, (node.children.filter (·.kind = .argument)).Pairwise
    fun a b => a.offset + a.length ≤ b.offset
  argumentOffsets : ((tree.walk.filter (·.kind = .argument)).map Node.offset).Nodup
  declarationOffsets : ((tree.walk.filter (·.kind.declares)).map Node.offset).Nodup

namespace Swift

/-- The nodes of a text are spread over its bytes. -/
theorem spread_structureOf (contents : String) :
    Node.Spread contents.toList 0 contents.utf8ByteSize (structureOf contents).children := by
  have hlaid := laid_parseTree contents
  refine ParseTree.spread_nodesAll hlaid fun t ht => ParseTree.held (hlaid.lie t ht) fun s hs => ?_
  exact grammatical_parseTree contents s (ParseTree.mem_preorderAll.2 ⟨t, ht, hs⟩)

theorem walk_structureOf (contents : String) :
    (structureOf contents).walk
      = structureOf contents :: Node.preorderAll (structureOf contents).children := by
  rw [Node.walk_eq_preorder, Node.preorder_eq]

/-- **Arguments and declarations of a text have places of their own.** -/
theorem distinct_structureOf (contents : String) : (structureOf contents).Distinct := by
  have hspread := spread_structureOf contents
  refine ⟨fun hkind => ?_, ?_, ?_⟩
  · cases hkind
  · rw [walk_structureOf, List.filter_cons_of_neg (by simp [structureOf, Node.fileRoot, Node.kind])]
    exact List.pairwise_map.2 (hspread.arguments.imp Nat.ne_of_lt)
  · rw [walk_structureOf, List.filter_cons_of_neg
      (by simp [structureOf, Node.fileRoot, Node.kind, NodeKind.declares])]
    exact List.pairwise_map.2 hspread.declarations

/-- What holds of the root and of the spread nodes holds of all. -/
theorem forall_mem_walk_structureOf {contents : String} {P : Node → Prop}
    (hroot : P (structureOf contents))
    (h : ∀ node ∈ Node.preorderAll (structureOf contents).children, P node) :
    ∀ node ∈ (structureOf contents).walk, P node := by
  rw [walk_structureOf]
  exact List.forall_mem_cons.2 ⟨hroot, h⟩

/-- **The structure tree of a text has its shape**, whatever the text is. -/
theorem shape_extract (contents : String) :
    ∃ tree, extractor.extract contents = .ok tree ∧ tree.Shape contents := by
  have hspread := spread_structureOf contents
  have hplaced := hspread.placed
  have hdistinct := distinct_structureOf contents
  have hsize := byteLength_toList contents
  have hwhole : StandsAt contents.toList contents.toList 0 := ⟨[], [], by simp, rfl⟩
  have hnone : (structureOf contents).children.filter (·.kind = .argument) = [] :=
    ParseTree.filter_argument_nodesAll _
  refine ⟨structureOf contents, rfl,
    { root := ⟨rfl, rfl, rfl⟩
      kinds := ?kinds
      inside := forall_mem_walk_structureOf ?inside_root ?inside
      parenthesis := forall_mem_walk_structureOf ?parenthesis_root ?parenthesis
      arguments := forall_mem_walk_structureOf ?arguments_root
        fun node hnode => (hplaced node hnode).arguments
      increasing := forall_mem_walk_structureOf hspread.increasing
        fun node hnode => (hplaced node hnode).increasing
      disjoint := forall_mem_walk_structureOf (hnone ▸ .nil)
        fun node hnode => (hplaced node hnode).disjoint
      argumentOffsets := hdistinct.arguments
      declarationOffsets := hdistinct.declarations }⟩
  case kinds =>
    intro node hnode
    rw [walk_structureOf] at hnode
    rcases (hplaced node hnode).kind with h | h | h
    · exact ⟨NodeKind.ne_of_declares h rfl, NodeKind.ne_of_declares h rfl⟩
    · simp [h]
    · simp [h]
  case inside_root =>
    have hend := hwhole.stop.isValid
    rw [Nat.zero_add, hsize] at hend
    exact ⟨Nat.le_of_eq (Nat.zero_add _), hwhole.isValid, (Nat.zero_add _).symm ▸ hend⟩
  case inside =>
    intro node hnode
    have hstop := (hplaced node hnode).stop
    exact ⟨hsize ▸ hstop.le_byteLength, (hplaced node hnode).start.isValid, hstop.isValid⟩
  case parenthesis_root =>
    intro hcall
    cases hcall
  case parenthesis =>
    exact fun node hnode hcall => ((hplaced node hnode).parenthesis hcall).getElem?_utf8
  case arguments_root =>
    exact fun a ha hkind => absurd hkind (ParseTree.not_argument_of_mem_nodesAll ha)

end Swift

end SwiftStyle
