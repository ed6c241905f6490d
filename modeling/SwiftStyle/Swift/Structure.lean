import SwiftStyle.Source.Loading
import SwiftStyle.Swift.Grammar

/-!
# Swift/Structure — the structure tree of Swift text

Declarations, calls and arguments of a parse tree become nodes; everything else is transparent, and
what it holds belongs to the nearest node around it. A declaration lies from its keyword to its end,
a call from its opening parenthesis to its end.
-/

namespace SwiftStyle.Swift

/-- The text of a span; nothing when the span does not lie between characters. -/
def textAt (contents : List Char) (span : Span) : String :=
  match charactersIn? span.start contents, charactersIn? span.stop contents with
  | some before, some upTo => String.ofList ((contents.take upTo).drop before)
  | _, _ => ""

namespace ParseTree

/-! ## Declarations -/

/-- The kind of node that a phrase declares, if it declares one. -/
def nodeKind? (t : ParseTree) : Option NodeKind :=
  match t.kind? with
  | some .protocolDeclaration => some .protocol
  | some .typeDeclaration =>
      match (t.part? .keyword).bind word? with
      | some "struct" => some .structType
      | some "enum" => some .enumType
      | some "extension" => some .extension
      | _ => some .classType
  | some .functionDeclaration | some .functionRequirement => some .function
  | _ => none

/-- Where a declaration begins: at its keyword, after attributes and modifiers. -/
def keywordStart (t : ParseTree) : Nat :=
  match (t.part? .keyword).or (t.parts.find? (·.word? == some "func")) with
  | some keyword => keyword.span.start
  | none => t.span.start

/-- The text of the part that names a phrase. -/
def name? (contents : List Char) (t : ParseTree) : Option String :=
  (t.part? .name).map fun name => textAt contents name.span

/-! ## Calls -/

/-- The parts of a call. -/
structure CallParts where
  callee : List ParseTree
  /-- The list of arguments. -/
  list : ParseTree
  /-- What stands in the suffix besides the list. -/
  others : List ParseTree

/-- The text of a callee from its first phrase to its last. -/
def CallParts.name? (c : CallParts) (contents : List Char) : Option String :=
  match c.callee.head?, c.callee.getLast? with
  | some first, some last => some (textAt contents ⟨first.span.start, last.span.stop⟩)
  | _, _ => none

/-- Whether a phrase is the suffix of a call expression. -/
def isSuffixOf (suffix t : ParseTree) : Bool := t.isOf .callExpression && suffix.isOf .callSuffix

/-- Whether a phrase begins with an opening parenthesis. -/
def isParenthesised (t : ParseTree) : Bool := t.parts.head?.bind word? == some "("

/-- The parts of a call whose arguments stand between parentheses; `none` for any other phrase. The
suffix is the last phrase, and the first list in it is the list of arguments. -/
def callParts? (t : ParseTree) : Option CallParts := do
  let suffix ← t.phrases.getLast?
  let list ← suffix.phrases.find? (·.isOf .valueArguments)
  if suffix.isSuffixOf t && list.isParenthesised then
    some ⟨t.phrases.dropLast, list, suffix.phrases.eraseP (·.isOf .valueArguments)⟩
  else none

/-- **A call taken apart.** -/
theorem callParts?_eq_some {t : ParseTree} {c : CallParts} (h : t.callParts? = some c) :
    ∃ suffix before after, t.phrases = c.callee ++ [suffix] ∧
      suffix.phrases = before ++ c.list :: after ∧ c.others = before ++ after ∧
      suffix.isSuffixOf t ∧ (∀ p ∈ before, ¬p.isOf .valueArguments) ∧
      c.list.isOf .valueArguments ∧ c.list.isParenthesised := by
  obtain ⟨suffix, hsuffix, h⟩ := Option.bind_eq_some_iff.1 h
  obtain ⟨list, hlist, h⟩ := Option.bind_eq_some_iff.1 h
  obtain ⟨hcall, h⟩ := Option.ite_none_right_eq_some.1 h
  obtain rfl := Option.some.inj h
  obtain ⟨hsuffixOf, hparenthesised⟩ := Bool.and_eq_true_iff.1 hcall
  obtain ⟨callee, hphrases⟩ := List.getLast?_eq_some_iff.1 hsuffix
  obtain ⟨hkind, before, after, hparts, hbefore⟩ := List.find?_eq_some_iff_append.1 hlist
  refine ⟨suffix, before, after, by simp [hphrases], hparts, ?_, hsuffixOf, by simpa using hbefore,
    hkind, hparenthesised⟩
  rw [hparts, List.eraseP_append_right _ (by simpa using hbefore), List.eraseP_cons, hkind,
    cond_true]

/-- The parts of a call are smaller than the call. -/
theorem CallParts.sizeAll_lt {t : ParseTree} {c : CallParts} (h : t.callParts? = some c) :
    sizeAll c.callee + sizeAll c.list.phrases + sizeAll c.others < t.size := by
  obtain ⟨suffix, before, after, hphrases, hsuffix, hothers, _⟩ := callParts?_eq_some h
  have hlist := sizeAll_phrases_lt c.list
  have hsmaller := sizeAll_phrases_lt suffix
  have ht := sizeAll_phrases_lt t
  simp only [hphrases, sizeAll_append, sizeAll_cons, sizeAll_nil] at ht
  simp only [hsuffix, sizeAll_append, sizeAll_cons] at hsmaller
  rw [hothers, sizeAll_append]
  omega

/-! ## Nodes -/

mutual

/-- The nodes of a phrase: that of a declaration or a call, or the nodes of its phrases. -/
def nodes (contents : List Char) (t : ParseTree) : List Node :=
  have := sizeAll_phrases_lt t
  match t.nodeKind? with
  | some kind =>
      let start := t.keywordStart
      [.mk kind (t.name? contents) start (t.span.stop - start) (nodesAll contents t.phrases)]
  | none =>
      match h : t.callParts? with
      | some c =>
          have := CallParts.sizeAll_lt h
          let start := c.list.span.start
          let children :=
            nodesAll contents c.callee ++ argumentNodes contents c.list.phrases
              ++ nodesAll contents c.others
          [.mk .call (c.name? contents) start (t.span.stop - start) children]
      | none => nodesAll contents t.phrases
termination_by 2 * t.size

/-- The nodes of a list of phrases. -/
def nodesAll (contents : List Char) : List ParseTree → List Node
  | [] => []
  | t :: rest => nodes contents t ++ nodesAll contents rest
termination_by l => 2 * sizeAll l + 1
decreasing_by all_goals rw [sizeAll_cons, size_eq]; omega

/-- The node of an argument. -/
def argumentNode (contents : List Char) (t : ParseTree) : Node :=
  have := sizeAll_phrases_lt t
  let start := t.span.start
  .mk .argument (t.name? contents) start (t.span.stop - start) (nodesAll contents t.phrases)
termination_by 2 * t.size

/-- The nodes of the phrases in a list of arguments: a node for each argument, and what other
phrases hold. -/
def argumentNodes (contents : List Char) : List ParseTree → List Node
  | [] => []
  | t :: rest =>
      (if t.isOf .valueArgument then [argumentNode contents t] else nodes contents t)
        ++ argumentNodes contents rest
termination_by l => 2 * sizeAll l + 1
decreasing_by all_goals rw [sizeAll_cons, size_eq]; omega

end

end ParseTree

/-- **The structure tree of Swift text.** -/
def structureOf (contents : String) : Node :=
  Node.fileRoot contents.utf8ByteSize
    (ParseTree.nodesAll contents.toList (parseTree contents).phrases)

/-- The extractor of Swift text. It rejects nothing. -/
def extractor : Extractor := ⟨fun contents => .ok (structureOf contents)⟩

end SwiftStyle.Swift
