import SwiftStyle.Proofs.Source.Lines
import SwiftStyle.Proofs.Swift.Shaping
import SwiftStyle.Swift.Grammar

/-!
# Proofs/Swift/Layout — a parse tree lies in its text

`ParseTree.Lies` says what the grammar promises of a parse tree: a token stands in the text at its
span and is not empty, and the parts of a phrase lie one behind the other from its start to its end
(`Laid`).  Laying the syntax trees of a text out keeps this promise (`laid_parseTreesAll`), as a gap
only moves the next token.
-/

namespace SwiftStyle.Swift

/-- The characters of `text` from byte `offset` on begin with `chars`. -/
def StandsAt (text chars : List Char) (offset : Nat) : Prop :=
  ∃ before after, text = before ++ (chars ++ after) ∧ offset = byteLength before

namespace StandsAt

variable {text a b : List Char} {offset : Nat}

theorem left (h : StandsAt text (a ++ b) offset) : StandsAt text a offset := by
  obtain ⟨before, after, rfl, rfl⟩ := h
  exact ⟨before, b ++ after, by rw [List.append_assoc], rfl⟩

theorem right (h : StandsAt text (a ++ b) offset) : StandsAt text b (offset + byteLength a) := by
  obtain ⟨before, after, rfl, rfl⟩ := h
  exact ⟨before ++ a, after, by simp, (byteLength_append before a).symm⟩

/-- Between any two characters nothing stands. -/
theorem nil (h : StandsAt text a offset) : StandsAt text [] offset := by
  obtain ⟨before, after, rfl, rfl⟩ := h
  exact ⟨before, a ++ after, rfl, rfl⟩

/-- Nothing stands at the end, either. -/
theorem stop (h : StandsAt text a offset) : StandsAt text [] (offset + byteLength a) :=
  right (b := []) (by rwa [List.append_nil])

theorem le_byteLength (h : StandsAt text a offset) : offset + byteLength a ≤ byteLength text := by
  obtain ⟨before, after, rfl, rfl⟩ := h
  simp only [byteLength_append]
  omega

end StandsAt

namespace ParseTree

/-- **A parse tree lies in a text.** -/
inductive Lies (text : List Char) : ParseTree → Prop
  | token {role : Option Role} {word : String} {span : Span} (nonempty : word.toList ≠ [])
      (stands : StandsAt text word.toList span.start)
      (stop : span.stop = span.start + byteLength word.toList) : Lies text (token role word span)
  | phrase {role : Option Role} {kind : PhraseKind} {span : Span} {parts : List ParseTree}
      (nonempty : span.start < span.stop) (start : StandsAt text [] span.start)
      (stop : StandsAt text [] span.stop) (lie : ∀ p ∈ parts, Lies text p)
      (ordered : parts.Pairwise (·.span.stop ≤ ·.span.start))
      (bounded : ∀ p ∈ parts, span.start ≤ p.span.start ∧ p.span.stop ≤ span.stop)
      (first : ∀ p ∈ parts.head?, p.span.start = span.start) :
      Lies text (phrase role kind span parts)

/-- **Trees lie one behind the other** between two bytes of a text. -/
structure Laid (text : List Char) (low high : Nat) (trees : List ParseTree) : Prop where
  le : low ≤ high
  lie : ∀ t ∈ trees, Lies text t
  ordered : trees.Pairwise (·.span.stop ≤ ·.span.start)
  bounded : ∀ t ∈ trees, low ≤ t.span.start ∧ t.span.stop ≤ high

namespace Laid

variable {text : List Char} {low middle high : Nat} {trees trees' : List ParseTree}

theorem nil (h : low ≤ high) : Laid text low high [] := ⟨h, by simp, .nil, by simp⟩

theorem append (h : Laid text low middle trees) (h' : Laid text middle high trees') :
    Laid text low high (trees ++ trees') where
  le := Nat.le_trans h.le h'.le
  lie := List.forall_mem_append.2 ⟨h.lie, h'.lie⟩
  ordered := List.pairwise_append.2 ⟨h.ordered, h'.ordered, fun t ht t' ht' =>
    Nat.le_trans (h.bounded t ht).2 (h'.bounded t' ht').1⟩
  bounded := List.forall_mem_append.2
    ⟨fun t ht => ⟨(h.bounded t ht).1, Nat.le_trans (h.bounded t ht).2 h'.le⟩,
      fun t ht => ⟨Nat.le_trans h.le (h'.bounded t ht).1, (h'.bounded t ht).2⟩⟩

theorem mono {low' high' : Nat} (h : Laid text low high trees) (hlow : low' ≤ low)
    (hhigh : high ≤ high') : Laid text low' high' trees where
  le := Nat.le_trans hlow (Nat.le_trans h.le hhigh)
  lie := h.lie
  ordered := h.ordered
  bounded t ht := ⟨Nat.le_trans hlow (h.bounded t ht).1, Nat.le_trans (h.bounded t ht).2 hhigh⟩

theorem sublist (h : Laid text low high trees) (hsub : trees'.Sublist trees) :
    Laid text low high trees' :=
  ⟨h.le, fun t ht => h.lie t (hsub.subset ht), h.ordered.sublist hsub,
    fun t ht => h.bounded t (hsub.subset ht)⟩

/-- A tree among others: what lies before it, the tree, and what lies behind it. -/
theorem split {t : ParseTree} (h : Laid text low high (trees ++ t :: trees')) :
    Laid text low t.span.start trees ∧ Lies text t ∧ Laid text t.span.stop high trees' := by
  obtain ⟨_, hlie, hordered, hbounded⟩ := h
  obtain ⟨hbefore, hafter, hacross⟩ := List.pairwise_append.1 hordered
  obtain ⟨hbehind, hafter⟩ := List.pairwise_cons.1 hafter
  have ht : t ∈ trees ++ t :: trees' := by simp
  refine ⟨⟨(hbounded t ht).1, fun s hs => hlie s (by simp [hs]), hbefore, fun s hs =>
    ⟨(hbounded s (by simp [hs])).1, hacross s hs t List.mem_cons_self⟩⟩, hlie t ht,
    ⟨(hbounded t ht).2, fun s hs => hlie s (by simp [hs]), hafter, fun s hs =>
      ⟨hbehind s hs, (hbounded s (by simp [hs])).2⟩⟩⟩

/-- The first tree, and what lies behind it. -/
theorem uncons {t : ParseTree} (h : Laid text low high (t :: trees)) :
    low ≤ t.span.start ∧ Lies text t ∧ Laid text t.span.stop high trees := by
  have h : Laid text low high ([] ++ t :: trees) := h
  obtain ⟨hbefore, hlies, hafter⟩ := h.split
  exact ⟨hbefore.le, hlies, hafter⟩

end Laid

/-! ## What lies in a text -/

namespace Lies

variable {text : List Char} {t : ParseTree} (h : Lies text t)
include h

/-- **What lies in a text is not empty.** -/
theorem start_lt_stop : t.span.start < t.span.stop := by
  cases h with
  | @token role word span nonempty stands stop =>
    have hpos := byteLength_pos nonempty
    simp only [ParseTree.span, stop]
    omega
  | phrase nonempty => exact nonempty

theorem start : StandsAt text [] t.span.start := by
  cases h with
  | token nonempty stands stop => exact stands.nil
  | phrase nonempty start => exact start

theorem stop : StandsAt text [] t.span.stop := by
  cases h with
  | @token role word span nonempty stands stop =>
    simp only [ParseTree.span, stop]
    exact stands.stop
  | phrase nonempty start stop => exact stop

/-- A phrase begins with its first part. -/
theorem start_head? {p : ParseTree} (hp : p ∈ t.parts.head?) : p.span.start = t.span.start := by
  cases h with
  | token => cases hp
  | phrase nonempty start stop lie ordered bounded first => exact first p hp

/-- The parts of a phrase lie one behind the other. -/
theorem laid_parts : Laid text t.span.start t.span.stop t.parts := by
  have hlt := h.start_lt_stop
  cases h with
  | token => exact .nil (Nat.le_of_lt hlt)
  | phrase nonempty start stop lie ordered bounded =>
    exact ⟨Nat.le_of_lt hlt, lie, ordered, bounded⟩

theorem laid_phrases : Laid text t.span.start t.span.stop t.phrases :=
  h.laid_parts.sublist List.filter_sublist

end Lies

/-! ## Laying out -/

section LayingOut

variable {text : List Char}

theorem laid_ofToken (role : Option Role) {offset : Nat} {t : Token}
    (h : StandsAt text t.characters offset) :
    Laid text offset (offset + t.width) (ofToken role offset t) := by
  rw [ofToken]
  split
  · exact .nil (Nat.le_add_right _ _)
  · next hempty =>
    have hlie : Lies text (token role (String.ofList t.text)
        ⟨offset + byteLength t.gap, offset + byteLength t.gap + byteLength t.text⟩) :=
      .token (by simpa using hempty) (by simpa using h.right) (by simp)
    refine ⟨Nat.le_add_right _ _, by simpa using hlie, List.pairwise_singleton _ _, ?_⟩
    have hwidth : t.width = byteLength t.gap + byteLength t.text := byteLength_append _ _
    simp only [List.forall_mem_singleton, span]
    omega

/-- The parts of a phrase lie between the start of the first and the stop of the last. -/
theorem Laid.between {low high : Nat} {first : ParseTree} {rest : List ParseTree}
    (h : Laid text low high (first :: rest)) : ∀ p ∈ first :: rest,
      first.span.start ≤ p.span.start ∧ p.span.stop ≤ (rest.getLastD first).span.stop := by
  induction rest generalizing first with
  | nil => simp
  | cons second rest ih =>
    have ih := ih (h.sublist (List.sublist_cons_self first _))
    have hfirst := (h.lie first List.mem_cons_self).start_lt_stop
    have hsecond := (h.lie second (by simp)).start_lt_stop
    have hle : first.span.stop ≤ second.span.start :=
      List.rel_of_pairwise_cons h.ordered List.mem_cons_self
    have hlast := (ih second List.mem_cons_self).2
    rw [List.getLastD_cons]
    refine List.forall_mem_cons.2 ⟨⟨Nat.le_refl _, by omega⟩, fun p hp => ?_⟩
    have := ih p hp
    omega

theorem getLastD_mem_cons (first : ParseTree) (rest : List ParseTree) :
    rest.getLastD first ∈ first :: rest := by
  rw [← List.getLast_eq_getLastD]
  exact List.getLast_mem (List.cons_ne_nil first rest)

theorem laid_ofParts (role : Option Role) (kind : PhraseKind) {low high : Nat}
    {parts : List ParseTree} (h : Laid text low high parts) :
    Laid text low high (ofParts role kind parts) := by
  cases parts with
  | nil => exact .nil h.le
  | cons first rest =>
    have hbetween := h.between
    have hlast := getLastD_mem_cons first rest
    have hfirst := hbetween first List.mem_cons_self
    have hlie := h.lie first List.mem_cons_self
    have hlt := hlie.start_lt_stop
    have hphrase : Lies text (phrase role kind
        ⟨first.span.start, (rest.getLastD first).span.stop⟩ (first :: rest)) :=
      .phrase (Nat.lt_of_lt_of_le hlt hfirst.2) hlie.start (h.lie _ hlast).stop h.lie h.ordered
        hbetween (by simp)
    exact ⟨h.le, List.forall_mem_singleton.2 hphrase, List.pairwise_singleton _ _,
      List.forall_mem_singleton.2 ⟨(h.bounded first List.mem_cons_self).1, (h.bounded _ hlast).2⟩⟩

end LayingOut

end ParseTree

namespace SyntaxTree

open ParseTree

theorem characters_append (a b : List SyntaxTree) :
    characters (a ++ b) = characters a ++ characters b := by simp [characters]

theorem characters_cons (tree : SyntaxTree) (rest : List SyntaxTree) :
    characters (tree :: rest) = characters [tree] ++ characters rest :=
  characters_append [tree] rest

variable {text : List Char}

/-- Bytes of the closing bracket, if there is one. -/
theorem byteLength_closing (closing : Option Token) :
    byteLength (closing.toList.flatMap Token.characters) = (closing.map Token.width).getD 0 := by
  cases closing <;> simp [Token.width, byteLength]

theorem laid_closing {closing : Option Token} {offset : Nat}
    (h : StandsAt text (closing.toList.flatMap Token.characters) offset) :
    Laid text offset (offset + (closing.map Token.width).getD 0)
      (closing.toList.flatMap (ofToken none offset)) := by
  cases closing with
  | none => exact .nil (Nat.le_refl _)
  | some t =>
    simp only [Option.toList_some, List.flatMap_cons, List.flatMap_nil, List.append_nil] at h ⊢
    exact laid_ofToken none h

mutual

theorem laid_parseTrees : ∀ (tree : SyntaxTree) {offset : Nat},
    StandsAt text (characters [tree]) offset →
      Laid text offset (offset + width [tree]) (tree.parseTrees offset)
  | token t, offset, h => by
    have hcharacters : characters [token t] = t.characters := by simp [characters, leaves]
    rw [hcharacters] at h
    rw [parseTrees, width, hcharacters]
    exact laid_ofToken none h
  | bracketed opening items closing, offset, h => by
    have hcharacters : characters [bracketed opening items closing]
        = opening.characters ++ (characters items ++ closing.toList.flatMap Token.characters) := by
      simp [characters, leaves]
    rw [hcharacters] at h
    have hopening := laid_ofToken none h.left
    have hitems := laid_parseTreesAll items h.right.left
    have hclosing := laid_closing h.right.right
    rw [parseTrees, width, hcharacters, byteLength_append, byteLength_append, byteLength_closing,
      ← Nat.add_assoc, ← Nat.add_assoc]
    exact laid_ofParts none .other ((hopening.append hitems).append hclosing)
  | declaration kind modifiers keyword name rest, offset, h => by
    have hcharacters : characters [declaration kind modifiers keyword name rest]
        = characters modifiers ++ (keyword.characters ++ (characters name ++ characters rest)) := by
      simp [characters, leaves]
    rw [hcharacters] at h
    have hmodifiers := laid_parseTreesAll modifiers h.left
    have hkeyword := laid_ofToken kind.keywordRole? h.right.left
    have hname := laid_parseTreesAll name h.right.right.left
    have hrest := laid_parseTreesAll rest h.right.right.right
    rw [parseTrees, width, hcharacters, byteLength_append, byteLength_append, byteLength_append,
      ← Nat.add_assoc, ← Nat.add_assoc, ← Nat.add_assoc]
    exact laid_ofParts none kind.phraseKind ((((laid_ofParts none .other hmodifiers).append
      hkeyword).append (laid_ofParts (some .name) .other hname)).append hrest)
  | application callee opening arguments closing closures, offset, h => by
    have hcharacters : characters [application callee opening arguments closing closures]
        = characters callee ++ (opening.characters ++ (characters arguments
          ++ (closing.toList.flatMap Token.characters ++ characters closures))) := by
      simp [characters, leaves]
    rw [hcharacters] at h
    have hcallee := laid_parseTreesAll callee h.left
    have hopening := laid_ofToken none h.right.left
    have harguments := laid_parseTreesAll arguments h.right.right.left
    have hclosing := laid_closing h.right.right.right.left
    have hclosures := laid_parseTreesAll closures h.right.right.right.right
    rw [byteLength_closing] at hclosures
    rw [parseTrees, width, hcharacters, byteLength_append, byteLength_append, byteLength_append,
      byteLength_append, byteLength_closing, ← Nat.add_assoc, ← Nat.add_assoc, ← Nat.add_assoc,
      ← Nat.add_assoc]
    have hlist := laid_ofParts none .valueArguments ((hopening.append harguments).append hclosing)
    exact laid_ofParts none .callExpression ((laid_ofParts none .other hcallee).append
      (laid_ofParts none .callSuffix (hlist.append hclosures)))
  | closureApplication callee closures, offset, h => by
    have hcharacters : characters [closureApplication callee closures]
        = characters callee ++ characters closures := by simp [characters, leaves]
    rw [hcharacters] at h
    have hcallee := laid_parseTreesAll callee h.left
    have hclosures := laid_parseTreesAll closures h.right
    rw [parseTrees, width, hcharacters, byteLength_append, ← Nat.add_assoc]
    exact laid_ofParts none .callExpression ((laid_ofParts none .other hcallee).append
      (laid_ofParts none .callSuffix hclosures))
  | argument [] value, offset, h => by
    have hcharacters : characters [argument [] value] = characters value := by
      simp [characters, leaves]
    rw [hcharacters] at h
    rw [parseTrees, width, hcharacters]
    exact laid_ofParts none .valueArgument (laid_parseTreesAll value h)
  | argument (label :: more) value, offset, h => by
    have hcharacters : characters [argument (label :: more) value]
        = characters [label] ++ (characters more ++ characters value) := by
      simp [characters, leaves]
    rw [hcharacters] at h
    have hlabel := laid_parseTrees label h.left
    have hmore := laid_parseTreesAll more h.right.left
    have hvalue := laid_parseTreesAll value h.right.right
    rw [parseTrees, width, hcharacters, byteLength_append, byteLength_append, ← Nat.add_assoc,
      ← Nat.add_assoc]
    exact laid_ofParts none .valueArgument (((laid_ofParts (some .name) .other hlabel).append
      hmore).append hvalue)

theorem laid_parseTreesAll : ∀ (trees : List SyntaxTree) {offset : Nat},
    StandsAt text (characters trees) offset →
      Laid text offset (offset + width trees) (parseTreesAll offset trees)
  | [], offset, h => by
    rw [parseTreesAll]
    exact .nil (Nat.le_add_right _ _)
  | tree :: rest, offset, h => by
    rw [characters_cons] at h
    have htree := laid_parseTrees tree h.left
    have hrest := laid_parseTreesAll rest h.right
    rw [parseTreesAll, width, characters_cons, byteLength_append, ← Nat.add_assoc]
    exact htree.append hrest

end

end SyntaxTree

/-- **The parse tree of a text lies in the text.** -/
theorem laid_parseTree (contents : String) :
    ParseTree.Laid contents.toList 0 contents.utf8ByteSize (parseTree contents).phrases := by
  have htext := characters_parse contents.toList
  have hstands : StandsAt contents.toList (SyntaxTree.characters (parse contents.toList)) 0 :=
    ⟨[], [], by simp [htext], rfl⟩
  have hlaid := SyntaxTree.laid_parseTreesAll _ hstands
  rw [SyntaxTree.width, htext, byteLength_toList, Nat.zero_add] at hlaid
  exact hlaid.sublist List.filter_sublist

end SwiftStyle.Swift
