import SwiftStyle.Proofs.Lists
import SwiftStyle.Proofs.Swift.Nodes
import SwiftStyle.Proofs.Swift.Shaping

/-!
# Proofs/Swift/Grammar — what the grammar promises of phrases

Two promises, phrase by phrase (`ParseTree.Grammatical`): a declaration has a keyword, which it
marks as the grammar has it, and in the suffix of a call the list of arguments comes before the
closures.
With its keyword a declaration is read as what the keyword introduces, from the keyword on
(`Keyworded.nodeKind?_eq`, `Keyworded.keywordStart_eq`).

Every phrase of the parse tree of a text keeps the promises (`grammatical_parseTree`), since the
parser puts declarations around keywords of their kind.
-/

namespace SwiftStyle.Swift

namespace ParseTree

/-! ## Keywords -/

/-- The keywords that a phrase may have, and what they introduce. -/
def keywords (t : ParseTree) : List (String × NodeKind) :=
  match t.kind? with
  | some .protocolDeclaration => [("protocol", .protocol)]
  | some .typeDeclaration =>
      [("class", .classType), ("actor", .classType), ("struct", .structType), ("enum", .enumType),
        ("extension", .extension)]
  | some .functionDeclaration | some .functionRequirement => [("func", .function)]
  | _ => []

/-- Whether a phrase is a declaration. -/
def isDeclaration (t : ParseTree) : Bool := !t.keywords.isEmpty

/-- What a part introduces as the keyword of a phrase. -/
def introduces? (t part : ParseTree) : Option NodeKind :=
  part.word?.bind fun word => t.keywords.lookup word

/-- The keyword of a declaration. -/
def keyword? (t : ParseTree) : Option ParseTree :=
  t.parts.find? fun part => (t.introduces? part).isSome

/-- **A declaration has a keyword.** A protocol or a type marks its keyword, and a function marks
nothing. -/
structure Keyworded (t : ParseTree) : Prop where
  isSome_keyword? : t.isDeclaration → t.keyword?.isSome
  marked : t.isOf .protocolDeclaration ∨ t.isOf .typeDeclaration → t.part? .keyword = t.keyword?
  unmarked : t.isOf .functionDeclaration ∨ t.isOf .functionRequirement → t.part? .keyword = none

/-- **Arguments come first**: in the suffix of a call nothing but what is of no account stands
before the list of arguments. -/
def SuffixInOrder (suffix : ParseTree) : Prop :=
  suffix.isOf .callSuffix → ∀ before list after, suffix.phrases = before ++ list :: after →
    list.isOf .valueArguments → (∀ p ∈ before, ¬p.isOf .valueArguments) →
    ∀ p ∈ preorderAll before, p.isOf .other

/-- What a keyword is. -/
theorem exists_of_mem_keyword? {t keyword : ParseTree} (h : keyword ∈ t.keyword?) :
    ∃ word kind, keyword.word? = some word ∧ (word, kind) ∈ t.keywords ∧
      t.introduces? keyword = some kind := by
  have hsome : (t.introduces? keyword).isSome := by simpa using List.find?_some h
  obtain ⟨kind, hkind⟩ := Option.isSome_iff_exists.1 hsome
  obtain ⟨word, hword, hlookup⟩ := Option.bind_eq_some_iff.1 hkind
  exact ⟨word, kind, hword, mem_of_lookup hlookup, hkind⟩

/-- The keyword of a function is the first word `func`. -/
theorem keyword?_eq_find? {t : ParseTree} (h : t.keywords = [("func", .function)]) :
    t.keyword? = t.parts.find? (·.word? == some "func") := by
  refine congrArg (t.parts.find? ·) (funext fun part => ?_)
  rw [introduces?, h]
  cases part.word? with
  | none => rfl
  | some word =>
    by_cases hword : word = "func" <;> simp [hword, List.lookup_cons, beq_false_of_ne]

theorem isDeclaration_iff {t : ParseTree} : t.isDeclaration ↔ t.nodeKind?.isSome := by
  rw [isDeclaration, keywords, nodeKind?]
  cases t.kind? with
  | none => simp
  | some kind =>
    cases kind <;> simp
    split <;> simp

theorem isDeclaration_eq_false {t : ParseTree} (h : t.nodeKind? = none) :
    t.isDeclaration = false :=
  Bool.eq_false_iff.2 fun hdeclaration => by simpa [h] using isDeclaration_iff.1 hdeclaration

namespace Keyworded

variable {t keyword : ParseTree} (ht : t.Keyworded)
include ht

/-- **A declaration begins at its keyword.** -/
theorem keywordStart_eq (h : t.keyword? = some keyword) : t.keywordStart = keyword.span.start := by
  obtain ⟨word, kind, hword, hmem, _⟩ := exists_of_mem_keyword? h
  have hpart : (t.part? .keyword).or (t.parts.find? (·.word? == some "func")) = some keyword := by
    cases hkind : t.kind? with
    | none => simp [keywords, hkind] at hmem
    | some k =>
      cases k with
      | protocolDeclaration => rw [ht.marked (.inl (isOf_iff.2 hkind)), h, Option.some_or]
      | typeDeclaration => rw [ht.marked (.inr (isOf_iff.2 hkind)), h, Option.some_or]
      | functionDeclaration =>
        rw [ht.unmarked (.inl (isOf_iff.2 hkind)), Option.none_or,
          ← keyword?_eq_find? (by simp [keywords, hkind]), h]
      | functionRequirement =>
        rw [ht.unmarked (.inr (isOf_iff.2 hkind)), Option.none_or,
          ← keyword?_eq_find? (by simp [keywords, hkind]), h]
      | _ => simp [keywords, hkind] at hmem
  rw [keywordStart, hpart]

/-- **A declaration is what its keyword introduces.** -/
theorem nodeKind?_eq (h : t.keyword? = some keyword) : t.nodeKind? = t.introduces? keyword := by
  obtain ⟨word, kind, hword, hmem, hkind'⟩ := exists_of_mem_keyword? h
  rw [hkind', nodeKind?]
  cases hkind : t.kind? with
  | none => simp [keywords, hkind] at hmem
  | some k =>
    cases k with
    | typeDeclaration =>
      rw [ht.marked (.inr (isOf_iff.2 hkind)), h, Option.bind_some, hword]
      simp only [keywords, hkind, List.mem_cons, Prod.mk.injEq, List.not_mem_nil, or_false] at hmem
      rcases hmem with ⟨rfl, rfl⟩ | ⟨rfl, rfl⟩ | ⟨rfl, rfl⟩ | ⟨rfl, rfl⟩ | ⟨rfl, rfl⟩ <;> rfl
    | _ => simp_all [keywords]

theorem exists_keyword {kind : NodeKind} (h : t.nodeKind? = some kind) :
    ∃ keyword, t.keyword? = some keyword ∧ t.introduces? keyword = some kind ∧
      t.keywordStart = keyword.span.start := by
  obtain ⟨keyword, hkeyword⟩ := Option.isSome_iff_exists.1
    (ht.isSome_keyword? (isDeclaration_iff.2 (h ▸ rfl)))
  exact ⟨keyword, hkeyword, (ht.nodeKind?_eq hkeyword).symm.trans h, ht.keywordStart_eq hkeyword⟩

end Keyworded

/-! ## Grammatical phrases -/

/-- **What the grammar promises of a phrase.** -/
structure Grammatical (t : ParseTree) : Prop where
  keyworded : t.Keyworded
  suffixInOrder : t.SuffixInOrder

/-- A phrase that is no declaration and no suffix has nothing to keep. -/
theorem Grammatical.of_kind {t : ParseTree} {kind : PhraseKind} (h : t.kind? = some kind)
    (hkind : kind = .callExpression ∨ kind = .valueArguments ∨ kind = .valueArgument ∨
      kind = .other) : t.Grammatical := by
  have hnone : t.isDeclaration = false := by
    rcases hkind with rfl | rfl | rfl | rfl <;> simp [isDeclaration, keywords, h]
  refine ⟨⟨by simp [hnone], ?_, ?_⟩, ?_⟩
  · rcases hkind with rfl | rfl | rfl | rfl <;> simp [h]
  · rcases hkind with rfl | rfl | rfl | rfl <;> simp [h]
  · rcases hkind with rfl | rfl | rfl | rfl <;> simp [SuffixInOrder, h]

/-- A suffix with its list in front, if it has one, is in order. -/
theorem Grammatical.suffix {role : Option Role} {span : Span} {list rest : List ParseTree}
    (hlist : ∀ p ∈ list, p.isOf .valueArguments) (hrest : ∀ p ∈ rest, ¬p.isOf .valueArguments) :
    (phrase role .callSuffix span (list ++ rest)).Grammatical := by
  refine ⟨⟨by simp [isDeclaration, keywords, kind?], by simp [kind?], by simp [kind?]⟩, ?_⟩
  intro _ before arguments after hphrases harguments hbefore
  have hphrases : list.filter isPhrase ++ rest.filter isPhrase = before ++ arguments :: after := by
    rw [← List.filter_append]
    exact hphrases
  cases before with
  | nil => simp
  | cons first before =>
    refine absurd ?_ (hbefore first List.mem_cons_self)
    cases hfilter : list.filter isPhrase with
    | nil =>
      have hmem : arguments ∈ rest.filter isPhrase := by
        rw [hfilter, List.nil_append] at hphrases
        simp [hphrases]
      exact absurd harguments (hrest _ (List.mem_filter.1 hmem).1)
    | cons first' list' =>
      rw [hfilter, List.cons_append, List.cons_append] at hphrases
      obtain rfl := (List.cons.inj hphrases).1
      exact hlist _ (List.mem_filter.1 (hfilter ▸ List.mem_cons_self)).1

/-- The words of a kind are keywords of its phrases. -/
theorem isSome_lookup_keywords {t : ParseTree} {kind : DeclaredKind} {word : String}
    (ht : t.kind? = some kind.phraseKind) (h : word ∈ kind.words) :
    (t.keywords.lookup word).isSome := by
  rw [keywords, ht]
  cases kind with
  | classType =>
    obtain rfl | rfl : word = "class" ∨ word = "actor" := by simpa [DeclaredKind.words] using h
    · rfl
    · rfl
  | _ =>
    obtain rfl := List.mem_singleton.1 h
    rfl

/-- A declaration is put together from modifiers, a keyword, a name and the rest. Before the rest
the keyword is the only word outside of phrases, and it alone may be marked. -/
theorem Grammatical.declaration {kind : DeclaredKind} {role : Option Role} {span : Span}
    {modifiers name rest : List ParseTree} {word : String} {keywordSpan : Span}
    (hword : word ∈ kind.words) (hmodifiers : ∀ p ∈ modifiers, p.role? = none ∧ p.word? = none)
    (hname : ∀ p ∈ name, p.role? ≠ some .keyword) (hrest : ∀ p ∈ rest, p.role? ≠ some .keyword) :
    (phrase role kind.phraseKind span
      (modifiers ++ token kind.keywordRole? word keywordSpan :: (name ++ rest))).Grammatical := by
  generalize ht : phrase role kind.phraseKind span
    (modifiers ++ token kind.keywordRole? word keywordSpan :: (name ++ rest)) = t
  have hparts : t.parts = modifiers ++ token kind.keywordRole? word keywordSpan :: (name ++ rest) :=
    ht ▸ rfl
  have hkind : t.kind? = some kind.phraseKind := ht ▸ rfl
  have hkeyword : t.keyword? = some (token kind.keywordRole? word keywordSpan) := by
    refine List.find?_eq_some_iff_append.2
      ⟨isSome_lookup_keywords hkind hword, modifiers, _, hparts, fun p hp => ?_⟩
    rw [introduces?, (hmodifiers p hp).2]
    rfl
  have hunmarked : ∀ p ∈ modifiers, (!p.role? == some .keyword) = true := fun p hp => by
    rw [(hmodifiers p hp).1]
    rfl
  refine ⟨⟨fun _ => hkeyword ▸ rfl, fun hmarks => ?_, fun hmarks => ?_⟩, ?_⟩
  · have hrole : kind.keywordRole? = some .keyword := by
      cases kind <;> simp_all [DeclaredKind.phraseKind, DeclaredKind.keywordRole?]
    rw [hkeyword]
    refine List.find?_eq_some_iff_append.2
      ⟨by simp [role?, hrole], modifiers, _, hparts, hunmarked⟩
  · have hrole : kind.keywordRole? = none := by
      cases kind <;> simp_all [DeclaredKind.phraseKind, DeclaredKind.keywordRole?]
    refine List.find?_eq_none.2 fun p hp => ?_
    rw [hparts, List.mem_append, List.mem_cons, List.mem_append] at hp
    rcases hp with hp | rfl | hp | hp
    · simp [(hmodifiers p hp).1]
    · simp [role?, hrole]
    · simpa using hname p hp
    · simpa using hrest p hp
  · intro hsuffix
    cases kind <;> simp [hkind, DeclaredKind.phraseKind] at hsuffix

/-! ## Laying out -/

section LayingOut

variable {P : ParseTree → Prop}

theorem forall_mem_ofToken {role : Option Role} {offset : Nat} {t : Token}
    (h : ∀ span, P (token role (String.ofList t.text) span)) :
    ∀ p ∈ ofToken role offset t, P p := by
  rw [ofToken]
  split
  · simp
  · simpa using h _

theorem forall_mem_ofParts {role : Option Role} {kind : PhraseKind} {parts : List ParseTree}
    (h : ∀ span, P (phrase role kind span parts)) : ∀ p ∈ ofParts role kind parts, P p := by
  cases parts with
  | nil => simp [ofParts]
  | cons first rest => simpa [ofParts] using h _

/-- Tokens are no phrases. -/
theorem preorderAll_ofToken (role : Option Role) (offset : Nat) (t : Token) :
    preorderAll (ofToken role offset t) = [] := by
  rw [ofToken]
  split <;> simp [preorder]

theorem forall_preorderAll_ofParts {role : Option Role} {kind : PhraseKind}
    {parts : List ParseTree} (hself : ∀ span, P (phrase role kind span parts))
    (hparts : ∀ s ∈ preorderAll parts, P s) : ∀ s ∈ preorderAll (ofParts role kind parts), P s := by
  cases parts with
  | nil => simp [ofParts]
  | cons first rest =>
    rw [ofParts, preorderAll_cons, preorderAll_nil, List.append_nil, preorder]
    exact List.forall_mem_cons.2 ⟨hself _, hparts⟩

end LayingOut

end ParseTree

namespace SyntaxTree

open ParseTree

/-- A keyword is laid out as one token. -/
theorem ofToken_keyword {kind : DeclaredKind} {keyword : Token}
    (h : keyword.readsOneOf kind.words) (role : Option Role) (offset : Nat) :
    ∃ word ∈ kind.words, ∃ span, ofToken role offset keyword = [.token role word span] := by
  obtain ⟨word, hword, hreads⟩ := List.any_eq_true.1 h
  have htext : keyword.text = word.toList := by
    simpa using (Bool.and_eq_true_iff.1 hreads).2
  have hempty : keyword.text.isEmpty = false := by
    rw [htext]
    cases kind with
    | classType =>
      obtain rfl | rfl : word = "class" ∨ word = "actor" := by simpa [DeclaredKind.words] using hword
      · rfl
      · rfl
    | _ =>
      obtain rfl := List.mem_singleton.1 hword
      rfl
  rw [ofToken, hempty, htext, String.ofList_toList]
  exact ⟨word, hword, _, rfl⟩

/-- What stands on its own has no role in a phrase, and is no list of arguments. -/
theorem parseTrees_top (tree : SyntaxTree) (offset : Nat) :
    ∀ p ∈ tree.parseTrees offset, p.role? = none ∧ ¬p.isOf .valueArguments := by
  have hphrase : ∀ {kind : PhraseKind} {parts : List ParseTree}, kind ≠ .valueArguments →
      ∀ p ∈ ofParts none kind parts, p.role? = none ∧ ¬p.isOf .valueArguments := fun hkind =>
    forall_mem_ofParts fun span => ⟨rfl, by simpa [kind?] using hkind⟩
  cases tree with
  | token t => rw [parseTrees]; exact forall_mem_ofToken fun span => ⟨rfl, by simp [kind?]⟩
  | bracketed => rw [parseTrees]; exact hphrase (by simp)
  | declaration kind =>
    rw [parseTrees]
    exact hphrase (by cases kind <;> simp [DeclaredKind.phraseKind])
  | application => rw [parseTrees]; exact hphrase (by simp)
  | closureApplication => rw [parseTrees]; exact hphrase (by simp)
  | argument label value => cases label <;> rw [parseTrees] <;> exact hphrase (by simp)

theorem parseTreesAll_top (trees : List SyntaxTree) (offset : Nat) :
    ∀ p ∈ parseTreesAll offset trees, p.role? = none ∧ ¬p.isOf .valueArguments := by
  induction trees generalizing offset with
  | nil => simp [parseTreesAll]
  | cons tree rest ih =>
    rw [parseTreesAll]
    exact List.forall_mem_append.2 ⟨parseTrees_top tree offset, ih _⟩

theorem grammatical_parseTreesAll {trees : List SyntaxTree}
    (h : ∀ t ∈ trees, ∀ offset, ∀ s ∈ preorderAll (t.parseTrees offset), s.Grammatical)
    (offset : Nat) : ∀ s ∈ preorderAll (parseTreesAll offset trees), s.Grammatical := by
  induction trees generalizing offset with
  | nil => simp [parseTreesAll]
  | cons tree rest ih =>
    rw [List.forall_mem_cons] at h
    rw [parseTreesAll, preorderAll_append]
    exact List.forall_mem_append.2 ⟨h.1 offset, ih h.2 _⟩

/-- **Every phrase of a proper tree is grammatical.** -/
theorem Proper.grammatical {tree : SyntaxTree} (h : tree.Proper) (offset : Nat) :
    ∀ s ∈ preorderAll (tree.parseTrees offset), s.Grammatical := by
  have hphrase : ∀ {role : Option Role} {kind : PhraseKind} {parts : List ParseTree},
      (kind = .callExpression ∨ kind = .valueArguments ∨ kind = .valueArgument ∨ kind = .other) →
      (∀ s ∈ preorderAll parts, s.Grammatical) →
      ∀ s ∈ preorderAll (ofParts role kind parts), s.Grammatical := fun hkind =>
    forall_preorderAll_ofParts fun span => .of_kind rfl hkind
  have hclosing : ∀ (closing : Option Token) (offset : Nat),
      preorderAll (closing.toList.flatMap (ofToken none offset)) = [] := by
    intro closing offset
    cases closing <;> simp [preorderAll_ofToken]
  induction h generalizing offset with
  | token t => simp [parseTrees, preorderAll_ofToken]
  | bracketed opening closing _ ih =>
    rw [parseTrees]
    refine hphrase (by simp) ?_
    simpa only [preorderAll_append, preorderAll_ofToken, hclosing, List.nil_append, List.append_nil]
      using grammatical_parseTreesAll ih _
  | @declaration kind modifiers keyword name rest hkeyword _ _ _ ihModifiers ihName ihRest =>
    rw [parseTrees]
    obtain ⟨word, hword, span, htoken⟩ := ofToken_keyword hkeyword kind.keywordRole?
      (offset + width modifiers)
    simp only [htoken, List.append_assoc, List.singleton_append]
    refine forall_preorderAll_ofParts (fun span => ?_) ?_
    · refine .declaration hword (forall_mem_ofParts fun _ => ⟨rfl, rfl⟩)
        (forall_mem_ofParts fun _ => by simp [role?]) fun p hp => ?_
      simp [(parseTreesAll_top rest _ p hp).1]
    · simp only [preorderAll_append, preorderAll_cons, preorder, List.nil_append,
        List.forall_mem_append]
      exact ⟨hphrase (by simp) (grammatical_parseTreesAll ihModifiers _),
        hphrase (by simp) (grammatical_parseTreesAll ihName _), grammatical_parseTreesAll ihRest _⟩
  | application opening closing _ _ _ ihCallee ihArguments ihClosures =>
    rw [parseTrees]
    refine hphrase (by simp) ?_
    rw [preorderAll_append, List.forall_mem_append]
    refine ⟨hphrase (by simp) (grammatical_parseTreesAll ihCallee _),
      forall_preorderAll_ofParts (fun span => .suffix (forall_mem_ofParts fun _ => rfl)
        fun p hp => (parseTreesAll_top _ _ p hp).2) ?_⟩
    rw [preorderAll_append, List.forall_mem_append]
    refine ⟨hphrase (by simp) ?_, grammatical_parseTreesAll ihClosures _⟩
    simpa only [preorderAll_append, preorderAll_ofToken, hclosing, List.nil_append, List.append_nil]
      using grammatical_parseTreesAll ihArguments _
  | closureApplication _ _ ihCallee ihClosures =>
    rw [parseTrees]
    refine hphrase (by simp) ?_
    rw [preorderAll_append, List.forall_mem_append]
    exact ⟨hphrase (by simp) (grammatical_parseTreesAll ihCallee _),
      forall_preorderAll_ofParts (fun span => @Grammatical.suffix none span [] _ (by simp)
        fun p hp => (parseTreesAll_top _ _ p hp).2) (grammatical_parseTreesAll ihClosures _)⟩
  | @argument label value _ _ ihLabel ihValue =>
    cases label with
    | nil =>
      rw [parseTrees]
      exact hphrase (by simp) (grammatical_parseTreesAll ihValue _)
    | cons label more =>
      rw [List.forall_mem_cons] at ihLabel
      rw [parseTrees]
      refine hphrase (by simp) ?_
      simp only [preorderAll_append, List.forall_mem_append]
      exact ⟨⟨hphrase (by simp) (ihLabel.1 _), grammatical_parseTreesAll ihLabel.2 _⟩,
        grammatical_parseTreesAll ihValue _⟩

end SyntaxTree

/-- **Every phrase of the parse tree of a text is grammatical.** -/
theorem grammatical_parseTree (contents : String) :
    ∀ t ∈ ParseTree.preorderAll (parseTree contents).phrases, t.Grammatical := by
  rw [ParseTree.phrases, ParseTree.preorderAll_filter_isPhrase]
  exact SyntaxTree.grammatical_parseTreesAll
    (fun t ht offset => (proper_parse contents.toList t ht).grammatical offset) 0

end SwiftStyle.Swift
