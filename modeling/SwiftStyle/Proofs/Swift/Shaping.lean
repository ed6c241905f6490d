import SwiftStyle.Proofs.Swift.Tokens
import SwiftStyle.Swift.Parser

/-!
# Proofs/Swift/Shaping — the parser keeps every token in its place

Giving shape to items puts brackets around some of them, and nothing else: the tokens stay in the
order of the text, and every declaration is put around a keyword of its kind.  `Reshapes` is this
relation between items and what they become.  It composes and goes through lists, so each function
of the parser needs no more than what it does itself (`Shaper.reshapes_…`), and the whole parser
follows by induction on its fuel (`reshapes_shape`).  Hence the characters of the trees of a text are
the text (`characters_parse`), and the trees are `Proper` (`proper_parse`).
-/

namespace SwiftStyle.Swift

/-- The words that introduce a declaration of a kind. -/
def DeclaredKind.words : DeclaredKind → List String
  | protocol => ["protocol"]
  | classType => ["class", "actor"]
  | structType => ["struct"]
  | enumType => ["enum"]
  | extension => ["extension"]
  | function => ["func"]

namespace SyntaxTree

/-- **Every declaration in a tree has a keyword of its kind.** -/
inductive Proper : SyntaxTree → Prop
  | token (t : Token) : Proper (token t)
  | bracketed (opening : Token) {items : List SyntaxTree} (closing : Option Token)
      (items_ : ∀ t ∈ items, Proper t) : Proper (bracketed opening items closing)
  | declaration {kind : DeclaredKind} {modifiers : List SyntaxTree} {keyword : Token}
      {name rest : List SyntaxTree} (keyword_ : keyword.readsOneOf kind.words)
      (modifiers_ : ∀ t ∈ modifiers, Proper t) (name_ : ∀ t ∈ name, Proper t)
      (rest_ : ∀ t ∈ rest, Proper t) : Proper (declaration kind modifiers keyword name rest)
  | application {callee : List SyntaxTree} (opening : Token) {arguments : List SyntaxTree}
      (closing : Option Token) {closures : List SyntaxTree} (callee_ : ∀ t ∈ callee, Proper t)
      (arguments_ : ∀ t ∈ arguments, Proper t) (closures_ : ∀ t ∈ closures, Proper t) :
      Proper (application callee opening arguments closing closures)
  | closureApplication {callee closures : List SyntaxTree} (callee_ : ∀ t ∈ callee, Proper t)
      (closures_ : ∀ t ∈ closures, Proper t) : Proper (closureApplication callee closures)
  | argument {label value : List SyntaxTree} (label_ : ∀ t ∈ label, Proper t)
      (value_ : ∀ t ∈ value, Proper t) : Proper (argument label value)

/-- **What shaping does**: tokens keep their places, and declarations their keywords. -/
structure Reshapes (source result : List SyntaxTree) : Prop where
  leaves : leavesAll result = leavesAll source
  proper : (∀ t ∈ source, t.Proper) → ∀ t ∈ result, t.Proper

namespace Reshapes

variable {a b c a' b' : List SyntaxTree}

theorem refl (items : List SyntaxTree) : Reshapes items items := ⟨rfl, id⟩

theorem of_eq (h : a = b) : Reshapes a b := h ▸ refl a

theorem trans (h : Reshapes a b) (h' : Reshapes b c) : Reshapes a c :=
  ⟨h'.leaves.trans h.leaves, fun ha => h'.proper (h.proper ha)⟩

theorem append (h : Reshapes a b) (h' : Reshapes a' b') : Reshapes (a ++ a') (b ++ b') where
  leaves := by simp only [leavesAll_append, h.leaves, h'.leaves]
  proper ha := by
    rw [List.forall_mem_append] at ha ⊢
    exact ⟨h.proper ha.1, h'.proper ha.2⟩

theorem append_left (h : Reshapes a b) (l : List SyntaxTree) : Reshapes (l ++ a) (l ++ b) :=
  (refl l).append h

theorem append_right (h : Reshapes a b) (l : List SyntaxTree) : Reshapes (a ++ l) (b ++ l) :=
  h.append (refl l)

theorem cons (h : Reshapes a b) (t : SyntaxTree) : Reshapes (t :: a) (t :: b) :=
  h.append_left [t]

/-- One item after the other. -/
theorem map {f : SyntaxTree → SyntaxTree} (h : ∀ t, Reshapes [t] [f t]) (l : List SyntaxTree) :
    Reshapes l (l.map f) := by
  induction l with
  | nil => exact refl []
  | cons t l ih => exact (h t).append ih

/-! Trees are put around items. -/

theorem bracketed (h : Reshapes a b) (opening : Token) (closing : Option Token) :
    Reshapes [.bracketed opening a closing] [.bracketed opening b closing] where
  leaves := by simp only [leavesAll_cons, SyntaxTree.leaves, h.leaves]
  proper ha := by
    rw [List.forall_mem_singleton] at ha ⊢
    cases ha with
    | bracketed _ _ ha => exact .bracketed opening closing (h.proper ha)

theorem declaration {kind : DeclaredKind} {keyword : Token}
    (hkeyword : keyword.readsOneOf kind.words)
    {modifiers name rest : List SyntaxTree} (hmodifiers : Reshapes a modifiers)
    (hname : Reshapes b name) (hrest : Reshapes c rest) :
    Reshapes (a ++ .token keyword :: (b ++ c))
      [.declaration kind modifiers keyword name rest] where
  leaves := by simp [SyntaxTree.leaves, hmodifiers.leaves, hname.leaves, hrest.leaves]
  proper ha := by
    simp only [List.forall_mem_append, List.forall_mem_cons] at ha
    obtain ⟨ha, _, hb, hc⟩ := ha
    rw [List.forall_mem_singleton]
    exact .declaration hkeyword (hmodifiers.proper ha) (hname.proper hb) (hrest.proper hc)

theorem application {callee arguments closures : List SyntaxTree} (hcallee : Reshapes a callee)
    (harguments : Reshapes b arguments) (hclosures : Reshapes c closures) (opening : Token)
    (closing : Option Token) :
    Reshapes (a ++ .bracketed opening b closing :: c)
      [.application callee opening arguments closing closures] where
  leaves := by simp [SyntaxTree.leaves, hcallee.leaves, harguments.leaves, hclosures.leaves]
  proper ha := by
    simp only [List.forall_mem_append, List.forall_mem_cons] at ha
    obtain ⟨ha, hb, hc⟩ := ha
    rw [List.forall_mem_singleton]
    cases hb with
    | bracketed _ _ hb =>
      exact .application opening closing (hcallee.proper ha) (harguments.proper hb)
        (hclosures.proper hc)

theorem closureApplication {callee closures : List SyntaxTree} (hcallee : Reshapes a callee)
    (hclosures : Reshapes b closures) :
    Reshapes (a ++ b) [.closureApplication callee closures] where
  leaves := by simp [SyntaxTree.leaves, hcallee.leaves, hclosures.leaves]
  proper ha := by
    rw [List.forall_mem_append] at ha
    rw [List.forall_mem_singleton]
    exact .closureApplication (hcallee.proper ha.1) (hclosures.proper ha.2)

theorem argument {label value : List SyntaxTree} (hlabel : Reshapes a label)
    (hvalue : Reshapes b value) : Reshapes (a ++ b) [.argument label value] where
  leaves := by simp [SyntaxTree.leaves, hlabel.leaves, hvalue.leaves]
  proper ha := by
    rw [List.forall_mem_append] at ha
    rw [List.forall_mem_singleton]
    exact .argument (hlabel.proper ha.1) (hvalue.proper ha.2)

end Reshapes

/-! ## Items taken off the front

These readers build nothing: what they take and what they leave are the items. -/

theorem closureHeader_append (items : List SyntaxTree) :
    (closureHeader items).1 ++ (closureHeader items).2 = items := by
  fun_induction closureHeader items <;> simp_all

theorem signature_append (last : Option SyntaxTree) (items : List SyntaxTree) :
    (signature last items).1 ++ (signature last items).2 = items := by
  fun_induction signature last items <;> simp_all

theorem enumCases_append (last : Option SyntaxTree) (items : List SyntaxTree) :
    (enumCases last items).1 ++ (enumCases last items).2 = items := by
  fun_induction enumCases last items <;> simp_all

/-- A reader that takes one more item. -/
theorem append_of_map_cons {read : Option (List SyntaxTree × List SyntaxTree)} {item : SyntaxTree}
    {items taken rest : List SyntaxTree}
    (hread : ∀ taken rest, read = some (taken, rest) → taken ++ rest = items)
    (h : read.map (fun r => (item :: r.1, r.2)) = some (taken, rest)) :
    taken ++ rest = item :: items := by
  obtain ⟨⟨more, after⟩, hmore, heq⟩ := Option.map_eq_some_iff.1 h
  obtain ⟨rfl, rfl⟩ := Prod.mk.inj heq
  rw [List.cons_append, hread more after hmore]

theorem typeBody?_append {items taken rest : List SyntaxTree}
    (h : typeBody? items = some (taken, rest)) : taken ++ rest = items := by
  fun_induction typeBody? items generalizing taken rest with
  | case1 => cases h
  | case2 item items _ =>
    obtain ⟨rfl, rfl⟩ := Prod.mk.inj (Option.some.inj h)
    rfl
  | case3 => cases h
  | case4 item items _ _ ih => exact append_of_map_cons (fun _ _ => ih) h

theorem typeList?_append {depth : Nat} {items taken rest : List SyntaxTree}
    (h : typeList? depth items = some (taken, rest)) : taken ++ rest = items := by
  induction items generalizing depth taken rest with
  | nil => cases h
  | cons item items ih =>
    rw [typeList?.eq_def] at h
    simp only at h
    split at h
    · exact append_of_map_cons (fun _ _ => ih) h
    split at h
    · cases depth with
      | zero =>
        obtain ⟨rfl, rfl⟩ := Prod.mk.inj (Option.some.inj h)
        rfl
      | succ depth => exact append_of_map_cons (fun _ _ => ih) h
    split at h
    · exact append_of_map_cons (fun _ _ => ih) h
    · cases h

theorem genericClause?_append {items taken rest : List SyntaxTree}
    (h : genericClause? items = some (taken, rest)) : taken ++ rest = items := by
  cases items with
  | nil => cases h
  | cons item items =>
    rw [genericClause?] at h
    split at h
    · split at h
      · next types after hread =>
        have hsome : some (item :: types, after) = some (taken, rest) := by
          split at h
          · split at h
            · cases h
            · exact h
          · exact h
        obtain ⟨rfl, rfl⟩ := Prod.mk.inj (Option.some.inj hsome)
        rw [List.cons_append, typeList?_append hread]
      · cases h
    · cases h

theorem flatten_cutAtCommas (skip : Nat) (items : List SyntaxTree) :
    (cutAtCommas skip items).flatten = items := by
  fun_induction cutAtCommas skip items <;> simp_all

theorem splitLabel_append (items : List SyntaxTree) :
    (splitLabel items).1 ++ (splitLabel items).2 = items := by
  unfold splitLabel
  split
  · split <;> rfl
  · rfl

theorem prefix_functionName (items : List SyntaxTree) : functionName items <+: items := by
  unfold functionName
  split
  · next item rest =>
    split
    · exact (List.prefix_cons_inj item).2 (List.takeWhile_prefix _)
    · exact ⟨rest, rfl⟩
  · exact List.nil_prefix

end SyntaxTree

open SyntaxTree

namespace Shaper

/-- A shaping of lists that loses nothing, in every context. -/
def Faithful (shape : Shaper) : Prop := ∀ ctx items, Reshapes items (shape ctx items)

section Functions

variable {shape : Shaper} (hshape : shape.Faithful)
include hshape

/-! ## Groups -/

omit hshape in
theorem reshapes_mapItems {f : List SyntaxTree → List SyntaxTree}
    (hf : ∀ items, Reshapes items (f items)) (item : SyntaxTree) :
    Reshapes [item] [item.mapItems f] := by
  cases item with
  | bracketed opening items closing => exact (hf items).bracketed opening closing
  | _ => exact .refl _

theorem reshapes_list (item : SyntaxTree) : Reshapes [item] [shape.list item] :=
  reshapes_mapItems (hshape _) item

theorem reshapes_patterns (item : SyntaxTree) : Reshapes [item] [shape.patterns item] :=
  reshapes_mapItems (hshape _) item

theorem reshapes_body (site : Site) (item : SyntaxTree) :
    Reshapes [item] [shape.body site item] := by
  refine reshapes_mapItems (fun items => ?_) item
  exact (Reshapes.of_eq (closureHeader_append items).symm).trans
    ((Reshapes.map (reshapes_list hshape) _).append (hshape _ _))

theorem reshapes_group (item : SyntaxTree) : Reshapes [item] [shape.group item] := by
  rw [group]
  split
  · exact reshapes_body hshape .block item
  · exact reshapes_list hshape item

/-! ## Arguments and closures -/

theorem reshapes_argument (items : List SyntaxTree) : Reshapes items (shape.argument items) := by
  cases items with
  | nil => exact .refl []
  | cons item items =>
    have hsplit := splitLabel_append (item :: items)
    exact (Reshapes.of_eq hsplit.symm).trans (.argument (.refl _) (hshape _ _))

theorem reshapes_arguments (items : List SyntaxTree) :
    Reshapes items (shape.arguments items) := by
  rw [arguments]
  have hpieces := flatten_cutAtCommas 0 items
  generalize cutAtCommas 0 items = pieces at hpieces ⊢
  subst hpieces
  induction pieces with
  | nil => exact .refl []
  | cons piece pieces ih =>
    refine Reshapes.append ?_ ih
    cases piece with
    | nil => exact .refl []
    | cons comma rest =>
      simp only
      split
      · exact (reshapes_argument hshape rest).cons comma
      · exact reshapes_argument hshape _

theorem reshapes_labelledClosures (items : List SyntaxTree) :
    Reshapes items ((shape.labelledClosures items).1 ++ (shape.labelledClosures items).2) := by
  fun_induction labelledClosures shape items with
  | case1 label colon brace rest _ more after hmore ih =>
    rw [hmore] at ih
    exact (((reshapes_body hshape .block brace).append ih).cons colon).cons label
  | case2 => exact .refl _
  | case3 => exact .refl _

theorem reshapes_trailingClosures (ctx : Context) (items : List SyntaxTree) :
    Reshapes items
      ((shape.trailingClosures ctx items).1 ++ (shape.trailingClosures ctx items).2) := by
  cases items with
  | nil => exact .refl []
  | cons brace rest =>
    rw [trailingClosures]
    split
    · exact (reshapes_body hshape .block brace).append (reshapes_labelledClosures hshape rest)
    · exact .refl _

/-! ## Expressions -/

theorem reshapes_apply (ctx : Context) (callee : List SyntaxTree) (group : SyntaxTree)
    (rest : List SyntaxTree) :
    Reshapes (callee ++ group :: rest)
      ((shape.apply ctx callee group rest).1 ++ (shape.apply ctx callee group rest).2) := by
  cases group with
  | bracketed opening items closing =>
    rw [apply]
    split
    · have hclosures := reshapes_trailingClosures hshape ctx rest
      have happlied := Reshapes.application (.refl callee) (reshapes_arguments hshape items)
        (.refl (shape.trailingClosures ctx rest).1) opening closing
      have hrest := (hclosures.cons (.bracketed opening items closing)).append_left callee
      exact hrest.trans ((Reshapes.of_eq (by simp)).trans (happlied.append_right _))
    · have happlied := Reshapes.application (.refl callee) (hshape { site := .list } items)
        (.refl []) opening closing
      exact (Reshapes.of_eq (by simp)).trans (happlied.append_right rest)
  | _ => exact .of_eq (by simp [apply])

theorem reshapes_suffix? {ctx : Context} {callee items parts rest : List SyntaxTree}
    (h : shape.suffix? ctx callee items = some (parts, rest)) :
    Reshapes (callee ++ items) (parts ++ rest) := by
  cases items with
  | nil => cases h
  | cons item items =>
    rw [suffix?.eq_def] at h
    simp only at h
    split at h
    · -- a member
      split at h
      · split at h
        · obtain ⟨rfl, rfl⟩ := Prod.mk.inj (Option.some.inj h)
          exact .of_eq (by simp)
        · cases h
      · cases h
    split at h
    · -- an optional mark
      obtain ⟨rfl, rfl⟩ := Prod.mk.inj (Option.some.inj h)
      exact .of_eq (by simp)
    split at h
    · -- a generic clause, with the group that belongs to it
      obtain ⟨⟨clause, after⟩, hclause, h⟩ := Option.map_eq_some_iff.1 h
      have htyped :
          Reshapes (callee ++ item :: items) (callee ++ clause.map shape.list ++ after) := by
        rw [← genericClause?_append hclause, ← List.append_assoc]
        exact ((Reshapes.map (reshapes_list hshape) clause).append_left callee).append_right after
      cases after with
      | nil =>
        obtain ⟨rfl, rfl⟩ := Prod.mk.inj h
        exact htyped
      | cons group after =>
        simp only at h
        split at h
        · obtain ⟨rfl, rfl⟩ := Prod.mk.inj h
          refine htyped.trans ?_
          rw [List.append_assoc _ [shape.list group]]
          exact ((reshapes_list hshape group).append_right after).append_left _
        · obtain ⟨rfl, rfl⟩ := Prod.mk.inj h
          exact htyped
    split at h
    · -- a list in parentheses
      split at h
      · obtain ⟨rfl, rfl⟩ := Prod.mk.inj (Option.some.inj h)
        rw [List.append_assoc]
        exact ((reshapes_patterns hshape item).append_right items).append_left callee
      · have happlied := reshapes_apply hshape ctx callee item items
        rwa [Option.some.inj h] at happlied
    split at h
    · -- a list in square brackets
      have happlied := reshapes_apply hshape ctx callee item items
      rwa [Option.some.inj h] at happlied
    · -- closures alone
      have hclosures := reshapes_trailingClosures hshape ctx (item :: items)
      split at h
      · cases h
      · next closures after _ hread =>
        obtain ⟨rfl, rfl⟩ := Prod.mk.inj (Option.some.inj h)
        rw [hread] at hclosures
        refine (hclosures.append_left callee).trans ?_
        rw [← List.append_assoc]
        exact (Reshapes.closureApplication (.refl callee) (.refl closures)).append_right after

theorem reshapes_chain (ctx : Context) (fuel : Nat) (callee items : List SyntaxTree) :
    Reshapes (callee ++ items)
      ((shape.chain ctx fuel callee items).1 ++ (shape.chain ctx fuel callee items).2) := by
  induction fuel generalizing callee items with
  | zero => exact .refl _
  | succ fuel ih =>
    rw [chain]
    split
    · next hsuffix => exact (reshapes_suffix? hshape hsuffix).trans (ih _ _)
    · exact .refl _

theorem reshapes_primary? {ctx : Context} {items parts rest : List SyntaxTree}
    (h : shape.primary? ctx items = some (parts, rest)) : Reshapes items (parts ++ rest) := by
  cases items with
  | nil => cases h
  | cons item items =>
    rw [primary?.eq_def] at h
    simp only at h
    split at h
    · obtain ⟨rfl, rfl⟩ := Prod.mk.inj (Option.some.inj h)
      exact .refl _
    split at h
    · split at h
      · split at h
        · obtain ⟨rfl, rfl⟩ := Prod.mk.inj (Option.some.inj h)
          exact .refl _
        · cases h
      · cases h
    split at h
    · obtain ⟨rfl, rfl⟩ := Prod.mk.inj (Option.some.inj h)
      exact (reshapes_patterns hshape item).append_right _
    split at h
    · obtain ⟨rfl, rfl⟩ := Prod.mk.inj (Option.some.inj h)
      exact (reshapes_group hshape _).append_right _
    · cases h

theorem reshapes_expression? {ctx : Context} {items parts rest : List SyntaxTree}
    (h : shape.expression? ctx items = some (parts, rest)) : Reshapes items (parts ++ rest) := by
  obtain ⟨⟨first, after⟩, hfirst, h⟩ := Option.map_eq_some_iff.1 h
  have hchain := reshapes_chain hshape ctx after.length first after
  simp only at h
  rw [h] at hchain
  exact (reshapes_primary? hshape hfirst).trans hchain

/-! ## Declarations -/

theorem reshapes_typeDeclaration? {modifiers items after : List SyntaxTree} {kind : DeclaredKind}
    {keyword : Token} {tree : SyntaxTree} (hkeyword : keyword.readsOneOf kind.words)
    (h : shape.typeDeclaration? modifiers kind keyword items = some (tree, after)) :
    Reshapes (modifiers ++ .token keyword :: items) (tree :: after) := by
  obtain ⟨⟨rest, after'⟩, hbody, h⟩ := Option.bind_eq_some_iff.1 h
  obtain ⟨rfl, rfl⟩ := Prod.mk.inj (Option.some.inj h)
  generalize hname : (if kind = .extension then extensionName items else items.take 1) = name at *
  have hprefix : name <+: items := by
    rw [← hname]
    split
    · exact List.takeWhile_prefix _
    · exact List.take_prefix _ _
  have hitems := List.prefix_iff_eq_append.1 hprefix
  rw [← typeBody?_append hbody] at hitems
  have hrest := Reshapes.map (f := fun item =>
    if item.isBraced then shape.body (if kind = .enumType then .enumBody else .block) item
    else shape.list item) (fun item => by
      split
      · exact reshapes_body hshape _ item
      · exact reshapes_list hshape item) rest
  have hdeclared := Reshapes.declaration hkeyword (.map (reshapes_list hshape) modifiers)
    (.refl name) hrest
  rw [← hitems]
  exact (Reshapes.of_eq (by simp)).trans (hdeclared.append_right _)

theorem reshapes_functionDeclaration (modifiers items : List SyntaxTree) {keyword : Token}
    (hkeyword : keyword.reads "func") :
    Reshapes (modifiers ++ .token keyword :: items)
      ((shape.functionDeclaration modifiers keyword items).1
        :: (shape.functionDeclaration modifiers keyword items).2) := by
  have hitems := List.prefix_iff_eq_append.1 (prefix_functionName items)
  have hsignature := signature_append none (items.drop (functionName items).length)
  have hkeyword : keyword.readsOneOf DeclaredKind.function.words := by
    simp [Token.readsOneOf, DeclaredKind.words, hkeyword]
  have hdeclared := Reshapes.declaration hkeyword (.map (reshapes_list hshape) modifiers)
    (.refl (functionName items)) (.map (reshapes_group hshape)
      (signature none (items.drop (functionName items).length)).1)
  rw [← hsignature] at hitems
  refine (Reshapes.of_eq ?_).trans (hdeclared.append_right
    (signature none (items.drop (functionName items).length)).2)
  simpa using hitems.symm

omit hshape in
/-- A type is declared by a word of its kind. -/
theorem readsOneOf_of_typeKind? {keyword : Token} {kind : DeclaredKind}
    (h : typeKind? (.token keyword) = some kind) : keyword.readsOneOf kind.words := by
  unfold typeKind? at h
  repeat' split at h
  all_goals cases h
  all_goals simp_all [Token.readsOneOf, DeclaredKind.words, SyntaxTree.reads]

theorem reshapes_declaration? {items after : List SyntaxTree} {tree : SyntaxTree}
    (h : shape.declaration? items = some (tree, after)) : Reshapes items (tree :: after) := by
  have hitems := List.take_append_drop (leadSpan true .start items) items
  simp only [declaration?] at h
  generalize items.drop (leadSpan true .start items) = dropped at h hitems
  cases dropped with
  | nil => cases h
  | cons item rest =>
    cases item with
    | token keyword =>
      rw [← hitems]
      simp only at h
      split at h
      · next hfunc =>
        have hdeclared := reshapes_functionDeclaration hshape
          (items.take (leadSpan true .start items)) rest hfunc
        rwa [Option.some.inj h] at hdeclared
      split at h
      · cases h
      · obtain ⟨kind, hkind, h⟩ := Option.bind_eq_some_iff.1 h
        exact reshapes_typeDeclaration? hshape (readsOneOf_of_typeKind? hkind) h
    | _ => cases h

/-! ## Steps -/

theorem reshapes_plain (ctx : Context) (items rest : List SyntaxTree) :
    Reshapes (items ++ rest)
      ((shape.plain ctx items rest).parts ++ (shape.plain ctx items rest).rest) :=
  (Reshapes.map (reshapes_list hshape) items).append_right rest

theorem reshapes_repeatLoop (ctx : Context) (item : SyntaxTree) (items : List SyntaxTree) :
    Reshapes (item :: items)
      ((shape.repeatLoop ctx item items).parts ++ (shape.repeatLoop ctx item items).rest) := by
  unfold repeatLoop
  split
  · next brace condition rest =>
    split
    · exact ((reshapes_body hshape .block brace).append_right (condition :: rest)).cons item
    · exact .refl _
  · exact .refl _

theorem reshapes_accessor? {ctx : Context} {items : List SyntaxTree} {step : Step}
    (h : shape.accessor? ctx items = some step) : Reshapes items (step.parts ++ step.rest) := by
  unfold accessor? at h
  split at h
  · next name parameter brace rest =>
    split at h
    · obtain rfl := Option.some.inj h
      exact (((reshapes_body hshape .block brace).append_right rest).cons parameter).cons name
    · cases h
  · cases h

theorem reshapes_lead? {ctx : Context} {items : List SyntaxTree} {step : Step}
    (h : shape.lead? ctx items = some step) : Reshapes items (step.parts ++ step.rest) := by
  have hcut : ∀ n, Reshapes items ((shape.plain ctx (items.take n) (items.drop n)).parts
      ++ (shape.plain ctx (items.take n) (items.drop n)).rest) := fun n => by
    have hplain := reshapes_plain hshape ctx (items.take n) (items.drop n)
    rwa [List.take_append_drop] at hplain
  simp only [lead?] at h
  split at h
  · exact Option.some.inj h ▸ hcut _
  split at h
  · exact Option.some.inj h ▸ hcut _
  cases items with
  | nil => cases h
  | cons item rest =>
    simp only at h
    split at h
    · -- an import
      generalize hline : rest.takeWhile (fun next =>
        !(next.startsLine || next.reads ";" || next.isToken .finish)) = line at h
      have hrest := List.prefix_iff_eq_append.1 (hline ▸ List.takeWhile_prefix _)
      obtain rfl := Option.some.inj h
      have hplain := reshapes_plain hshape ctx (item :: line) (rest.drop line.length)
      rwa [List.cons_append, hrest] at hplain
    split at h
    · -- the cases of an enumeration
      obtain rfl := Option.some.inj h
      have hplain := reshapes_plain hshape ctx (item :: (enumCases none rest).1)
        (enumCases none rest).2
      rwa [List.cons_append, enumCases_append] at hplain
    · cases h

/-- **One step of the parser loses nothing.** -/
theorem reshapes_next (ctx : Context) (item : SyntaxTree) (items : List SyntaxTree) :
    Reshapes (item :: items)
      ((shape.next ctx item items).parts ++ (shape.next ctx item items).rest) := by
  simp only [next]
  split
  · next hdeclaration =>
    split at hdeclaration
    · cases hdeclaration
    · exact reshapes_declaration? hshape hdeclaration
  split
  · next hstep =>
    rcases Option.or_eq_some_iff.1 hstep with h | ⟨_, h⟩
    · exact reshapes_accessor? hshape h
    · exact reshapes_lead? hshape h
  split
  · exact reshapes_repeatLoop hshape ctx item items
  split
  · exact (reshapes_body hshape .block item).append_right items
  split
  · next hexpression => exact reshapes_expression? hshape hexpression
  · exact .refl _

end Functions

end Shaper

/-- **The parser loses nothing.** -/
theorem reshapes_shape (fuel : Nat) : Shaper.Faithful (shape fuel) := by
  induction fuel with
  | zero => exact fun ctx items => .refl items
  | succ fuel ih =>
    intro ctx items
    cases items with
    | nil => exact .refl []
    | cons item items =>
      have hstep := Shaper.reshapes_next ih ctx item items
      exact hstep.trans ((ih _ _).append_left _)

/-! ## The trees of a text -/

theorem proper_endGroups {groups : List OpenGroup} {items : List SyntaxTree}
    (hgroups : ∀ g ∈ groups, ∀ t ∈ g.before, t.Proper) (hitems : ∀ t ∈ items, t.Proper) :
    ∀ t ∈ endGroups groups items, t.Proper := by
  induction groups generalizing items with
  | nil => simpa [endGroups] using hitems
  | cons g groups ih =>
    rw [List.forall_mem_cons] at hgroups
    refine ih hgroups.2 (List.forall_mem_cons.2 ⟨?_, hgroups.1⟩)
    exact .bracketed g.opening none (by simpa using hitems)

theorem proper_nestFrom {groups : List OpenGroup} {items : List SyntaxTree} (tokens : List Token)
    (hgroups : ∀ g ∈ groups, ∀ t ∈ g.before, t.Proper) (hitems : ∀ t ∈ items, t.Proper) :
    ∀ t ∈ nestFrom groups items tokens, t.Proper := by
  fun_induction nestFrom groups items tokens with
  | case1 => exact proper_endGroups hgroups hitems
  | case2 groups items t rest _ ih => exact ih (List.forall_mem_cons.2 ⟨hitems, hgroups⟩) (by simp)
  | case3 items t rest g groups _ ih =>
    rw [List.forall_mem_cons] at hgroups
    refine ih hgroups.2 (List.forall_mem_cons.2 ⟨?_, hgroups.1⟩)
    exact .bracketed g.opening (some t) (by simpa using hitems)
  | case4 items t rest groups _ _ ih => exact ih hgroups (List.forall_mem_cons.2 ⟨.token t, hitems⟩)

theorem reshapes_parse (text : List Char) : Reshapes (nest (tokens text)) (parse text) :=
  reshapes_shape _ _ _

/-- **The trees of a text, written out, are the text.** -/
theorem characters_parse (text : List Char) : characters (parse text) = text := by
  rw [characters, (reshapes_parse text).leaves, leavesAll_nest, flatMap_tokens]

/-- **Every declaration of a text has a keyword of its kind.** -/
theorem proper_parse (text : List Char) : ∀ t ∈ parse text, t.Proper :=
  (reshapes_parse text).proper (proper_nestFrom _ (by simp) (by simp))

end SwiftStyle.Swift
