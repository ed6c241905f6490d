/-!
# Swift/ParseTree — phrases and tokens

A parse tree says what the phrases of a text are and where they lie. Punctuation and words are
tokens, without anything inside; a phrase has a kind and parts. A part may have a `Role` in the
phrase around it.
-/

namespace SwiftStyle.Swift

/-- A range of bytes. -/
structure Span where
  start : Nat
  stop : Nat
deriving DecidableEq, Repr, Inhabited

/-- The kinds of phrases that count for the structure of a file. -/
inductive PhraseKind
  | protocolDeclaration
  /-- A class, actor, struct, enumeration or extension. -/
  | typeDeclaration
  | functionDeclaration
  /-- A function that a protocol asks for. -/
  | functionRequirement
  | callExpression
  /-- What stands after a callee: a list of arguments, closures, or both. -/
  | callSuffix
  /-- A list of arguments or of indices, with its brackets. -/
  | valueArguments
  | valueArgument
  | other
deriving DecidableEq, Repr, Inhabited

/-- What a part is to the phrase around it. -/
inductive Role
  /-- The word that tells which kind of type is declared. -/
  | keyword
  /-- The name of a declaration, or the label of an argument. -/
  | name
deriving DecidableEq, Repr

/-- A tree of phrases and tokens. -/
inductive ParseTree where
  | token (role : Option Role) (text : String) (span : Span)
  | phrase (role : Option Role) (kind : PhraseKind) (span : Span) (parts : List ParseTree)
deriving Repr, Inhabited

namespace ParseTree

/-- Where the tree lies in the text. -/
def span : ParseTree → Span
  | token _ _ span => span
  | phrase _ _ span _ => span

/-- What the tree is to the phrase around it. -/
def role? : ParseTree → Option Role
  | token role _ _ => role
  | phrase role _ _ _ => role

/-- The text of a token. -/
def word? : ParseTree → Option String
  | token _ text _ => some text
  | phrase _ _ _ _ => none

/-- The kind of a phrase. -/
def kind? : ParseTree → Option PhraseKind
  | token _ _ _ => none
  | phrase _ kind _ _ => some kind

/-- The parts of a phrase, in the order of the text. -/
def parts : ParseTree → List ParseTree
  | token _ _ _ => []
  | phrase _ _ _ parts => parts

/-- Whether the tree is a phrase. -/
def isPhrase (t : ParseTree) : Bool := t.kind?.isSome

/-- Whether the tree is a phrase of a kind. -/
def isOf (t : ParseTree) (kind : PhraseKind) : Bool := t.kind? == some kind

/-- The phrases among the parts. -/
def phrases (t : ParseTree) : List ParseTree := t.parts.filter isPhrase

/-- The first part with a role. -/
def part? (t : ParseTree) (role : Role) : Option ParseTree :=
  t.parts.find? (·.role? == some role)

mutual

/-- Number of tokens and phrases of a tree. -/
def size : ParseTree → Nat
  | token _ _ _ => 1
  | phrase _ _ _ parts => 1 + sizeAll parts

/-- Number of tokens and phrases of a list of trees. -/
def sizeAll : List ParseTree → Nat
  | [] => 0
  | t :: rest => t.size + sizeAll rest

end

theorem size_eq (t : ParseTree) : t.size = 1 + sizeAll t.parts := by
  cases t <;> simp [size, parts, sizeAll]

@[simp] theorem sizeAll_nil : sizeAll [] = 0 := by rw [sizeAll]

@[simp] theorem sizeAll_cons (t : ParseTree) (rest : List ParseTree) :
    sizeAll (t :: rest) = t.size + sizeAll rest := by rw [sizeAll]

@[simp] theorem sizeAll_append (l l' : List ParseTree) :
    sizeAll (l ++ l') = sizeAll l + sizeAll l' := by
  induction l with
  | nil => simp
  | cons t rest ih => simp [ih, Nat.add_assoc]

theorem sizeAll_sublist {l l' : List ParseTree} (h : l.Sublist l') : sizeAll l ≤ sizeAll l' := by
  induction h with
  | slnil => exact Nat.le_refl _
  | cons t _ ih => rw [sizeAll]; omega
  | cons_cons t _ ih => rw [sizeAll, sizeAll]; omega

/-- **The phrases in a tree are smaller than the tree.** -/
theorem sizeAll_phrases_lt (t : ParseTree) : sizeAll t.phrases < t.size := by
  have hle := sizeAll_sublist (List.filter_sublist (p := isPhrase) (l := t.parts))
  rw [size_eq, phrases]
  omega

end ParseTree

end SwiftStyle.Swift
