import SwiftStyle.Swift.SyntaxTree

/-!
# Swift/Nesting — brackets and quotes as groups

`nest` turns a list of tokens into a list of trees in which every bracket and every quote is a group
with the items between it and its partner. No token is lost: `leavesAll_nest`.
-/

namespace SwiftStyle.Swift

/-- A group that is not closed yet. -/
structure OpenGroup where
  opening : Token
  /-- The items before the group, last first. -/
  before : List SyntaxTree

/-- End all groups that are still open; `items` are those of the innermost, last first. -/
def endGroups : List OpenGroup → List SyntaxTree → List SyntaxTree
  | [], items => items.reverse
  | g :: groups, items => endGroups groups (.bracketed g.opening items.reverse none :: g.before)

/-- Read tokens with the open groups, innermost first, and its items, last first. A closing bracket
without a partner stays a token. -/
def nestFrom : List OpenGroup → List SyntaxTree → List Token → List SyntaxTree
  | groups, items, [] => endGroups groups items
  | groups, items, t :: rest =>
      match t.kind, groups with
      | .opening, groups => nestFrom (⟨t, items⟩ :: groups) [] rest
      | .closing, g :: groups =>
          nestFrom groups (.bracketed g.opening items.reverse (some t) :: g.before) rest
      | _, groups => nestFrom groups (.token t :: items) rest

/-- **Tokens with their brackets matched.** -/
def nest (tokens : List Token) : List SyntaxTree := nestFrom [] [] tokens

/-! ## Nothing is lost -/

/-- The tokens of open groups and of the items of the innermost. -/
def openLeaves : List OpenGroup → List SyntaxTree → List Token
  | [], items => SyntaxTree.leavesAll items.reverse
  | g :: groups, items =>
      openLeaves groups g.before ++ g.opening :: SyntaxTree.leavesAll items.reverse

theorem openLeaves_cons (groups : List OpenGroup) (tree : SyntaxTree) (items : List SyntaxTree) :
    openLeaves groups (tree :: items) = openLeaves groups items ++ tree.leaves := by
  cases groups <;> simp [openLeaves]

theorem leavesAll_endGroups (groups : List OpenGroup) (items : List SyntaxTree) :
    SyntaxTree.leavesAll (endGroups groups items) = openLeaves groups items := by
  induction groups generalizing items with
  | nil => rfl
  | cons g groups ih => simp [endGroups, ih, openLeaves_cons, openLeaves, SyntaxTree.leaves]

theorem leavesAll_nestFrom (groups : List OpenGroup) (items : List SyntaxTree)
    (tokens : List Token) :
    SyntaxTree.leavesAll (nestFrom groups items tokens) = openLeaves groups items ++ tokens := by
  fun_induction nestFrom groups items tokens with
  | case1 groups items => simp [leavesAll_endGroups]
  | case2 => simp_all [openLeaves]
  | case3 => simp_all [openLeaves_cons, openLeaves, SyntaxTree.leaves]
  | case4 => simp_all [openLeaves_cons, SyntaxTree.leaves]

/-- **Matching brackets keeps every token in its place.** -/
theorem leavesAll_nest (tokens : List Token) : SyntaxTree.leavesAll (nest tokens) = tokens := by
  simp [nest, leavesAll_nestFrom, openLeaves]

end SwiftStyle.Swift
