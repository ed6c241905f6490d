import SwiftStyle.Swift.Parser.Group

/-!
# Swift/Parser/Expression — callees, calls and what follows them

An expression grows to the right: `chain` adds member names, optional marks, generic clauses,
subscripts, argument lists and closures to what stands before them, as long as there are any.
-/

namespace SwiftStyle.Swift

namespace SyntaxTree

/-! ## Generic clauses -/

/-- Whether an item may stand in a list of types. -/
def isTypeItem (item : SyntaxTree) : Bool :=
  item.isToken .word || item.isParenthesised || item.opens "["
    || item.readsOneOf [".", ",", ":", "?", "!", "&", "->", "@", "...", "=", "=="]

/-- A list of types after its `<`, up to the `>` that ends it, and what follows; `depth` further
ones are open. -/
def typeList? : Nat → List SyntaxTree → Option (List SyntaxTree × List SyntaxTree)
  | _, [] => none
  | depth, item :: rest =>
      let add := fun (r : List SyntaxTree × List SyntaxTree) => (item :: r.1, r.2)
      if item.reads "<" then (typeList? (depth + 1) rest).map add
      else if item.reads ">" then
        match depth with
        | 0 => some ([item], rest)
        | depth + 1 => (typeList? depth rest).map add
      else if item.isTypeItem then (typeList? depth rest).map add
      else none

/-- A generic clause in front of items. What follows it does not continue an expression on the same
line. -/
def genericClause? : List SyntaxTree → Option (List SyntaxTree × List SyntaxTree)
  | [] => none
  | item :: rest =>
      if item.reads "<" && item.isGlued then
        match typeList? 0 rest with
        | some (types, after) =>
            match after with
            | next :: _ =>
                if (next.isToken .word || next.isToken .number) && !next.startsLine
                    && !next.isReserved then none
                else some (item :: types, after)
            | [] => some (item :: types, after)
        | none => none
      else none

/-! ## Arguments -/

/-- The number of items of the generic clause in front of items. -/
def clauseLength (items : List SyntaxTree) : Nat :=
  ((genericClause? items).map (·.1.length)).getD 0

/-- Cut items at the commas that do not stand in a generic clause; `skip` is the number of items in
front that are known to belong to one. Each comma opens its piece. -/
def cutAtCommas : Nat → List SyntaxTree → List (List SyntaxTree)
  | _, [] => [[]]
  | skip, item :: rest =>
      let inside := if skip = 0 then clauseLength (item :: rest) else skip
      match cutAtCommas (inside - 1) rest with
      | [] => [[item]]
      | piece :: pieces =>
          if inside = 0 && item.reads "," then [] :: (item :: piece) :: pieces
          else (item :: piece) :: pieces

/-- Whether items are the name of a function with its labels and nothing else: `a:b:`. -/
def isLabelList : List SyntaxTree → Bool
  | [label, colon] => label.isToken .word && colon.reads ":"
  | label :: colon :: rest => label.isToken .word && colon.reads ":" && isLabelList rest
  | _ => false

/-- The label of an argument, with its colon, and its value. -/
def splitLabel (items : List SyntaxTree) : List SyntaxTree × List SyntaxTree :=
  match items with
  | label :: colon :: value =>
      if label.isToken .word && colon.reads ":" && !isLabelList items then ([label, colon], value)
      else ([], items)
  | _ => ([], items)

end SyntaxTree

namespace Shaper

open SyntaxTree

variable (shape : Shaper)

/-- The argument that a piece of a list makes; nothing for an empty piece. -/
def argument (items : List SyntaxTree) : List SyntaxTree :=
  match items with
  | [] => []
  | _ =>
      let (label, value) := splitLabel items
      [.argument label (shape { site := .list } value)]

/-- The pieces of an argument list: its commas and its arguments. -/
def arguments (items : List SyntaxTree) : List SyntaxTree :=
  (cutAtCommas 0 items).flatMap fun piece =>
    match piece with
    | comma :: rest =>
        if comma.reads "," then comma :: shape.argument rest else shape.argument piece
    | [] => []

/-! ## Suffixes -/

/-- Further closures after a closure, each with its label, and what follows them. -/
def labelledClosures : List SyntaxTree → List SyntaxTree × List SyntaxTree
  | label :: colon :: brace :: rest =>
      if label.isName && !label.startsLine && colon.reads ":" && brace.isBraced then
        let (more, after) := labelledClosures rest
        (label :: colon :: shape.body .block brace :: more, after)
      else ([], label :: colon :: brace :: rest)
  | items => ([], items)

/-- Closures in front of items, and what follows them. -/
def trailingClosures (ctx : Context) (items : List SyntaxTree) :
    List SyntaxTree × List SyntaxTree :=
  match items with
  | brace :: rest =>
      if ctx.closures && brace.isBraced && !brace.holdsAccessors then
        let (more, after) := shape.labelledClosures rest
        (shape.body .block brace :: more, after)
      else ([], items)
  | [] => ([], [])

/-- An application of `callee` to a group, with closures after it, and what follows them. -/
def apply (ctx : Context) (callee : List SyntaxTree) (group : SyntaxTree)
    (rest : List SyntaxTree) : List SyntaxTree × List SyntaxTree :=
  match group with
  | .bracketed opening items closing =>
      if group.isParenthesised then
        let (closures, after) := shape.trailingClosures ctx rest
        ([.application callee opening (shape.arguments items) closing closures], after)
      else
        ([.application callee opening (shape { site := .list } items) closing []], rest)
  | other => (callee ++ [other], rest)

/-- The expression `callee` with the suffix that follows it, and what follows the suffix; `none`
when there is no suffix. A member name may begin a line; lists of arguments and of indices do not. In
a pattern a member with a list is no call. -/
def suffix? (ctx : Context) (callee : List SyntaxTree) (items : List SyntaxTree) :
    Option (List SyntaxTree × List SyntaxTree) :=
  match items with
  | [] => none
  | item :: rest =>
      if item.reads "." then
        match rest with
        | name :: rest =>
            if name.isToken .word || name.isToken .number then
              some (callee ++ [item, name], rest)
            else none
        | [] => none
      else if (item.reads "?" || item.reads "!") && item.isGlued then
        some (callee ++ [item], rest)
      else if item.reads "<" then
        (genericClause? items).map fun (clause, after) =>
          let typed := callee ++ clause.map shape.list
          match after with
          | group :: after' =>
              if group.isParenthesised && !group.startsLine then
                (typed ++ [shape.list group], after')
              else (typed, after)
          | [] => (typed, after)
      else if item.isParenthesised && !item.startsLine then
        if ctx.pattern && callee.any (·.reads ".") then
          some (callee ++ [shape.patterns item], rest)
        else some (shape.apply ctx callee item rest)
      else if item.opens "[" && !item.startsLine then some (shape.apply ctx callee item rest)
      else
        match shape.trailingClosures ctx items with
        | ([], _) => none
        | (closures, after) => some ([.closureApplication callee closures], after)

/-- The expression `callee` with all its suffixes, and what follows them; `fuel` bounds their
number. -/
def chain (ctx : Context) : Nat → List SyntaxTree → List SyntaxTree →
    List SyntaxTree × List SyntaxTree
  | 0, callee, items => (callee, items)
  | fuel + 1, callee, items =>
      match shape.suffix? ctx callee items with
      | some (callee, items) => chain ctx fuel callee items
      | none => (callee, items)

/-- The first part of an expression in front of items, and what follows it. -/
def primary? (ctx : Context) (items : List SyntaxTree) :
    Option (List SyntaxTree × List SyntaxTree) :=
  match items with
  | [] => none
  | item :: rest =>
      if item.isName || item.isToken .number then some ([item], rest)
      else if item.reads "." then
        match rest with
        | name :: rest => if name.isToken .word then some ([item, name], rest) else none
        | [] => none
      else if ctx.pattern && item.isParenthesised then some ([shape.patterns item], rest)
      else
        match item with
        | .bracketed _ _ _ => some ([shape.group item], rest)
        | _ => none

/-- **An expression in front of items**, and what follows it. -/
def expression? (ctx : Context) (items : List SyntaxTree) :
    Option (List SyntaxTree × List SyntaxTree) :=
  (shape.primary? ctx items).map fun (first, rest) => shape.chain ctx rest.length first rest

end Shaper

end SwiftStyle.Swift
