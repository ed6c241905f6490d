import SwiftStyle.Swift.Lexer
import SwiftStyle.Swift.Nesting
import SwiftStyle.Swift.Parser.Declaration
import SwiftStyle.Swift.Parser.Expression

/-!
# Swift/Parser — from text to syntax trees

`parse` matches the brackets of a text and then gives shape to what stands between them, from left
to right: declarations, calls and arguments are told apart, all else stays a list of tokens and
groups.
-/

namespace SwiftStyle.Swift

/-- The shape of the items at the front of a list, and where to go on. -/
structure Step where
  parts : List SyntaxTree
  context : Context
  rest : List SyntaxTree

namespace Shaper

open SyntaxTree

variable (shape : Shaper)

/-- The context after a token that says what comes next. -/
def contextAfter (ctx : Context) (item : SyntaxTree) : Context :=
  if item.reads "case" then { ctx with pattern := true, patternList := ctx.closures }
  else if item.readsOneOf ["if", "guard", "while", "switch", "for"] then
    { ctx with closures := false }
  else if item.reads "catch" then { ctx with closures := false, pattern := true }
  else if item.readsOneOf ["=", "in", "where"] then { ctx with pattern := false }
  else if item.reads ":" && ctx.site ≠ .list then
    { ctx with pattern := false, patternList := false }
  else if item.reads "," then { ctx with pattern := ctx.patternList }
  else ctx

/-- The body of a statement: after it a brace may be a closure again. -/
def statementBody (ctx : Context) (brace : SyntaxTree) (rest : List SyntaxTree) : Step where
  parts := [shape.body .block brace]
  context := { site := ctx.site }
  rest

/-- A loop that ends in its condition: the brace after the condition belongs to something else. -/
def repeatLoop (ctx : Context) (item : SyntaxTree) (rest : List SyntaxTree) : Step :=
  match rest with
  | brace :: condition :: rest =>
      if brace.isBraced && condition.reads "while" then
        ⟨[item, shape.body .block brace, condition], ctx, rest⟩
      else ⟨[item], ctx, brace :: condition :: rest⟩
  | _ => ⟨[item], ctx, rest⟩

/-- Items that keep their tokens as they are; groups among them are shaped. -/
def plain (ctx : Context) (items rest : List SyntaxTree) : Step := ⟨items.map shape.list, ctx, rest⟩

/-- The part of a computed property that begins here, with the name of its parameter. -/
def accessor? (ctx : Context) (items : List SyntaxTree) : Option Step :=
  match items with
  | name :: parameter :: brace :: rest =>
      if ctx.site = .accessors && name.isAccessor && parameter.isParenthesised && brace.isBraced then
        some ⟨[name, parameter, shape.body .block brace], ctx, rest⟩
      else none
  | _ => none

/-- Attributes, modifiers and keywords in front of items that are no declaration of the structure
tree: what they lead to is shaped on its own. -/
def lead? (ctx : Context) (items : List SyntaxTree) : Option Step :=
  let span := leadSpan (ctx.site ≠ .list) .start items
  if span ≠ 0 && (items.drop span).head?.any (·.isMemberKeyword) then
    some (shape.plain ctx (items.take span) (items.drop span))
  else
    let span := leadSpan false .start items
    if span ≠ 0 then some (shape.plain ctx (items.take span) (items.drop span))
    else
      match items with
      | item :: rest =>
          if item.reads "import" then
            let line := rest.takeWhile fun next =>
              !(next.startsLine || next.reads ";" || next.isToken .finish)
            some (shape.plain ctx (item :: line) (rest.drop line.length))
          else if item.reads "case" && ctx.site = .enumBody then
            let (cases, after) := enumCases none rest
            some (shape.plain ctx (item :: cases) after)
          else none
      | [] => none

/-- The shape of what begins with `item`. -/
def next (ctx : Context) (item : SyntaxTree) (rest : List SyntaxTree) : Step :=
  let items := item :: rest
  match if ctx.site = .list then none else shape.declaration? items with
  | some (tree, after) => ⟨[tree], ctx, after⟩
  | none =>
      match (shape.accessor? ctx items).or (shape.lead? ctx items) with
      | some step => step
      | none =>
          if item.reads "repeat" then shape.repeatLoop ctx item rest
          else if item.isBraced && !ctx.closures then shape.statementBody ctx item rest
          else
            match shape.expression? ctx items with
            | some (parts, after) => ⟨parts, ctx, after⟩
            | none => ⟨[item], contextAfter ctx item, rest⟩

end Shaper

/-- Shape a list of items from left to right; `fuel` bounds the number of steps and the depth. -/
def shape : Nat → Shaper
  | 0, _, items => items
  | _ + 1, _, [] => []
  | fuel + 1, ctx, item :: rest =>
      let step := Shaper.next (shape fuel) ctx item rest
      step.parts ++ shape fuel step.context step.rest

/-- **The syntax trees of a text.** -/
def parse (text : List Char) : List SyntaxTree :=
  let tokens := tokens text
  shape (2 * tokens.length + 2) { site := .block } (nest tokens)

end SwiftStyle.Swift
