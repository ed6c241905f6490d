import SwiftStyle.Swift.Token
import SwiftStyle.Text.Blank
import SwiftStyle.Text.Search

/-!
# Swift/Lexer — from text to tokens

`tokens` cuts a text into tokens. Inside a string the lexer reads fragments until the closing quote
or an interpolation; inside an interpolation it reads ordinary tokens until the parenthesis that
closes it. The stack of `Mode`s remembers where it is.
-/

namespace SwiftStyle.Swift

/-- What the lexer is inside of, besides ordinary source. -/
inductive Mode
  /-- A string with so many `#` around its quotes. -/
  | string (hashes : Nat) (multiline : Bool)
  /-- An interpolation with so many open parentheses of its own. -/
  | interpolation (depth : Nat)
deriving DecidableEq, Repr

/-! ## Gaps -/

/-- What the reader of a gap is inside of. -/
inductive GapState
  | between
  | lineComment
  /-- A block comment with so many further ones around it. -/
  | blockComment (depth : Nat)
deriving DecidableEq, Repr

/-- Whether the rest of a line belongs to a conditional compilation directive, once its `#` is
read. -/
def isDirective (text : List Char) : Bool :=
  let name := text.takeWhile Char.isAlpha
  ["if", "elseif", "else", "endif"].any (·.toList == name)

/-- Characters that separate tokens: white space and the byte order mark. -/
def isSpacing (c : Char) : Bool := Text.isBlank c || c == '\ufeff'

/-- Put characters in front of the first of two texts. -/
def Lexer.push (cs : List Char) (r : List Char × List Char) : List Char × List Char :=
  (cs ++ r.1, r.2)

/-- White space and comments at the front of a text, and what follows. Block comments nest. -/
def gap : GapState → List Char → List Char × List Char
  | _, [] => ([], [])
  | .between, '/' :: '/' :: rest => Lexer.push ['/', '/'] (gap .lineComment rest)
  | .between, '/' :: '*' :: rest => Lexer.push ['/', '*'] (gap (.blockComment 0) rest)
  | .between, c :: rest =>
      if isSpacing c then Lexer.push [c] (gap .between rest)
      else if c == '#' && isDirective rest then Lexer.push [c] (gap .lineComment rest)
      else ([], c :: rest)
  | .lineComment, c :: rest =>
      Lexer.push [c] (gap (if c == '\n' then .between else .lineComment) rest)
  | .blockComment depth, '/' :: '*' :: rest =>
      Lexer.push ['/', '*'] (gap (.blockComment (depth + 1)) rest)
  | .blockComment 0, '*' :: '/' :: rest => Lexer.push ['*', '/'] (gap .between rest)
  | .blockComment (depth + 1), '*' :: '/' :: rest =>
      Lexer.push ['*', '/'] (gap (.blockComment depth) rest)
  | .blockComment depth, c :: rest => Lexer.push [c] (gap (.blockComment depth) rest)

/-! ## Single tokens -/

/-- Characters of names. Beyond ASCII everything but white space counts. -/
def isWordCharacter (c : Char) : Bool :=
  c.isAlphanum || c == '_' || c == '$' || (0x80 ≤ c.toNat && !isSpacing c)

/-- Characters of operators. -/
def isOperatorCharacter (c : Char) : Bool := "/=-+*%<>&|^~!?".toList.contains c

/-- The operator at the front of a text: up to where a comment begins. -/
def operatorRun : List Char → List Char
  | [] => []
  | '/' :: '/' :: _ => []
  | '/' :: '*' :: _ => []
  | c :: rest => if isOperatorCharacter c || c == '.' then c :: operatorRun rest else []

/-- Digits and letters of a number, with a fraction when a digit follows the point. -/
def numberRun (text : List Char) : List Char :=
  let whole := text.takeWhile isWordCharacter
  match text.dropWhile isWordCharacter with
  | '.' :: d :: rest =>
      if d.isDigit then whole ++ '.' :: (d :: rest).takeWhile isWordCharacter else whole
  | _ => whole

/-- A back-quoted name after its first quote, with the second one. -/
def backquoted : List Char → List Char
  | [] => []
  | c :: rest => if c == '\x60' then [c] else c :: backquoted rest

/-- The quote that opens a string after `hashes` signs, and whether the string spans lines. -/
def openingQuote? : List Char → Option (List Char × Bool)
  | '\"' :: '\"' :: '\"' :: _ => some (['\"', '\"', '\"'], true)
  | '\"' :: _ => some (['\"'], false)
  | _ => none

/-- The text that closes a string. -/
def closingQuote (hashes : Nat) (multiline : Bool) : List Char :=
  List.replicate (if multiline then 3 else 1) '\"' ++ List.replicate hashes '#'

/-- The text that opens an interpolation. -/
def interpolationStart (hashes : Nat) : List Char := '\\' :: List.replicate hashes '#' ++ ['(']

/-- A fragment of a string at the front of a text. After an escape sign the next `skip` characters
are read without a look at them. -/
def fragmentRun (hashes : Nat) (multiline : Bool) : Nat → List Char → List Char
  | _, [] => []
  | skip + 1, c :: rest => c :: fragmentRun hashes multiline skip rest
  | 0, c :: rest =>
      if (closingQuote hashes multiline).isPrefixOf (c :: rest)
          || (interpolationStart hashes).isPrefixOf (c :: rest) then []
      else
        let escapes := c == '\\' && (List.replicate hashes '#').isPrefixOf rest
        c :: fragmentRun hashes multiline (if escapes then hashes + 1 else 0) rest

/-- A token without its gap, and the modes after it. -/
structure Lexeme where
  kind : TokenKind
  text : List Char
  modes : List Mode

/-- The token that a bracket makes. Inside an interpolation its own parentheses are counted, and the
one that closes it ends the mode. -/
def bracketLexeme (modes : List Mode) (c : Char) : Lexeme :=
  match c, modes with
  | '(', .interpolation depth :: outer => ⟨.opening, [c], .interpolation (depth + 1) :: outer⟩
  | ')', .interpolation 0 :: outer => ⟨.closing, [c], outer⟩
  | ')', .interpolation (depth + 1) :: outer => ⟨.closing, [c], .interpolation depth :: outer⟩
  | _, _ => ⟨if c == '(' || c == '[' || c == '\x7b' then .opening else .closing, [c], modes⟩

/-- The token at the front of ordinary source `c :: rest`; `glued` tells that no gap stands before
it. A `?` or `!` that is glued to what stands before it stands alone, and so do `<` and `>`. -/
def sourceLexeme (modes : List Mode) (glued : Bool) (c : Char) (rest : List Char) : Lexeme :=
  let hashes := (c :: rest).takeWhile (· == '#')
  match openingQuote? ((c :: rest).drop hashes.length) with
  | some (quote, multiline) =>
      ⟨.opening, hashes ++ quote, .string hashes.length multiline :: modes⟩
  | none =>
      if "()[]\x7b\x7d".toList.contains c then bracketLexeme modes c
      else if c.isDigit then ⟨.number, c :: (numberRun (c :: rest)).tail, modes⟩
      else if isWordCharacter c then ⟨.word, c :: rest.takeWhile isWordCharacter, modes⟩
      else if c == '#' then ⟨.word, c :: rest.takeWhile isWordCharacter, modes⟩
      else if c == '\x60' then ⟨.word, c :: backquoted rest, modes⟩
      else if c == '.' then
        if rest.head? == some '.' then ⟨.operation, c :: operatorRun rest, modes⟩
        else ⟨.mark, [c], modes⟩
      else if c == '<' || c == '>' then ⟨.operation, [c], modes⟩
      else if glued && (c == '?' || (c == '!' && rest.head? != some '=')) then
        ⟨.operation, [c], modes⟩
      else if isOperatorCharacter c then ⟨.operation, c :: operatorRun rest, modes⟩
      else ⟨.mark, [c], modes⟩

/-- The token at the front of string contents `c :: rest`. -/
def stringLexeme (hashes : Nat) (multiline : Bool) (outer : List Mode) (c : Char)
    (rest : List Char) : Lexeme :=
  let inside := Mode.string hashes multiline :: outer
  if (closingQuote hashes multiline).isPrefixOf (c :: rest) then
    ⟨.closing, closingQuote hashes multiline, outer⟩
  else if (interpolationStart hashes).isPrefixOf (c :: rest) then
    ⟨.opening, interpolationStart hashes, .interpolation 0 :: inside⟩
  else ⟨.fragment, c :: (fragmentRun hashes multiline 0 (c :: rest)).tail, inside⟩

/-- Cut tokens off the front of a text until it is used up; `fuel` bounds their number. -/
def tokensFrom : Nat → List Mode → List Char → List Token
  | 0, _, text => [⟨.finish, text, []⟩]
  | fuel + 1, modes, text =>
      match modes with
      | .string hashes multiline :: outer =>
          match text with
          | [] => [⟨.finish, [], []⟩]
          | c :: rest =>
              let l := stringLexeme hashes multiline outer c rest
              ⟨l.kind, [], l.text⟩ :: tokensFrom fuel l.modes ((c :: rest).drop l.text.length)
      | _ =>
          match gap .between text with
          | (spacing, []) => [⟨.finish, spacing, []⟩]
          | (spacing, c :: rest) =>
              let l := sourceLexeme modes spacing.isEmpty c rest
              ⟨l.kind, spacing, l.text⟩
                :: tokensFrom fuel l.modes ((c :: rest).drop l.text.length)

/-- **The tokens of a text.** -/
def tokens (text : List Char) : List Token := tokensFrom (text.length + 1) [] text

end SwiftStyle.Swift
