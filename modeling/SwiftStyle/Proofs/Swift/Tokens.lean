import SwiftStyle.Swift.Lexer

/-!
# Proofs/Swift/Tokens — a text is its tokens

Whatever the lexer is inside of, a gap and a token are what stands at the front of the text, and the
lexer goes on behind them.  So the tokens of a text, written one after the other, are the text again
(`flatMap_tokens`); the fuel is of no account, as the last token takes what is left.
-/

namespace SwiftStyle.Swift

/-! ## Gaps -/

/-- **A gap is taken off the front.** -/
theorem gap_append (state : GapState) (text : List Char) :
    (gap state text).1 ++ (gap state text).2 = text := by
  fun_induction gap state text <;> simp_all [Lexer.push]

/-! ## Single tokens -/

/-- A run that is read again from its first character. -/
theorem prefix_cons_tail {run : List Char} {c : Char} {rest : List Char} (h : run <+: c :: rest) :
    c :: run.tail <+: c :: rest := by
  refine (List.prefix_cons_inj c).2 ?_
  cases run with
  | nil => exact List.nil_prefix
  | cons first run => exact (List.cons_prefix_cons.1 h).2

theorem prefix_operatorRun (text : List Char) : operatorRun text <+: text := by
  fun_induction operatorRun text with
  | case4 c rest _ _ h ih => exact List.prefix_cons_inj c |>.2 ih
  | _ => exact List.nil_prefix

theorem prefix_backquoted (text : List Char) : backquoted text <+: text := by
  fun_induction backquoted text with
  | case1 => exact List.nil_prefix
  | case2 c rest h => exact ⟨rest, rfl⟩
  | case3 c rest h ih => exact (List.prefix_cons_inj c).2 ih

theorem prefix_fragmentRun (hashes : Nat) (multiline : Bool) (skip : Nat) (text : List Char) :
    fragmentRun hashes multiline skip text <+: text := by
  fun_induction fragmentRun hashes multiline skip text with
  | case1 => exact List.nil_prefix
  | case2 skip c rest ih => exact (List.prefix_cons_inj c).2 ih
  | case3 c rest h => exact List.nil_prefix
  | case4 c rest h escapes ih => exact (List.prefix_cons_inj c).2 ih

theorem prefix_numberRun (text : List Char) : numberRun text <+: text := by
  have hwhole := List.takeWhile_append_dropWhile (p := isWordCharacter) (l := text)
  rw [numberRun]
  split
  · next d rest hdrop =>
    rw [hdrop] at hwhole
    split
    · obtain ⟨after, hfraction⟩ := List.takeWhile_prefix (p := isWordCharacter) (l := d :: rest)
      exact ⟨after, by rw [List.append_assoc, List.cons_append, hfraction, hwhole]⟩
    · exact List.takeWhile_prefix _
  · exact List.takeWhile_prefix _

theorem prefix_openingQuote? {text quote : List Char} {multiline : Bool}
    (h : openingQuote? text = some (quote, multiline)) : quote <+: text := by
  unfold openingQuote? at h
  split at h
  · next rest =>
    obtain ⟨rfl, _⟩ := Prod.mk.inj (Option.some.inj h)
    exact ⟨rest, rfl⟩
  · obtain ⟨rfl, _⟩ := Prod.mk.inj (Option.some.inj h)
    exact ⟨_, rfl⟩
  · cases h

theorem text_bracketLexeme (modes : List Mode) (c : Char) : (bracketLexeme modes c).text = [c] := by
  unfold bracketLexeme
  split <;> rfl

/-- **A token of ordinary source is taken off the front.** -/
theorem prefix_sourceLexeme (modes : List Mode) (glued : Bool) (c : Char) (rest : List Char) :
    (sourceLexeme modes glued c rest).text <+: c :: rest := by
  have hone : [c] <+: c :: rest := ⟨rest, rfl⟩
  have hcons : ∀ {run : List Char}, run <+: rest → c :: run <+: c :: rest :=
    fun h => (List.prefix_cons_inj c).2 h
  have hwords := hcons (List.takeWhile_prefix (l := rest) isWordCharacter)
  have hhashes := List.prefix_iff_eq_append.1 (List.takeWhile_prefix (l := c :: rest) (· == '#'))
  fun_cases sourceLexeme modes glued c rest with
  | case1 hashes quote multiline hquote =>
    obtain ⟨after, hafter⟩ := prefix_openingQuote? hquote
    exact ⟨after, by rw [List.append_assoc, hafter, hhashes]⟩
  | case2 => rwa [text_bracketLexeme]
  | case3 => exact prefix_cons_tail (prefix_numberRun (c :: rest))
  | case4 => exact hwords
  | case5 => exact hwords
  | case6 => exact hcons (prefix_backquoted rest)
  | case7 => exact hcons (prefix_operatorRun rest)
  | case11 => exact hcons (prefix_operatorRun rest)
  | _ => exact hone

/-- **A token inside a string is taken off the front.** -/
theorem prefix_stringLexeme (hashes : Nat) (multiline : Bool) (outer : List Mode) (c : Char)
    (rest : List Char) : (stringLexeme hashes multiline outer c rest).text <+: c :: rest := by
  unfold stringLexeme
  split
  · next h => exact List.isPrefixOf_iff_prefix.1 h
  split
  · next h => exact List.isPrefixOf_iff_prefix.1 h
  · exact prefix_cons_tail (prefix_fragmentRun hashes multiline 0 (c :: rest))

/-! ## All tokens -/

theorem flatMap_tokensFrom (fuel : Nat) (modes : List Mode) (text : List Char) :
    (tokensFrom fuel modes text).flatMap Token.characters = text := by
  fun_induction tokensFrom fuel modes text with
  | case1 modes text => simp [Token.characters]
  | case2 fuel hashes multiline outer => simp [Token.characters]
  | case3 fuel hashes multiline outer c rest l ih =>
    have hprefix := prefix_stringLexeme hashes multiline outer c rest
    rw [List.flatMap_cons, ih, Token.characters, List.nil_append]
    exact List.prefix_iff_eq_append.1 hprefix
  | case4 fuel modes text spacing hgap =>
    simpa [hgap, Token.characters] using gap_append .between text
  | case5 fuel modes text spacing c rest hgap l _ ih =>
    have htext := gap_append .between text
    rw [hgap] at htext
    have hprefix := prefix_sourceLexeme modes spacing.isEmpty c rest
    rw [List.flatMap_cons, ih, Token.characters, List.append_assoc,
      List.prefix_iff_eq_append.1 hprefix, htext]

/-- **The tokens of a text are the text again.** -/
theorem flatMap_tokens (text : List Char) : (tokens text).flatMap Token.characters = text :=
  flatMap_tokensFrom _ _ _

end SwiftStyle.Swift
