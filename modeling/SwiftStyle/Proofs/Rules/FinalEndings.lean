import Mathlib.Data.List.DropRight
import SwiftStyle.Proofs.Source.Endings
import SwiftStyle.Rules.TrailingNewline
import SwiftStyle.Text.Suffixes

/-!
# Proofs/Rules/FinalEndings — the line endings that a text ends in

Endings are counted from the end of a text, a `\r\n` being taken off at once.  Read from the front,
the run of `\r` and `\n` at the end of the text comes to the same number: only between a `\r` and a
`\n` the readings could differ, and these belong together from both sides (`readEndings_append`).
When no `\r` stands alone, the count agrees with the line table (`misended_iff`).
-/

namespace SwiftStyle.TrailingNewline

/-- The characters of which line endings are made. -/
def isBreak (c : Char) : Bool := c == '\r' || c == '\n'

theorem isBreak_iff {c : Char} : isBreak c = true ↔ c = '\r' ∨ c = '\n' := by
  rw [isBreak, Bool.or_eq_true, beq_iff_eq, beq_iff_eq]

/-- **The longest end of a text that is made of `\r` and `\n`.** -/
def finalRun (text : List Char) : List Char := text.rtakeWhile isBreak

/-- The line endings of such a run, from its front: `\r\n` is one. -/
def readEndings : List Char → List (List Char)
  | '\r' :: '\n' :: rest => ['\r', '\n'] :: readEndings rest
  | c :: rest => [c] :: readEndings rest
  | [] => []

/-- The number of places where `\r\n` stands. -/
def countReturnNewlines (text : List Char) : Nat := (text.zip text.tail).count ('\r', '\n')

/-- **No `\r` stands alone**: each comes right before a `\n`. -/
def ReturnsPaired (text : List Char) : Prop :=
  ∀ before after, text = before ++ '\r' :: after → after.head? = some '\n'

instance (text : List Char) : Decidable (ReturnsPaired text) :=
  decidable_of_iff
    (∀ s ∈ Text.suffixes text, s.head? = some '\r' → s.tail.head? = some '\n')
    ⟨fun h before after htext => h _ (Text.mem_suffixes.2 ⟨before, htext⟩) rfl,
      fun h s hs hhead => by
        obtain ⟨before, htext⟩ := Text.mem_suffixes.1 hs
        obtain ⟨after, rfl⟩ := List.head?_eq_some_iff.1 hhead
        exact h before after htext⟩

/-! ## Reading from both sides -/

/-- **Reading goes on where it was left**, unless that is between a `\r` and a `\n`. -/
theorem readEndings_append {a b : List Char}
    (h : a.getLast? = some '\r' → b.head? ≠ some '\n') :
    readEndings (a ++ b) = readEndings a ++ readEndings b := by
  fun_induction readEndings a with
  | case1 rest ih =>
    have hrest : rest.getLast? = some '\r' → b.head? ≠ some '\n' := fun hlast =>
      h (by simp [List.getLast?_cons, hlast])
    rw [List.cons_append, List.cons_append, readEndings, ih hrest]
    rfl
  | case2 c rest hpair ih =>
    have hrest : rest.getLast? = some '\r' → b.head? ≠ some '\n' := fun hlast =>
      h (by simp [List.getLast?_cons, hlast])
    rw [List.cons_append, readEndings, ih hrest]
    · rfl
    · rintro more rfl hmore
      cases rest with
      | nil => exact h rfl (by rw [← List.nil_append b, hmore]; rfl)
      | cons d rest => exact hpair rest rfl (congrArg (· :: rest) (List.cons.inj hmore).1)
  | case3 => rfl

/-- **Every `\r\n` makes one ending less** than there are characters. -/
theorem length_readEndings_add_count (text : List Char) :
    (readEndings text).length + countReturnNewlines text = text.length := by
  fun_induction readEndings text with
  | case1 rest ih =>
    have hpairs : countReturnNewlines ('\r' :: '\n' :: rest) = countReturnNewlines rest + 1 := by
      cases rest <;> simp [countReturnNewlines]
    rw [hpairs, List.length_cons, List.length_cons, List.length_cons]
    omega
  | case2 c rest hpair ih =>
    have hpairs : countReturnNewlines (c :: rest) = countReturnNewlines rest := by
      cases rest with
      | nil => rfl
      | cons d rest =>
        have hne : (c, d) ≠ ('\r', '\n') := by
          rintro ⟨rfl, rfl⟩
          exact hpair rest rfl rfl
        simp [countReturnNewlines, List.count_cons_of_ne hne]
    rw [hpairs, List.length_cons, List.length_cons]
    omega
  | case3 => rfl

/-- **Endings counted from the end are those read from the front.** -/
theorem leadingEndings_eq (text : List Char) :
    leadingEndings text = (readEndings (text.takeWhile isBreak).reverse).length := by
  fun_induction leadingEndings text with
  | case1 rest ih =>
    have hrun : (('\n' :: '\r' :: rest).takeWhile isBreak).reverse
        = (rest.takeWhile isBreak).reverse ++ ['\r', '\n'] := by simp [isBreak]
    rw [hrun, readEndings_append (by simp), ih, List.length_append]
    rfl
  | case2 rest hpair ih =>
    have hrun : (('\n' :: rest).takeWhile isBreak).reverse
        = (rest.takeWhile isBreak).reverse ++ ['\n'] := by simp [isBreak]
    have hlast : (rest.takeWhile isBreak).reverse.getLast? ≠ some '\r' := by
      rw [List.getLast?_reverse, List.head?_takeWhile]
      intro hhead
      obtain ⟨more, hmore⟩ := List.head?_eq_some_iff.1 (Option.filter_eq_some_iff.1 hhead).1
      exact hpair more hmore
    rw [hrun, readEndings_append (fun h => absurd h hlast), ih, List.length_append]
    rfl
  | case3 rest ih =>
    have hrun : (('\r' :: rest).takeWhile isBreak).reverse
        = (rest.takeWhile isBreak).reverse ++ ['\r'] := by simp [isBreak]
    rw [hrun, readEndings_append (by simp), ih, List.length_append]
    rfl
  | case4 text hpair hnewline hreturn =>
    cases text with
    | nil => rfl
    | cons c text =>
      have hc : ¬isBreak c = true := by
        rw [isBreak_iff]
        rintro (rfl | rfl)
        · exact hreturn text rfl
        · exact hnewline text rfl
      rw [List.takeWhile_cons_of_neg hc]
      rfl

theorem trailingEndings_eq (text : List Char) :
    trailingEndings text = (readEndings (finalRun text)).length :=
  leadingEndings_eq text.reverse

/-! ## The last line -/

/-- There is no ending at the end of a text that does not end in `\r` or `\n`. -/
theorem trailingEndings_eq_zero_iff {text : List Char} :
    trailingEndings text = 0 ↔ ∀ c, text.getLast? = some c → c ≠ '\r' ∧ c ≠ '\n' := by
  rw [trailingEndings, ← List.head?_reverse]
  cases text.reverse with
  | nil => simp [leadingEndings]
  | cons c rest =>
    rw [List.head?_cons, leadingEndings.eq_def]
    split <;> simp_all

/-- **One more ending counts one more**, unless a `\n` comes right behind a `\r`. -/
theorem trailingEndings_append_ending {text : List Char} {ending : LineEnding}
    (hending : ending ≠ .none) (h : ending = .newline → text.getLast? ≠ some '\r') :
    trailingEndings (text ++ ending.characters) = trailingEndings text + 1 := by
  cases ending with
  | none => exact absurd rfl hending
  | returnNewline => simp [trailingEndings, LineEnding.characters, leadingEndings]
  | newline =>
    have hlast := h rfl
    rw [← List.head?_reverse] at hlast
    rw [trailingEndings, trailingEndings, LineEnding.characters, List.reverse_append,
      List.reverse_singleton, List.singleton_append, leadingEndings]
    rintro rest hrest
    exact hlast (by rw [hrest]; rfl)

section LastLine

variable {text : List Char} {lines : List RawLine} {raw : RawLine} (hpaired : ReturnsPaired text)
  (h : cutLines text = lines ++ [raw])
include hpaired h

/-- **The text of the last line does not end in `\r` or `\n`** when returns are paired. -/
theorem ne_of_getLast?_text {c : Char} (hc : raw.text.getLast? = some c) :
    c ≠ '\r' ∧ c ≠ '\n' := by
  have hmem : raw ∈ cutLines text := by simp [h]
  refine ⟨?_, fun hn => newline_not_mem_of_mem_cutLines hmem (hn ▸ List.mem_of_getLast? hc)⟩
  rintro rfl
  obtain ⟨before, hbefore⟩ := List.getLast?_eq_some_iff.1 hc
  have hnext : raw.ending.characters.head? = some '\n' := by
    refine hpaired (lines.flatMap RawLine.characters ++ before) _ ?_
    rw [eq_append_of_cutLines h, RawLine.characters, hbefore]
    simp
  have hending : raw.ending = .newline := by
    cases hraw : raw.ending <;> simp_all [LineEnding.characters]
  exact return_ne_getLast?_text hmem hending hc

/-- A text whose last line has no ending ends in the last character of that line. -/
theorem trailingEndings_eq_zero (hending : raw.ending = .none) : trailingEndings text = 0 := by
  have hmem : raw ∈ cutLines text := by simp [h]
  have hne : raw.text ≠ [] := by
    simpa [RawLine.characters, hending, LineEnding.characters]
      using characters_ne_nil_of_mem_cutLines hmem
  have htext := eq_append_of_cutLines h
  rw [RawLine.characters, hending, LineEnding.characters, List.append_nil] at htext
  rw [trailingEndings_eq_zero_iff, htext, List.getLast?_append_of_ne_nil _ hne]
  exact fun c => ne_of_getLast?_text hpaired h

/-- **The ending of the last line counts one** more than what stands before it. -/
theorem trailingEndings_eq_succ (hending : raw.ending ≠ .none) :
    trailingEndings text
      = trailingEndings (lines.flatMap RawLine.characters ++ raw.text) + 1 := by
  have hreturn : (lines.flatMap RawLine.characters ++ raw.text).getLast? ≠ some '\r' := by
    rw [List.getLast?_append, Ne, Option.or_eq_some_iff]
    rintro (hlast | ⟨-, hlast⟩)
    · exact (ne_of_getLast?_text hpaired h hlast).1 rfl
    · exact absurd (eq_newline_of_getLast?_flatMap h hlast) (by decide)
  have htext := eq_append_of_cutLines h
  rw [RawLine.characters, ← List.append_assoc] at htext
  rw [htext]
  exact trailingEndings_append_ending hending fun _ => hreturn

/-- **Before the ending of the last line** an ending stands just when the line is empty behind
another one. -/
theorem trailingEndings_append_text_ne_zero_iff :
    trailingEndings (lines.flatMap RawLine.characters ++ raw.text) ≠ 0 ↔
      lines ≠ [] ∧ raw.text = [] := by
  rw [Ne, trailingEndings_eq_zero_iff, Ne, ← flatMap_characters_eq_nil_iff h]
  by_cases hnil : raw.text = []
  · rw [hnil, List.append_nil, and_iff_left rfl]
    refine not_congr ⟨fun hends => ?_, fun hempty c hc => by simp [hempty] at hc⟩
    by_contra hne
    have hlast := List.getLast?_eq_some_getLast hne
    exact (hends _ hlast).2 (eq_newline_of_getLast?_flatMap h hlast)
  · rw [List.getLast?_append_of_ne_nil _ hnil]
    exact iff_of_false (not_not_intro fun c => ne_of_getLast?_text hpaired h)
      fun hboth => hnil hboth.2

/-- **A text does not end in one ending** just when its last line has none, or is empty behind
another line. -/
theorem trailingEndings_ne_one_iff :
    trailingEndings text ≠ 1 ↔ raw.ending = .none ∨ lines ≠ [] ∧ raw.text = [] := by
  by_cases hending : raw.ending = .none
  · simp [trailingEndings_eq_zero hpaired h hending, hending]
  · rw [trailingEndings_eq_succ hpaired h hending, or_iff_right hending,
      ← trailingEndings_append_text_ne_zero_iff hpaired h]
    omega

end LastLine

/-! ## The rule -/

/-- **What the count says of a file its line table says, too**, when returns are paired. -/
theorem misended_iff {unit : SourceUnit} (h : ReturnsPaired unit.contents.toList) :
    (unit.contents ≠ "" ∧ trailingEndings unit.contents.toList ≠ 1) ↔
      ∃ last, unit.lines.getLast? = some last ∧
        (last.raw.ending = .none ∨ 2 ≤ unit.lines.length ∧ last.text = []) := by
  have hraw : unit.lines.map Line.raw = cutLines unit.contents.toList := map_raw_numberLines 1 0 _
  rcases List.eq_nil_or_concat' unit.lines with hnil | ⟨lines, last, hlines⟩
  · have hempty : unit.contents = "" := by
      rw [← String.toList_eq_nil_iff, ← flatMap_cutLines unit.contents.toList, ← hraw, hnil]
      rfl
    simp [hempty, hnil]
  · rw [hlines, List.map_append, List.map_singleton] at hraw
    have hne : unit.contents ≠ "" := by
      rintro hempty
      rw [hempty] at hraw
      exact List.append_ne_nil_of_right_ne_nil _ (List.cons_ne_nil _ _) hraw
    have hlength : 2 ≤ (lines ++ [last]).length ↔ lines.map Line.raw ≠ [] := by
      cases lines <;> simp
    rw [trailingEndings_ne_one_iff h hraw.symm, and_iff_right hne, hlines, hlength,
      List.getLast?_concat]
    simp only [Option.some.injEq, exists_eq_left']
    rfl

/-- A lone `\r` is an ending for the count, and a character for the line table. -/
example : trailingEndings ['a', '\r'] = 1 ∧ cutLines ['a', '\r'] = [⟨['a', '\r'], .none⟩] := by decide

/-- **The rule counts line endings as they are read**, and agrees with the line table.  Its count is
that of the endings in the longest end of a file made of `\r` and `\n`, read from the front with
`\r\n` as one: the length of that end less the number of `\r\n` in it.  There is one finding, past
the last line, when a file that is not empty does not end in just one ending, and otherwise none.
When no `\r` stands alone, this is so just when the last line has no ending, or is empty behind
another line. -/
theorem rule_counts_endings (unit : SourceUnit) :
    (trailingEndings unit.contents.toList = (readEndings (finalRun unit.contents.toList)).length ∧
      trailingEndings unit.contents.toList + countReturnNewlines (finalRun unit.contents.toList)
        = (finalRun unit.contents.toList).length) ∧
    (∀ settings, ∃ found, rule.validate unit settings = .ok found ∧
      found.map Violation.location =
        if unit.contents ≠ "" ∧ trailingEndings unit.contents.toList ≠ 1 then
          [{ file := unit.path, line := unit.lines.length + 1 }]
        else []) ∧
    (ReturnsPaired unit.contents.toList →
      ((unit.contents ≠ "" ∧ trailingEndings unit.contents.toList ≠ 1) ↔
        ∃ last, unit.lines.getLast? = some last ∧
          (last.raw.ending = .none ∨ 2 ≤ unit.lines.length ∧ last.text = []))) := by
  refine ⟨⟨trailingEndings_eq _, ?_⟩, fun settings => ⟨_, rfl, ?_⟩, misended_iff⟩
  · rw [trailingEndings_eq, length_readEndings_add_count]
  · simp only [findings, Bool.or_eq_true, List.isEmpty_iff, String.toList_eq_nil_iff, beq_iff_eq,
      ne_eq, ← not_or, ite_not]
    split <;> rfl

namespace Blank

/-- A file that ends in a blank line. -/
def unit : SourceUnit := .ofContents "let a = 0\r\n\r\n"

theorem returnsPaired : ReturnsPaired unit.contents.toList := by decide

end Blank

/-- A blank line at the end makes two endings. -/
theorem rule_counts_endings_blank :
    ReturnsPaired Blank.unit.contents.toList ∧
      ∃ last, Blank.unit.lines.getLast? = some last ∧
        (last.raw.ending = .none ∨ 2 ≤ Blank.unit.lines.length ∧ last.text = []) := by
  obtain ⟨_, _, hpaired⟩ := rule_counts_endings Blank.unit
  exact ⟨Blank.returnsPaired, (hpaired Blank.returnsPaired).1 (by decide)⟩

end SwiftStyle.TrailingNewline
