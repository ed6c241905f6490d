import SwiftStyle.Proofs.Source.Endings

/-!
# Proofs/Source/Table — what the line table of a text is

A line table of a text is told by what its lines say: put together they are the text, each but the
last has an ending, none goes past a `\n`, and each counts the lines and the bytes before it
(`IsLineTable`).  There is one such table for every text.  Whole lines that stand in front of a text
are cut off it (`cutLines_characters_append`), so lines of this kind are cut just as they were put
together (`cutLines_flatMap`), and their numbers and offsets say where they stand
(`eq_numberLines_iff`).
-/

namespace SwiftStyle

/-- **A line table of a text.** -/
structure IsLineTable (text : List Char) (lines : List Line) : Prop where
  /-- The lines with their endings, one after the other, are the text. -/
  joined : lines.flatMap (·.raw.characters) = text
  /-- Only the last line may have no ending. -/
  ended : ∀ line ∈ lines.dropLast, line.raw.ending ≠ .none
  /-- No line stands behind the last ending without a character. -/
  nonempty : ∀ line ∈ lines, line.raw.characters ≠ []
  newline_not_mem : ∀ line ∈ lines, '\n' ∉ line.text
  /-- An ending is `\r\n` just when, in the text, a `\r` stands in front of its `\n`. -/
  return_before : ∀ before line after, lines = before ++ line :: after →
    line.raw.ending ≠ .none →
    ∃ stem, before.flatMap (·.raw.characters) ++ line.raw.characters = stem ++ ['\n'] ∧
      (line.raw.ending = .returnNewline ↔ stem.getLast? = some '\r')
  numbered : lines.map Line.index = List.range' 1 lines.length
  /-- A line begins at as many bytes as the lines before it have. -/
  placed : ∀ before line after, lines = before ++ line :: after →
    line.offset = byteLength (before.flatMap (·.raw.characters))

/-! ## Cutting what was put together -/

/-- A line that is cut off a text at its ending: it does not go past a `\n`, and before a bare `\n`
there is no `\r`. -/
structure RawLine.IsCut (raw : RawLine) : Prop where
  newline_not_mem : '\n' ∉ raw.text
  return_ne_getLast? : raw.ending = .newline → raw.text.getLast? ≠ some '\r'

/-- The rest of such a line is one too. -/
theorem RawLine.IsCut.tail {c : Char} {text : List Char} {ending : LineEnding}
    (h : IsCut ⟨c :: text, ending⟩) : IsCut ⟨text, ending⟩ where
  newline_not_mem hmem := h.newline_not_mem (List.mem_cons_of_mem c hmem)
  return_ne_getLast? hending hlast := by
    refine h.return_ne_getLast? hending ?_
    rw [List.getLast?_cons, show text.getLast? = some '\r' from hlast]
    rfl

/-- A character that begins no ending stays in its line. -/
theorem cutLines_cons_of_eq_cons {c : Char} {rest : List Char} {line : RawLine}
    {lines : List RawLine} (hnewline : c ≠ '\n') (hreturn : c = '\r' → rest.head? ≠ some '\n')
    (h : cutLines rest = line :: lines) :
    cutLines (c :: rest) = ⟨c :: line.text, line.ending⟩ :: lines := by
  rw [cutLines, h]
  · exact hnewline
  · rintro more rfl rfl
    exact hreturn rfl rfl

/-- Behind a `\r` that is no part of its ending such a line does not go on with a `\n`. -/
theorem RawLine.IsCut.head?_ne {text : List Char} {ending : LineEnding}
    (h : IsCut ⟨'\r' :: text, ending⟩) (hending : ending ≠ .none) (rest : List Char) :
    (characters ⟨text, ending⟩ ++ rest).head? ≠ some '\n' := by
  cases text with
  | nil =>
    cases ending with
    | none => exact absurd rfl hending
    | newline => exact absurd rfl (h.return_ne_getLast? rfl)
    | returnNewline => simp [characters, LineEnding.characters]
  | cons c text =>
    have hc : c ≠ '\n' := fun he => h.newline_not_mem (by simp [he])
    simpa [characters] using hc

/-- **A line with an ending is cut off the text that it begins.** -/
theorem cutLines_characters_append {raw : RawLine} (h : raw.IsCut) (hending : raw.ending ≠ .none)
    (rest : List Char) : cutLines (raw.characters ++ rest) = raw :: cutLines rest := by
  obtain ⟨text, ending⟩ := raw
  induction text with
  | nil =>
    cases ending with
    | none => exact absurd rfl hending
    | newline => rw [RawLine.characters, LineEnding.characters]; rfl
    | returnNewline => rw [RawLine.characters, LineEnding.characters]; rfl
  | cons c text ih =>
    have hc : c ≠ '\n' := fun he => h.newline_not_mem (he ▸ List.mem_cons_self)
    refine cutLines_cons_of_eq_cons hc ?_ (ih h.tail hending)
    rintro rfl
    exact h.head?_ne hending rest

/-- A text without `\n` is one line. -/
theorem cutLines_of_newline_not_mem {text : List Char} (hne : text ≠ []) (h : '\n' ∉ text) :
    cutLines text = [⟨text, .none⟩] := by
  induction text with
  | nil => exact absurd rfl hne
  | cons c text ih =>
    have hc : c ≠ '\n' := fun he => h (he ▸ List.mem_cons_self)
    have htext : '\n' ∉ text := fun hmem => h (List.mem_cons_of_mem c hmem)
    cases text with
    | nil =>
      rw [cutLines, cutLines]
      · exact hc
      · exact fun more _ hmore => by cases hmore
    | cons d text =>
      refine cutLines_cons_of_eq_cons hc (fun _ hd => htext ?_) (ih (List.cons_ne_nil d text) htext)
      exact Option.some.inj hd ▸ List.mem_cons_self

/-- **Lines are cut just as they were put together.** -/
theorem cutLines_flatMap {raws : List RawLine} (hcut : ∀ raw ∈ raws, raw.IsCut)
    (hne : ∀ raw ∈ raws, raw.characters ≠ []) (hended : ∀ raw ∈ raws.dropLast, raw.ending ≠ .none) :
    cutLines (raws.flatMap RawLine.characters) = raws := by
  induction raws with
  | nil => rfl
  | cons raw raws ih =>
    obtain ⟨hraw, hcut⟩ := List.forall_mem_cons.1 hcut
    obtain ⟨hrawne, hne⟩ := List.forall_mem_cons.1 hne
    rw [List.flatMap_cons]
    by_cases hending : raw.ending = .none
    · -- only the last line has no ending
      obtain rfl : raws = [] := by
        by_contra hraws
        rw [List.dropLast_cons_of_ne_nil hraws] at hended
        exact hended raw List.mem_cons_self hending
      obtain ⟨text, ending⟩ := raw
      obtain rfl : ending = .none := hending
      have hcharacters : RawLine.characters ⟨text, .none⟩ = text := List.append_nil text
      rw [hcharacters] at hrawne
      rw [hcharacters, List.flatMap_nil, List.append_nil,
        cutLines_of_newline_not_mem hrawne hraw.newline_not_mem]
    · rw [cutLines_characters_append hraw hending, ih hcut hne fun line hline => ?_]
      refine hended line ?_
      rw [List.dropLast_cons_of_ne_nil (by rintro rfl; cases hline)]
      exact List.mem_cons_of_mem raw hline

/-! ## Numbers and offsets -/

/-- **Numbers and offsets say where lines stand.** -/
theorem eq_numberLines_iff {lines : List Line} {index start : Nat} :
    lines = numberLines index start (lines.map Line.raw) ↔
      lines.map Line.index = List.range' index lines.length ∧
      ∀ before line after, lines = before ++ line :: after →
        line.offset = start + byteLength (before.flatMap (·.raw.characters)) := by
  induction lines generalizing index start with
  | nil => simp [numberLines]
  | cons first lines ih =>
    rw [List.map_cons, numberLines, List.cons.injEq, ih, List.map_cons, List.length_cons,
      List.range'_succ, List.cons.injEq]
    constructor
    · rintro ⟨hfirst, hindex, hoffset⟩
      refine ⟨⟨congrArg Line.index hfirst, hindex⟩, fun before line after h => ?_⟩
      cases before with
      | nil =>
        obtain ⟨rfl, rfl⟩ := List.cons.inj h
        exact congrArg Line.offset hfirst
      | cons other before =>
        obtain ⟨rfl, hrest⟩ := List.cons.inj h
        rw [hoffset before line after hrest, List.flatMap_cons, byteLength_append, Nat.add_assoc]
    · rintro ⟨⟨rfl, hindex⟩, hoffset⟩
      obtain rfl : first.offset = start := hoffset [] first lines rfl
      refine ⟨rfl, hindex, fun before line after h => ?_⟩
      rw [hoffset (first :: before) line after (congrArg (first :: ·) h), List.flatMap_cons,
        byteLength_append, Nat.add_assoc]

/-- The lines of a table are those that are cut. -/
theorem map_raw_lineTable (text : List Char) : (lineTable text).map Line.raw = cutLines text :=
  map_raw_numberLines 1 0 (cutLines text)

/-- What stands around a line in the table stood around it when it was cut. -/
theorem cutLines_eq_of_lineTable {text : List Char} {before after : List Line} {line : Line}
    (h : lineTable text = before ++ line :: after) :
    cutLines text = before.map Line.raw ++ line.raw :: after.map Line.raw := by
  rw [← map_raw_lineTable, h, List.map_append, List.map_cons]

/-! ## The one table of a text -/

namespace IsLineTable

variable {text : List Char} {lines : List Line} (h : IsLineTable text lines)
include h

theorem isCut {line : Line} (hline : line ∈ lines) : line.raw.IsCut where
  newline_not_mem := h.newline_not_mem line hline
  return_ne_getLast? hending hlast := by
    obtain ⟨before, after, hlines⟩ := List.append_of_mem hline
    obtain ⟨stem, hstem, hreturn⟩ := h.return_before before line after hlines (by simp [hending])
    rw [RawLine.characters, hending, LineEnding.characters, ← List.append_assoc] at hstem
    have hlast : stem.getLast? = some '\r' := by
      rw [← List.append_cancel_right hstem, List.getLast?_append, hlast]
      rfl
    cases hending.symm.trans (hreturn.2 hlast)

theorem eq_lineTable : lines = lineTable text := by
  have hcut : cutLines text = lines.map Line.raw := by
    rw [← h.joined, ← List.flatMap_map]
    refine cutLines_flatMap ?_ ?_ ?_
    · exact List.forall_mem_map.2 fun line hline => h.isCut hline
    · exact List.forall_mem_map.2 h.nonempty
    · rw [← List.map_dropLast]
      exact List.forall_mem_map.2 h.ended
  rw [lineTable, hcut]
  refine eq_numberLines_iff.2 ⟨h.numbered, fun before line after hlines => ?_⟩
  rw [h.placed before line after hlines, Nat.zero_add]

end IsLineTable

/-- **The `\n` of an ending has a `\r` in front** just when the ending is `\r\n`. -/
theorem exists_stem_of_cutLines {text : List Char} {before after : List RawLine} {raw : RawLine}
    (h : cutLines text = before ++ raw :: after) (hending : raw.ending ≠ .none) :
    ∃ stem, before.flatMap RawLine.characters ++ raw.characters = stem ++ ['\n'] ∧
      (raw.ending = .returnNewline ↔ stem.getLast? = some '\r') := by
  cases hraw : raw.ending with
  | none => exact absurd hraw hending
  | returnNewline =>
    refine ⟨before.flatMap RawLine.characters ++ (raw.text ++ ['\r']), ?_, by simp⟩
    simp [RawLine.characters, hraw, LineEnding.characters]
  | newline =>
    refine ⟨before.flatMap RawLine.characters ++ raw.text, ?_, by simp, fun hlast => ?_⟩
    · simp [RawLine.characters, hraw, LineEnding.characters]
    · -- a `\r` at the end of the stem stands in the line, or in front of it
      rw [List.getLast?_append, Option.or_eq_some_iff] at hlast
      rcases hlast with hlast | ⟨_, hlast⟩
      · have hmem : raw ∈ cutLines text := h ▸ List.mem_append_right _ List.mem_cons_self
        exact absurd hlast (return_ne_getLast?_text hmem hraw)
      · exact absurd (eq_newline_of_getLast?_flatMap h hlast) (by decide)

theorem isLineTable_lineTable (text : List Char) : IsLineTable text (lineTable text) := by
  have hnumbers : lineTable text = numberLines 1 0 ((lineTable text).map Line.raw) := by
    rw [map_raw_lineTable, lineTable]
  obtain ⟨hindex, hoffset⟩ := eq_numberLines_iff.1 hnumbers
  have hmem : ∀ line ∈ lineTable text, line.raw ∈ cutLines text := by
    rw [← map_raw_lineTable]
    exact fun line => List.mem_map_of_mem
  exact {
    joined := by rw [← List.flatMap_map, map_raw_lineTable, flatMap_cutLines]
    ended line hline := by
      have hraw : line.raw ∈ (cutLines text).dropLast := by
        rw [← map_raw_lineTable, ← List.map_dropLast]
        exact List.mem_map_of_mem hline
      exact ending_ne_none_of_mem_dropLast hraw
    nonempty line hline := characters_ne_nil_of_mem_cutLines (hmem line hline)
    newline_not_mem line hline := newline_not_mem_of_mem_cutLines (hmem line hline)
    return_before before line after h hending := by
      rw [← List.flatMap_map]
      exact exists_stem_of_cutLines (cutLines_eq_of_lineTable h) hending
    numbered := hindex
    placed before line after h := by rw [hoffset before line after h, Nat.zero_add] }

/-! ## How many lines there are -/

/-- Behind a `\n` comes nothing, or a text that ends alike. -/
theorem getLast?_newline_cons (rest : List Char) :
    ('\n' :: rest).getLast? = some '\n' ↔ rest = [] ∨ rest.getLast? = some '\n' := by
  cases rest <;> simp [List.getLast?_cons_cons]

/-- **There is a line for each `\n`, and one for what stands behind the last.** -/
theorem length_cutLines (text : List Char) :
    (cutLines text).length =
      text.count '\n' + if text = [] ∨ text.getLast? = some '\n' then 0 else 1 := by
  fun_induction cutLines text with
  | case1 => rfl
  | case2 rest ih =>
    rw [List.length_cons, ih, List.count_cons_self]
    simp only [getLast?_newline_cons, reduceCtorEq, false_or]
    omega
  | case3 rest ih =>
    rw [List.length_cons, ih, List.count_cons_of_ne (by decide), List.count_cons_self,
      List.getLast?_cons_cons]
    simp only [getLast?_newline_cons, reduceCtorEq, false_or]
    omega
  | case4 c rest hn hr hrest ih =>
    have hc : c ≠ '\n' := hn
    obtain rfl := cutLines_eq_nil_iff.1 hrest
    simp [List.count_cons_of_ne hc, hc]
  | case5 c rest hn hr line lines hrest ih =>
    have hc : c ≠ '\n' := hn
    rw [hrest] at ih
    rw [List.length_cons, List.count_cons_of_ne hc]
    cases rest with
    | nil => simp [cutLines] at hrest
    | cons d rest =>
      rw [List.getLast?_cons_cons]
      simpa using ih

/-- **The last line has an ending just when the text ends in a `\n`.** -/
theorem ending_getLast? {text : List Char} {lines : List RawLine} {raw : RawLine}
    (h : cutLines text = lines ++ [raw]) :
    raw.ending ≠ .none ↔ text.getLast? = some '\n' := by
  have hmem : raw ∈ cutLines text := h ▸ List.mem_append_right _ List.mem_cons_self
  have hlast : text.getLast? = raw.characters.getLast? := by
    rw [eq_append_of_cutLines h,
      List.getLast?_append_of_ne_nil _ (characters_ne_nil_of_mem_cutLines hmem)]
  rw [hlast, RawLine.characters]
  cases raw.ending with
  | newline => simp [LineEnding.characters]
  | returnNewline => simp [LineEnding.characters]
  | none =>
    refine iff_of_false (fun hne => hne rfl) fun hlast => ?_
    rw [LineEnding.characters, List.append_nil] at hlast
    exact newline_not_mem_of_mem_cutLines hmem (List.mem_of_getLast? hlast)

namespace SourceUnit

/-- **The lines of a unit are the line table of its contents, and nothing else is.**  The first
begins at byte 0, every other one further on, all of them between characters.  Empty contents have
no line; the last line has an ending just when the contents end in a `\n`; and there is a line for
each `\n`, with one more for what stands behind the last. -/
theorem lines_exact (unit : SourceUnit) :
    (∀ table, IsLineTable unit.contents.toList table ↔ table = unit.lines) ∧
    (∀ line, unit.lines.head? = some line → line.offset = 0) ∧
    unit.lines.Pairwise (·.offset < ·.offset) ∧
    (∀ line ∈ unit.lines, String.Pos.Raw.IsValid unit.contents ⟨line.offset⟩) ∧
    (unit.lines = [] ↔ unit.contents = "") ∧
    (∀ line, unit.lines.getLast? = some line →
      (line.raw.ending ≠ .none ↔ unit.contents.toList.getLast? = some '\n')) ∧
    unit.lines.length = unit.contents.toList.count '\n' +
      if unit.contents = "" ∨ unit.contents.toList.getLast? = some '\n' then 0 else 1 := by
  have htable := isLineTable_lineTable unit.contents.toList
  refine ⟨fun table => ⟨IsLineTable.eq_lineTable, fun h => h ▸ htable⟩, fun line hline => ?_,
    (pairwise_lineTable _).imp And.right, fun line hline => ?_, ?_, fun line hline => ?_, ?_⟩
  · obtain ⟨after, hlines⟩ := List.head?_eq_some_iff.1 hline
    exact htable.placed [] line after hlines
  · obtain ⟨before, after, htext, hoffset⟩ := exists_append_of_mem_lineTable hline
    exact isValid_iff_exists_append.2 ⟨before, _, htext, hoffset.symm⟩
  · rw [← List.map_eq_nil_iff, lines, map_raw_lineTable, cutLines_eq_nil_iff,
      String.toList_eq_nil_iff]
  · obtain ⟨before, hlines⟩ := List.getLast?_eq_some_iff.1 hline
    exact ending_getLast? (cutLines_eq_of_lineTable hlines)
  · rw [lines, lineTable, length_numberLines, length_cutLines]
    simp only [String.toList_eq_nil_iff]

namespace Returns

/-- A `\r` in front of an ending `\r\n`, a line with nothing in it, and a lone `\r` at the end. -/
def unit : SourceUnit := .ofContents "é\r\r\n\n\r"

/-- Its lines. -/
def lines : List Line :=
  [⟨1, 0, ⟨['é', '\r'], .returnNewline⟩⟩, ⟨2, 5, ⟨[], .newline⟩⟩, ⟨3, 6, ⟨['\r'], .none⟩⟩]

end Returns

/-- Of two `\r` in front of a `\n` one stays in its line, and so does one at the end. -/
theorem lines_exact_returns :
    Returns.unit.lines = Returns.lines ∧
      IsLineTable Returns.unit.contents.toList Returns.lines := by
  have hlines : Returns.unit.lines = Returns.lines := by decide +kernel
  exact ⟨hlines, ((lines_exact Returns.unit).1 Returns.lines).2 hlines.symm⟩

end SourceUnit

end SwiftStyle
