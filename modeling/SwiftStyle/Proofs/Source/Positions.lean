import Mathlib.Data.List.Pairwise
import Mathlib.Data.String.Basic
import Mathlib.Logic.Function.Iterate
import SwiftStyle.Proofs.Source.Lines

/-!
# Proofs/Source/Positions — byte offsets and positions

Lines follow one another in a text (`pairwise_lineTable`), each standing at its offset
(`exists_append_of_mem_lineTable`).  So the line of a position is the last one that begins at or
before the offset, and what lies between them are the characters that the position counts
(`SourceUnit.Marks`).  An offset has a position just where a character of the contents ends
(`isSome_positionIn?_numberLines_iff`), and a greater offset has a later one (`before_of_lt`).
-/

namespace SwiftStyle

/-! ## Lines in their order -/

/-- Only an empty text has no line. -/
theorem cutLines_eq_nil_iff {text : List Char} : cutLines text = [] ↔ text = [] := by
  constructor
  · intro hcut
    rw [← flatMap_cutLines text, hcut, List.flatMap_nil]
  · intro hnil
    rw [hnil, cutLines]

/-- No line is empty, its ending included. -/
theorem characters_ne_nil_of_mem_cutLines {text : List Char} {raw : RawLine}
    (h : raw ∈ cutLines text) : raw.characters ≠ [] :=
  forall_mem_cutLines (P := fun raw => raw.characters ≠ []) (List.cons_ne_nil _ _)
    (List.cons_ne_nil _ _) (fun _ _ => List.cons_ne_nil _ _)
    (fun _ _ _ _ _ => List.cons_ne_nil _ _) text raw h

/-- A line stands in the text at its offset. -/
theorem exists_append_of_mem_numberLines {index start : Nat} {raws : List RawLine} {line : Line}
    (h : line ∈ numberLines index start raws) :
    ∃ before after, raws.flatMap RawLine.characters = before ++ (line.raw.characters ++ after) ∧
      line.offset = start + byteLength before ∧ index ≤ line.index := by
  induction raws generalizing index start with
  | nil => cases h
  | cons raw raws ih =>
    rcases List.mem_cons.1 h with rfl | h
    · exact ⟨[], raws.flatMap RawLine.characters, rfl, rfl, Nat.le_refl _⟩
    · obtain ⟨before, after, htext, hoffset, hindex⟩ := ih h
      refine ⟨raw.characters ++ before, after, ?_, ?_, Nat.le_of_succ_le hindex⟩
      · rw [List.flatMap_cons, htext, List.append_assoc]
      · rw [hoffset, byteLength_append, Nat.add_assoc]

theorem exists_append_of_mem_lineTable {contents : List Char} {line : Line}
    (h : line ∈ lineTable contents) :
    ∃ before after, contents = before ++ (line.raw.characters ++ after) ∧
      line.offset = byteLength before := by
  obtain ⟨before, after, htext, hoffset, _⟩ := exists_append_of_mem_numberLines h
  exact ⟨before, after, by rwa [flatMap_cutLines] at htext, by rwa [Nat.zero_add] at hoffset⟩

theorem pairwise_numberLines {raws : List RawLine} (h : ∀ raw ∈ raws, raw.characters ≠ [])
    (index start : Nat) :
    (numberLines index start raws).Pairwise fun a b =>
      a.index < b.index ∧ a.offset < b.offset := by
  induction raws generalizing index start with
  | nil => exact .nil
  | cons raw raws ih =>
    obtain ⟨hraw, hraws⟩ := List.forall_mem_cons.1 h
    have hpos := byteLength_pos hraw
    refine .cons (fun line hline => ?_) (ih hraws _ _)
    obtain ⟨before, after, _, hoffset, hindex⟩ := exists_append_of_mem_numberLines hline
    exact ⟨hindex, by simp only [hoffset]; omega⟩

/-- **Lines are in order**, by number and by offset. -/
theorem pairwise_lineTable (contents : List Char) :
    (lineTable contents).Pairwise fun a b => a.index < b.index ∧ a.offset < b.offset :=
  pairwise_numberLines (fun _ => characters_ne_nil_of_mem_cutLines) 1 0

/-! ## The line of an offset -/

/-- **The last line that begins at or before an offset**: the lines up to it do, and no other. -/
theorem offset_le_iff_of_getLast? {lines : List Line} {offset : Nat} {line : Line}
    (hlines : lines.Pairwise fun a b => a.index < b.index ∧ a.offset < b.offset)
    (h : (lines.takeWhile (·.offset ≤ offset)).getLast? = some line) :
    ∀ other ∈ lines, other.offset ≤ offset ↔ other.index ≤ line.index := by
  obtain ⟨front, hfront⟩ := List.getLast?_eq_some_iff.1 h
  have hle : ∀ other ∈ front ++ [line], other.offset ≤ offset := by
    intro other hother
    rw [← hfront] at hother
    simpa using List.all_eq_true.1 List.all_takeWhile other hother
  have hsplit := List.takeWhile_append_dropWhile (p := (·.offset ≤ offset)) (l := lines)
  have hhead := List.head?_dropWhile_not (·.offset ≤ offset) lines
  rw [hfront] at hsplit
  rw [← hsplit] at hlines ⊢
  obtain ⟨hbefore, hafter, hacross⟩ := List.pairwise_append.1 hlines
  intro other hother
  rcases List.mem_append.1 hother with hother | hother
  · refine iff_of_true (hle other hother) ?_
    rcases List.mem_append.1 hother with hother | hother
    · exact Nat.le_of_lt ((List.pairwise_append.1 hbefore).2.2 other hother line
        List.mem_cons_self).1
    · obtain rfl := List.mem_singleton.1 hother
      exact Nat.le_refl _
  · have hindex := (hacross line (by simp) other hother).1
    refine iff_of_false ?_ (by omega)
    -- the first of the other lines begins after the offset, hence so do all
    cases hrest : lines.dropWhile (·.offset ≤ offset) with
    | nil => rw [hrest] at hother; cases hother
    | cons next rest =>
      rw [hrest] at hother hhead hafter
      have hnext : offset < next.offset := by simpa using hhead
      rcases List.mem_cons.1 hother with rfl | hother
      · omega
      · have := (List.rel_of_pairwise_cons hafter hother).2
        omega

/-- **A position is on the last line that begins at or before its offset**, right behind some
characters of that line. -/
theorem exists_last_line_of_positionIn? {contents : List Char} {offset : Nat} {p : Position}
    (h : positionIn? (lineTable contents) offset = some p) :
    ∃ line ∈ lineTable contents, line.index = p.line ∧
      (∀ other ∈ lineTable contents, other.offset ≤ offset ↔ other.index ≤ line.index) ∧
      ∃ before, charactersIn? (offset - line.offset) line.raw.characters = some before ∧
        before + 1 = p.character := by
  obtain ⟨line, hline, h⟩ := Option.bind_eq_some_iff.1 h
  obtain ⟨before, hbefore, h⟩ := Option.bind_eq_some_iff.1 h
  obtain rfl := Option.some.inj h
  exact ⟨line, (List.takeWhile_prefix _).subset (List.mem_of_getLast? hline), rfl,
    offset_le_iff_of_getLast? (pairwise_lineTable contents) hline, before, hbefore, rfl⟩

/-! ## Which offsets have a position -/

/-- What is cut off the front of a text lies in the first piece or takes it whole. -/
theorem exists_append_of_byteLength_le {a b before after : List Char}
    (h : a ++ b = before ++ after) (hle : byteLength a ≤ byteLength before) :
    ∃ more, before = a ++ more ∧ b = more ++ after := by
  rcases List.append_eq_append_iff.1 h with hmore | ⟨more, rfl, rfl⟩
  · exact hmore
  · obtain rfl : more = [] := by
      by_contra hne
      have := byteLength_pos hne
      rw [byteLength_append] at hle
      omega
    exact ⟨[], by simp, rfl⟩

/-- **An offset has a position just where a character of the text ends**, unless there is no
line. -/
theorem isSome_positionIn?_numberLines_iff (raws : List RawLine) (index start bytes : Nat) :
    (positionIn? (numberLines index start raws) (start + bytes)).isSome ↔
      raws ≠ [] ∧ ∃ before after, raws.flatMap RawLine.characters = before ++ after ∧
        byteLength before = bytes := by
  induction raws generalizing index start bytes with
  | nil => simp [numberLines, positionIn?]
  | cons raw raws ih =>
    rw [positionIn?_numberLines_cons (Nat.le_add_right _ _), List.flatMap_cons]
    simp only [ne_eq, reduceCtorEq, not_false_eq_true, true_and]
    split
    · next hfirst =>
      rw [Option.isSome_map, Option.isSome_iff_exists, Nat.add_sub_cancel_left]
      constructor
      · rintro ⟨n, hn⟩
        obtain ⟨before, after, htext, hbytes, _⟩ := charactersIn?_eq_some_iff.1 hn
        exact ⟨before, after ++ raws.flatMap RawLine.characters,
          by rw [htext, List.append_assoc], hbytes⟩
      · rintro ⟨before, after, htext, hbytes⟩
        obtain ⟨more, hmore⟩ : before <+: raw.characters := by
          rcases hfirst with rfl | hlt
          · exact ⟨after, by simpa using htext.symm⟩
          · obtain ⟨more, hmore, _⟩ := exists_append_of_byteLength_le htext.symm (by omega)
            exact ⟨more, hmore.symm⟩
        exact ⟨before.length, charactersIn?_eq_some_iff.2 ⟨before, more, hmore.symm, hbytes, rfl⟩⟩
    · next hpast =>
      have hne : raws ≠ [] := fun he => hpast (.inl he)
      obtain ⟨more, rfl⟩ : ∃ more, bytes = byteLength raw.characters + more :=
        Nat.exists_eq_add_of_le (by omega)
      rw [← Nat.add_assoc, ih]
      constructor
      · rintro ⟨_, before, after, htext, rfl⟩
        exact ⟨raw.characters ++ before, after, by rw [htext, List.append_assoc],
          byteLength_append _ _⟩
      · rintro ⟨before, after, htext, hbytes⟩
        obtain ⟨inner, rfl, hrest⟩ := exists_append_of_byteLength_le htext (by omega)
        rw [byteLength_append] at hbytes
        exact ⟨hne, inner, after, hrest, by omega⟩

/-! ## The order of positions -/

/-- **Before another position**: on an earlier line, or on the same line at an earlier character. -/
def Position.Before (p q : Position) : Prop :=
  p.line < q.line ∨ p.line = q.line ∧ p.character < q.character

/-- **A greater offset has a later position.** -/
theorem before_of_lt {contents : List Char} {offset offset' : Nat} {p p' : Position}
    (h : positionIn? (lineTable contents) offset = some p)
    (h' : positionIn? (lineTable contents) offset' = some p') (hlt : offset < offset') :
    p.Before p' := by
  obtain ⟨line, hmem, hindex, hlast, before, hbefore, hcharacter⟩ :=
    exists_last_line_of_positionIn? h
  obtain ⟨line', hmem', hindex', hlast', before', hbefore', hcharacter'⟩ :=
    exists_last_line_of_positionIn? h'
  have hstart := (hlast line hmem).2 (Nat.le_refl _)
  have hle : line.index ≤ line'.index := (hlast' line hmem).1 (by omega)
  rcases Nat.lt_or_eq_of_le hle with hline | hline
  · exact .inl (by omega)
  · obtain rfl : line = line' :=
      List.inj_on_of_nodup_map (nodup_index_lineTable contents) hmem hmem' hline
    have := lt_of_charactersIn? hbefore hbefore' (by omega)
    exact .inr ⟨by omega, by omega⟩

/-! ## Characters one after the other -/

theorem byteLength_eq_utf8Len (text : List Char) : byteLength text = String.utf8Len text := by
  induction text with
  | nil => rfl
  | cons c text ih => rw [byteLength, ih, String.utf8Len_cons, Nat.add_comm]

/-- **As many steps as there are characters lead past them.** -/
theorem next_iterate (before chars after : List Char) :
    (String.Pos.Raw.next (String.ofList (before ++ (chars ++ after))))^[chars.length]
      ⟨byteLength before⟩ = ⟨byteLength before + byteLength chars⟩ := by
  induction chars generalizing before with
  | nil => rfl
  | cons c chars ih =>
    have hstep := String.next_of_valid before c (chars ++ after)
    have hrest := ih (before ++ [c])
    rw [List.append_assoc, List.singleton_append, byteLength_append] at hrest
    rw [← byteLength_eq_utf8Len] at hstep
    rw [List.length_cons, Function.iterate_succ_apply, List.cons_append, hstep]
    simpa [byteLength, Nat.add_assoc] using hrest

/-- **What stands between two places** of a text. -/
theorem extract_eq (before chars after : List Char) :
    String.Pos.Raw.extract (String.ofList (before ++ (chars ++ after))) ⟨byteLength before⟩
      ⟨byteLength before + byteLength chars⟩ = String.ofList chars := by
  have h := String.extract_of_valid before chars after
  rwa [← byteLength_eq_utf8Len, ← byteLength_eq_utf8Len, List.append_assoc] at h

namespace SourceUnit

/-- **What a position says of a byte offset.**  Its line is the last one that begins at or before
the offset.  Its character counts those between the start of the line and the offset, and as many
steps from the start of the line lead back to the offset. -/
structure Marks (unit : SourceUnit) (offset : Nat) (p : Position) (line : Line) : Prop where
  mem : line ∈ unit.lines
  index : line.index = p.line
  last : ∀ other ∈ unit.lines, other.offset ≤ offset ↔ other.index ≤ line.index
  counted : (String.Pos.Raw.extract unit.contents ⟨line.offset⟩ ⟨offset⟩).length + 1 = p.character
  recovered : (String.Pos.Raw.next unit.contents)^[p.character - 1] ⟨line.offset⟩ = ⟨offset⟩

theorem exists_marks {unit : SourceUnit} {offset : Nat} {p : Position}
    (h : unit.position? offset = some p) : ∃ line, unit.Marks offset p line := by
  obtain ⟨line, hmem, hindex, hlast, n, hn, hcharacter⟩ := exists_last_line_of_positionIn? h
  have hstart := (hlast line hmem).2 (Nat.le_refl _)
  obtain ⟨before, after, htext, hoffset⟩ := exists_append_of_mem_lineTable hmem
  obtain ⟨chars, rest, hraw, hbytes, rfl⟩ := charactersIn?_eq_some_iff.1 hn
  rw [hraw, List.append_assoc] at htext
  have hcontents : unit.contents = String.ofList (before ++ (chars ++ (rest ++ after))) := by
    rw [← htext, String.ofList_toList]
  obtain rfl : offset = byteLength before + byteLength chars := by omega
  refine ⟨line, hmem, hindex, hlast, ?_, ?_⟩
  · rw [hcontents, hoffset, extract_eq, String.length_ofList, hcharacter]
  · rw [hcontents, hoffset, ← hcharacter, Nat.add_sub_cancel, next_iterate]

theorem isSome_position?_iff (unit : SourceUnit) (offset : Nat) :
    (unit.position? offset).isSome ↔ unit.contents ≠ "" ∧
      String.Pos.Raw.IsValid unit.contents ⟨offset⟩ := by
  have h := isSome_positionIn?_numberLines_iff (cutLines unit.contents.toList) 1 0 offset
  rw [Nat.zero_add, flatMap_cutLines, ← isValid_iff_exists_append, Ne, cutLines_eq_nil_iff,
    String.toList_eq_nil_iff] at h
  exact h

/-- **Offsets and positions correspond one to one.**  An offset has a position just where a
character of contents that are not empty ends, the end of the contents included; the position marks
the offset; a greater offset has a later position, and a position belongs to one offset. -/
theorem position?_one_to_one (unit : SourceUnit) :
    (∀ offset, (unit.position? offset).isSome ↔ unit.contents ≠ "" ∧
      offset ≤ unit.contents.utf8ByteSize ∧ String.Pos.Raw.IsValid unit.contents ⟨offset⟩) ∧
    (∀ offset p, unit.position? offset = some p → ∃ line, unit.Marks offset p line) ∧
    ∀ offset offset' p p', unit.position? offset = some p → unit.position? offset' = some p' →
      (offset < offset' → p.Before p') ∧ (p = p' → offset = offset') := by
  refine ⟨fun offset => ?_, fun _ _ => exists_marks, fun offset offset' p p' h h' => ?_⟩
  · rw [isSome_position?_iff]
    refine and_congr_right fun _ => ⟨fun hvalid => ⟨?_, hvalid⟩, And.right⟩
    exact hvalid.le_rawEndPos
  · exact ⟨before_of_lt h h', fun he => positionIn?_injective h (he ▸ h')⟩

namespace Wide

/-- A wide character, a return and a newline, and a line without an ending. -/
def unit : SourceUnit := .ofContents "é\r\nb"

end Wide

/-- Inside the wide character there is no position; between the return and the newline there is one,
and it comes before the start of the next line. -/
theorem position?_one_to_one_wide :
    Wide.unit.position? 1 = none ∧ Wide.unit.position? 3 = some ⟨1, 3⟩ ∧
      (∃ line, Wide.unit.Marks 3 ⟨1, 3⟩ line) ∧
      Wide.unit.position? 4 = some ⟨2, 1⟩ ∧ Position.Before ⟨1, 3⟩ ⟨2, 1⟩ := by
  obtain ⟨_, hmarks, horder⟩ := position?_one_to_one Wide.unit
  have hthree : Wide.unit.position? 3 = some ⟨1, 3⟩ := by decide +kernel
  have hfour : Wide.unit.position? 4 = some ⟨2, 1⟩ := by decide +kernel
  exact ⟨by decide +kernel, hthree, hmarks 3 _ hthree, hfour,
    (horder 3 4 _ _ hthree hfour).1 (by decide)⟩

end SourceUnit

end SwiftStyle
