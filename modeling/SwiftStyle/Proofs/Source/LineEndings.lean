import SwiftStyle.Proofs.Source.Lines
import SwiftStyle.Proofs.Source.Structure
import SwiftStyle.Proofs.Text.Bytes

/-!
# Proofs/Source/LineEndings — the same file with other line endings

A text without carriage returns is written anew with `\r\n` in place of every `\n`
(`withReturns`), and the offsets of its structure tree are moved along.  Its lines keep their numbers
and texts (`map_bare_lines_withReturns`), and an offset inside the contents keeps its line and
character (`position?_withReturns`): the return that is new stands behind every character of its
line.
-/

namespace SwiftStyle

/-- The text with `\r\n` in place of every `\n`. -/
def withReturns (text : List Char) : List Char :=
  text.flatMap fun c => if c = '\n' then ['\r', '\n'] else [c]

/-- The byte offset of the same place when each `\n` byte before it has a `\r` in front. -/
def SourceUnit.movedOffset (unit : SourceUnit) (offset : Nat) : Nat :=
  offset + ((utf8 unit.contents).take offset).count '\n'.toUInt8

/-- The unit whose lines end in `\r\n` where they ended in `\n`. -/
def SourceUnit.withReturns (unit : SourceUnit) : SourceUnit where
  path := unit.path
  contents := String.ofList (SwiftStyle.withReturns unit.contents.toList)
  tree := unit.tree.mapOffsets unit.movedOffset

theorem SourceUnit.tree_withReturns (unit : SourceUnit) :
    unit.withReturns.tree = unit.tree.mapOffsets unit.movedOffset := rfl

/-! ## Lines -/

theorem withReturns_newline (rest : List Char) :
    withReturns ('\n' :: rest) = '\r' :: '\n' :: withReturns rest := rfl

theorem withReturns_cons {c : Char} (h : c ≠ '\n') (rest : List Char) :
    withReturns (c :: rest) = c :: withReturns rest := by
  simp [withReturns, h]

/-- The line that ends in `\r\n` if it ended in `\n`. -/
def RawLine.withReturn (raw : RawLine) : RawLine :=
  match raw.ending with
  | .newline => { raw with ending := .returnNewline }
  | _ => raw

@[simp] theorem RawLine.text_withReturn (raw : RawLine) : raw.withReturn.text = raw.text := by
  rw [withReturn]
  split <;> rfl

/-- **The lines of a text stay the same** when their endings change. -/
theorem cutLines_withReturns {text : List Char} (h : '\r' ∉ text) :
    cutLines (withReturns text) = (cutLines text).map RawLine.withReturn := by
  fun_induction cutLines text with
  | case1 => rfl
  | case2 rest ih =>
    rw [withReturns_newline, cutLines, ih fun hr => h (List.mem_cons_of_mem _ hr)]
    rfl
  | case3 rest ih => exact absurd List.mem_cons_self h
  | case4 c rest hn hr hrest ih =>
    have hc : c ≠ '\r' := fun he => h (he ▸ List.mem_cons_self)
    rw [withReturns_cons hn, cutLines, ih fun hr => h (List.mem_cons_of_mem _ hr), hrest]
    · rfl
    · exact hn
    · exact fun _ he => absurd he hc
  | case5 c rest hn hr line lines hrest ih =>
    have hc : c ≠ '\r' := fun he => h (he ▸ List.mem_cons_self)
    rw [withReturns_cons hn, cutLines, ih fun hr => h (List.mem_cons_of_mem _ hr), hrest]
    · obtain ⟨text, ending⟩ := line
      cases ending <;> rfl
    · exact hn
    · exact fun _ he => absurd he hc

/-- **Lines keep their numbers and texts** when their endings change. -/
theorem SourceUnit.map_bare_lines_withReturns {unit : SourceUnit}
    (h : '\r' ∉ unit.contents.toList) :
    unit.withReturns.lines.map Line.bare = unit.lines.map Line.bare := by
  rw [lines, lines, lineTable, withReturns, String.toList_ofList, cutLines_withReturns h]
  refine map_bare_numberLines ?_ 1 0 0
  rw [List.map_map]
  exact List.map_congr_left fun raw _ => raw.text_withReturn

/-- Whatever is read off the numbers and texts of lines stays the same. -/
theorem SourceUnit.filterMap_lines_withReturns {unit : SourceUnit}
    (h : '\r' ∉ unit.contents.toList) {α : Type} {f : Line → Option α}
    (hf : ∀ line, f line.bare = f line) :
    unit.withReturns.lines.filterMap f = unit.lines.filterMap f := by
  have hbare : ∀ lines : List Line, lines.filterMap f = (lines.map Line.bare).filterMap f := by
    intro lines
    rw [List.filterMap_map]
    exact congrArg (lines.filterMap ·) (funext fun line => (hf line).symm)
  rw [hbare, hbare unit.lines, map_bare_lines_withReturns h]

/-! ## Positions -/

/-- The newlines among the characters that begin before a byte offset. -/
def newlinesBefore : Nat → List Char → Nat
  | 0, _ => 0
  | _ + 1, [] => 0
  | bytes + 1, c :: rest =>
      (if c = '\n' then 1 else 0) + newlinesBefore (bytes + 1 - c.utf8Size) rest

/-- **Newlines may be counted among the characters** in place of the bytes. -/
theorem SourceUnit.movedOffset_eq (unit : SourceUnit) (offset : Nat) :
    unit.movedOffset offset = offset + newlinesBefore offset unit.contents.toList := by
  have hcount : ∀ (cs : List Char) (bytes : Nat),
      ((cs.flatMap String.utf8EncodeChar).take bytes).count '\n'.toUInt8
        = newlinesBefore bytes cs := by
    intro cs bytes
    induction cs generalizing bytes with
    | nil => cases bytes <;> rfl
    | cons c cs ih =>
      cases bytes with
      | zero => rfl
      | succ bytes =>
        rw [List.flatMap_cons, List.take_append, List.count_append, count_newline_utf8EncodeChar,
          ih, String.length_utf8EncodeChar, newlinesBefore]
  rw [movedOffset, utf8_eq, hcount]

theorem newlinesBefore_cons {bytes : Nat} {c : Char} (h : c.utf8Size ≤ bytes) (rest : List Char) :
    newlinesBefore bytes (c :: rest)
      = (if c = '\n' then 1 else 0) + newlinesBefore (bytes - c.utf8Size) rest := by
  have hsize := c.utf8Size_pos
  cases bytes with
  | zero => omega
  | succ bytes => rfl

/-- In a piece without newlines none is counted. -/
theorem newlinesBefore_eq_zero {bytes : Nat} {a : List Char} (ha : '\n' ∉ a)
    (h : bytes ≤ byteLength a) (b : List Char) : newlinesBefore bytes (a ++ b) = 0 := by
  induction a generalizing bytes with
  | nil =>
    obtain rfl : bytes = 0 := Nat.le_zero.1 h
    cases b <;> rfl
  | cons c a ih =>
    have hc : c ≠ '\n' := fun he => ha (he ▸ List.mem_cons_self)
    cases bytes with
    | zero => rfl
    | succ bytes =>
      rw [List.cons_append, newlinesBefore, if_neg hc, Nat.zero_add]
      exact ih (fun hn => ha (List.mem_cons_of_mem _ hn)) (by rw [byteLength] at h; omega)

/-- Past a piece all its newlines are counted. -/
theorem newlinesBefore_append (a : List Char) (bytes : Nat) (b : List Char) :
    newlinesBefore (byteLength a + bytes) (a ++ b) = a.count '\n' + newlinesBefore bytes b := by
  induction a with
  | nil => simp [byteLength]
  | cons c a ih =>
    rw [byteLength, List.cons_append, newlinesBefore_cons (by omega), Nat.add_assoc,
      Nat.add_sub_cancel_left, ih, List.count_cons]
    simp only [beq_iff_eq]
    omega

/-- A line as it is cut from a text without returns. -/
structure RawLine.IsPlain (raw : RawLine) : Prop where
  newline_not_mem : '\n' ∉ raw.text
  ending_ne : raw.ending ≠ .returnNewline

/-- No line has a newline inside. -/
theorem newline_not_mem_of_mem_cutLines {text : List Char} {raw : RawLine}
    (h : raw ∈ cutLines text) : '\n' ∉ raw.text := by
  refine forall_mem_cutLines (P := fun raw => '\n' ∉ raw.text) List.not_mem_nil List.not_mem_nil
    (fun c hc => ?_) (fun c raw hc _ hraw => ?_) text raw h
  · exact mt List.mem_singleton.1 (Ne.symm hc)
  · exact mt List.mem_cons.1 (not_or.2 ⟨Ne.symm hc, hraw⟩)

theorem isPlain_of_mem_cutLines {text : List Char} (h : '\r' ∉ text) {raw : RawLine}
    (hraw : raw ∈ cutLines text) : raw.IsPlain where
  newline_not_mem := newline_not_mem_of_mem_cutLines hraw
  ending_ne hending := by
    refine h ?_
    rw [← flatMap_cutLines text]
    exact List.mem_flatMap.2 ⟨raw, hraw, by simp [RawLine.characters, hending, LineEnding.characters]⟩

namespace RawLine.IsPlain

variable {raw : RawLine} (h : raw.IsPlain)
include h

/-- An offset in a line is not past its text. -/
theorem le_byteLength_text {bytes : Nat} (hbytes : bytes < byteLength raw.characters) :
    bytes ≤ byteLength raw.text := by
  have hending := h.ending_ne
  obtain ⟨text, ending⟩ := raw
  cases ending with
  | none => simpa [characters, LineEnding.characters, byteLength_append, byteLength] using
      Nat.le_of_lt hbytes
  | newline =>
    have hsize : '\n'.utf8Size = 1 := rfl
    simp only [characters, LineEnding.characters, byteLength_append, byteLength, hsize] at hbytes ⊢
    omega
  | returnNewline => exact absurd rfl hending

/-- The line becomes longer by the return that stands before its newline. -/
theorem byteLength_withReturn :
    byteLength raw.withReturn.characters = byteLength raw.characters + raw.characters.count '\n' := by
  have hcount := List.count_eq_zero.2 h.newline_not_mem
  have hending := h.ending_ne
  obtain ⟨text, ending⟩ := raw
  cases ending with
  | none => simp [characters, withReturn, LineEnding.characters, hcount]
  | newline =>
    have hreturn : '\r'.utf8Size = 1 := rfl
    simp [characters, withReturn, LineEnding.characters, byteLength_append, byteLength, hcount]
    omega
  | returnNewline => exact absurd rfl hending

end RawLine.IsPlain

/-- **An offset keeps its line and character** when the returns before it are counted in. -/
theorem positionIn?_map_withReturn {raws : List RawLine} (hplain : ∀ raw ∈ raws, raw.IsPlain)
    (index start start' : Nat) {bytes : Nat}
    (hbytes : bytes < byteLength (raws.flatMap RawLine.characters)) :
    positionIn? (numberLines index start' (raws.map RawLine.withReturn))
        (start' + (bytes + newlinesBefore bytes (raws.flatMap RawLine.characters)))
      = positionIn? (numberLines index start raws) (start + bytes) := by
  induction raws generalizing index start start' bytes with
  | nil => simp [byteLength] at hbytes
  | cons raw raws ih =>
    have hraw := hplain raw List.mem_cons_self
    have hlength := hraw.byteLength_withReturn
    rw [List.flatMap_cons, byteLength_append] at hbytes
    rw [List.map_cons, List.flatMap_cons, positionIn?_numberLines_cons (Nat.le_add_right _ _),
      positionIn?_numberLines_cons (Nat.le_add_right _ _)]
    by_cases hfirst : bytes < byteLength raw.characters
    · -- the offset lies in the first line, before its ending
      have htext := hraw.le_byteLength_text hfirst
      have hzero : newlinesBefore bytes (raw.characters ++ raws.flatMap RawLine.characters) = 0 := by
        rw [RawLine.characters, List.append_assoc]
        exact newlinesBefore_eq_zero hraw.newline_not_mem htext _
      rw [hzero, if_pos (.inr (by omega)), if_pos (.inr (by omega)), Nat.add_sub_cancel_left,
        Nat.add_sub_cancel_left, RawLine.characters, RawLine.characters, RawLine.text_withReturn,
        Nat.add_zero, charactersIn?_append htext, charactersIn?_append htext]
    · -- the offset lies behind the first line
      have hne : raws ≠ [] := by
        rintro rfl
        simp [byteLength] at hbytes
        omega
      obtain ⟨more, rfl⟩ := Nat.exists_eq_add_of_le (Nat.le_of_not_lt hfirst)
      have hmore := newlinesBefore_append raw.characters more (raws.flatMap RawLine.characters)
      have hmorebytes : more < byteLength (raws.flatMap RawLine.characters) := by omega
      have hrest := ih (fun raw hraw => hplain raw (List.mem_cons_of_mem _ hraw)) (index + 1)
        (start + byteLength raw.characters) (start' + byteLength raw.withReturn.characters)
        hmorebytes
      rw [hmore, if_neg (by simp only [List.map_eq_nil_iff, hne, false_or]; omega),
        if_neg (by simp only [hne, false_or]; omega), ← Nat.add_assoc start, ← hrest]
      refine congrArg (positionIn? _) ?_
      omega

/-- **An offset inside the contents keeps its line and character** when line endings change. -/
theorem SourceUnit.position?_withReturns {unit : SourceUnit} (h : '\r' ∉ unit.contents.toList)
    {offset : Nat} (hoffset : offset < unit.contents.utf8ByteSize) :
    unit.withReturns.position? (unit.movedOffset offset) = unit.position? offset := by
  have hplain : ∀ raw ∈ cutLines unit.contents.toList, raw.IsPlain := fun raw hraw =>
    isPlain_of_mem_cutLines h hraw
  have hbytes : offset < byteLength ((cutLines unit.contents.toList).flatMap RawLine.characters) := by
    rwa [flatMap_cutLines, byteLength_toList]
  have hposition := positionIn?_map_withReturn hplain 1 0 0 hbytes
  rw [flatMap_cutLines, ← cutLines_withReturns h, Nat.zero_add, Nat.zero_add] at hposition
  rw [movedOffset_eq, position?, position?, lines, lines, lineTable, lineTable, withReturns,
    String.toList_ofList]
  exact hposition

end SwiftStyle
