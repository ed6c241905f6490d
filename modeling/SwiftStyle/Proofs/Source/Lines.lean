import Mathlib.Data.List.Nodup
import SwiftStyle.Source.Unit

/-!
# Proofs/Source/Lines — lines and positions, one line at a time

What a line table says is a matter of its lines from the first to the last: an offset lies in the
first line or is passed on to the others (`positionIn?_numberLines_cons`).  What a line says about
itself, its number and its text, does not depend on where it begins (`Line.bare`).  What all lines
have in common is shown from their ends to their fronts (`forall_mem_cutLines`).  Lines have numbers
of their own, and offsets have positions of their own (`positionIn?_injective`).
-/

namespace SwiftStyle

/-! ## Bytes and characters -/

theorem byteLength_append (a b : List Char) :
    byteLength (a ++ b) = byteLength a + byteLength b := by
  induction a with
  | nil => simp [byteLength]
  | cons c a ih => simp [byteLength, ih, Nat.add_assoc]

/-- A text that is not empty has bytes. -/
theorem byteLength_pos {text : List Char} (h : text ≠ []) : 0 < byteLength text := by
  cases text with
  | nil => exact absurd rfl h
  | cons c text => exact Nat.lt_of_lt_of_le c.utf8Size_pos (Nat.le_add_right _ _)

/-- The bytes of a text are those of its characters. -/
theorem byteLength_toList (text : String) : byteLength text.toList = text.utf8ByteSize := by
  have hall : ∀ l : List Char, byteLength l = (String.ofList l).utf8ByteSize := by
    intro l
    induction l with
    | nil => rfl
    | cons c l ih =>
      rw [byteLength, ih, String.ofList_cons, String.utf8ByteSize_append,
        String.utf8ByteSize_singleton]
  rw [hall, String.ofList_toList]

/-- **A byte offset is a place between characters** when some of the characters, from the first on,
take as many bytes. -/
theorem isValid_iff_exists_append {contents : String} {offset : Nat} :
    String.Pos.Raw.IsValid contents ⟨offset⟩ ↔
      ∃ before after, contents.toList = before ++ after ∧ byteLength before = offset := by
  rw [String.Pos.Raw.isValid_iff_exists_append]
  constructor
  · rintro ⟨before, after, rfl, hoffset⟩
    exact ⟨before.toList, after.toList, String.toList_append,
      (byteLength_toList before).trans (congrArg String.Pos.Raw.byteIdx hoffset).symm⟩
  · rintro ⟨before, after, htext, rfl⟩
    refine ⟨String.ofList before, String.ofList after, ?_, ?_⟩
    · rw [← String.ofList_append, ← htext, String.ofList_toList]
    · have hbefore := byteLength_toList (String.ofList before)
      rw [String.toList_ofList] at hbefore
      rw [hbefore]
      rfl

/-- How many characters the first bytes of a text make up is a matter of these bytes. -/
theorem charactersIn?_append {bytes : Nat} {a : List Char} (h : bytes ≤ byteLength a)
    (b : List Char) : charactersIn? bytes (a ++ b) = charactersIn? bytes a := by
  induction a generalizing bytes with
  | nil =>
    obtain rfl : bytes = 0 := Nat.le_zero.1 h
    cases b <;> rfl
  | cons c a ih =>
    cases bytes with
    | zero => rfl
    | succ bytes =>
      rw [List.cons_append, charactersIn?, charactersIn?, ih (by rw [byteLength] at h; omega)]

/-- **Bytes make up characters just where one ends.** -/
theorem charactersIn?_eq_some_iff {bytes n : Nat} {text : List Char} :
    charactersIn? bytes text = some n ↔
      ∃ before after, text = before ++ after ∧ byteLength before = bytes ∧ before.length = n := by
  constructor
  · intro h
    fun_induction charactersIn? bytes text generalizing n with
    | case1 text =>
      obtain rfl := Option.some.inj h
      exact ⟨[], text, rfl, rfl, rfl⟩
    | case2 => cases h
    | case3 => cases h
    | case4 bytes c rest hsize ih =>
      obtain ⟨m, hm, rfl⟩ := Option.map_eq_some_iff.1 h
      obtain ⟨before, after, rfl, hbytes, rfl⟩ := ih hm
      exact ⟨c :: before, after, rfl, by rw [byteLength, hbytes]; omega, rfl⟩
  · rintro ⟨before, after, rfl, rfl, rfl⟩
    induction before with
    | nil => rw [List.nil_append, byteLength, charactersIn?]; rfl
    | cons c before ih =>
      have hsize := c.utf8Size_pos
      obtain ⟨bytes, hbytes⟩ : ∃ bytes, c.utf8Size + byteLength before = bytes + 1 :=
        ⟨c.utf8Size + byteLength before - 1, by omega⟩
      have hrest : bytes + 1 - c.utf8Size = byteLength before := by omega
      rw [byteLength, hbytes, List.cons_append, charactersIn?, hrest, ih, if_neg (by omega)]
      rfl

/-- Bytes of a text make up no more characters than it has. -/
theorem le_length_of_charactersIn? {bytes n : Nat} {text : List Char}
    (h : charactersIn? bytes text = some n) : n ≤ text.length := by
  obtain ⟨before, after, rfl, _, rfl⟩ := charactersIn?_eq_some_iff.1 h
  simp

/-- **Fewer bytes of a text make up fewer characters.** -/
theorem lt_of_charactersIn? {text : List Char} {bytes bytes' n n' : Nat}
    (h : charactersIn? bytes text = some n) (h' : charactersIn? bytes' text = some n')
    (hlt : bytes < bytes') : n < n' := by
  obtain ⟨before, after, rfl, rfl, rfl⟩ := charactersIn?_eq_some_iff.1 h
  obtain ⟨before', after', htext, rfl, rfl⟩ := charactersIn?_eq_some_iff.1 h'
  by_contra hge
  obtain ⟨more, rfl⟩ : before' <+: before :=
    List.prefix_of_prefix_length_le ⟨after', htext.symm⟩ (List.prefix_append _ _) (by omega)
  rw [byteLength_append] at hlt
  omega

/-- **Characters make up one number of bytes.** -/
theorem charactersIn?_injective {text : List Char} {bytes bytes' n : Nat}
    (h : charactersIn? bytes text = some n) (h' : charactersIn? bytes' text = some n) :
    bytes = bytes' := by
  rcases Nat.lt_trichotomy bytes bytes' with hlt | heq | hlt
  · exact absurd (lt_of_charactersIn? h h' hlt) (Nat.lt_irrefl n)
  · exact heq
  · exact absurd (lt_of_charactersIn? h' h hlt) (Nat.lt_irrefl n)

/-! ## The line table -/

/-- **A property of all lines that are cut.**  It holds of an ending alone and of a last character,
and it is kept when a character that begins no ending is put in front of a line. -/
theorem forall_mem_cutLines {P : RawLine → Prop} (newline : P ⟨[], .newline⟩)
    (returnNewline : P ⟨[], .returnNewline⟩) (last : ∀ c, c ≠ '\n' → P ⟨[c], .none⟩)
    (longer : ∀ (c : Char) (raw : RawLine), c ≠ '\n' →
      (c = '\r' → raw.characters.head? ≠ some '\n') → P raw → P ⟨c :: raw.text, raw.ending⟩)
    (text : List Char) : ∀ raw ∈ cutLines text, P raw := by
  fun_induction cutLines text with
  | case1 => exact fun _ h => absurd h List.not_mem_nil
  | case2 rest ih => exact List.forall_mem_cons.2 ⟨newline, ih⟩
  | case3 rest ih => exact List.forall_mem_cons.2 ⟨returnNewline, ih⟩
  | case4 c rest hn hr hrest ih => exact List.forall_mem_singleton.2 (last c hn)
  | case5 c rest hn hr line lines hrest ih =>
    rw [hrest, List.forall_mem_cons] at ih
    refine List.forall_mem_cons.2 ⟨longer c line hn (fun hc hhead => ?_) ih.1, ih.2⟩
    -- the newline follows `c` at once
    obtain ⟨more, hmore⟩ := List.head?_eq_some_iff.1 hhead
    refine hr (more ++ lines.flatMap RawLine.characters) hc ?_
    rw [← flatMap_cutLines rest, hrest, List.flatMap_cons, hmore, List.cons_append]

/-- A line, without where it begins and how it ends. -/
def Line.bare (line : Line) : Line := ⟨line.index, 0, ⟨line.text, .none⟩⟩

theorem map_raw_numberLines (index offset : Nat) (raws : List RawLine) :
    (numberLines index offset raws).map Line.raw = raws := by
  induction raws generalizing index offset with
  | nil => rfl
  | cons raw raws ih => rw [numberLines, List.map_cons, ih]

/-- The text of a line stands in the contents. -/
theorem isInfix_of_mem_lineTable {contents : List Char} {line : Line}
    (h : line ∈ lineTable contents) : line.text <:+: contents := by
  have hraw : line.raw ∈ cutLines contents := by
    rw [← map_raw_numberLines 1 0 (cutLines contents)]
    exact List.mem_map_of_mem h
  have hcharacters : line.text <:+: line.raw.characters := ⟨[], line.raw.ending.characters, rfl⟩
  rw [← flatMap_cutLines contents]
  exact hcharacters.trans (List.infix_of_mem_flatten (List.mem_map_of_mem hraw))

/-- Lines with the same texts are the same but for where they begin and how they end. -/
theorem map_bare_numberLines {raws raws' : List RawLine}
    (h : raws'.map RawLine.text = raws.map RawLine.text) (index offset offset' : Nat) :
    (numberLines index offset' raws').map Line.bare
      = (numberLines index offset raws).map Line.bare := by
  induction raws generalizing raws' index offset offset' with
  | nil =>
    obtain rfl := List.map_eq_nil_iff.1 h
    rfl
  | cons raw raws ih =>
    obtain ⟨raw', raws', rfl, htext, hrest⟩ := List.map_eq_cons_iff.1 h
    rw [numberLines, numberLines, List.map_cons, List.map_cons,
      ih hrest (index + 1) (offset + byteLength raw.characters)]
    simp only [Line.bare, Line.text, htext]

/-- **An offset lies in the first line**, when that is the last one or the next begins after it;
otherwise the first line does not count. -/
theorem positionIn?_numberLines_cons {index start offset : Nat} {raw : RawLine}
    {raws : List RawLine} (h : start ≤ offset) :
    positionIn? (numberLines index start (raw :: raws)) offset =
      if raws = [] ∨ offset < start + byteLength raw.characters then
        (charactersIn? (offset - start) raw.characters).map fun before => ⟨index, before + 1⟩
      else positionIn? (numberLines (index + 1) (start + byteLength raw.characters) raws) offset := by
  have hfirst : (numberLines index start (raw :: raws)).takeWhile (·.offset ≤ offset)
      = ⟨index, start, raw⟩ :: (numberLines (index + 1) (start + byteLength raw.characters)
          raws).takeWhile (·.offset ≤ offset) := by
    rw [numberLines, List.takeWhile_cons_of_pos (by simpa using h)]
  split
  · next hlast =>
    have hrest : (numberLines (index + 1) (start + byteLength raw.characters) raws).takeWhile
        (·.offset ≤ offset) = [] := by
      cases raws with
      | nil => rfl
      | cons next raws =>
        rw [numberLines, List.takeWhile_cons_of_neg]
        simpa using hlast
    rw [positionIn?, hfirst, hrest, List.getLast?_singleton, Option.map_eq_bind]
    rfl
  · next hpast =>
    cases raws with
    | nil => simp at hpast
    | cons next raws =>
      have hnext : start + byteLength raw.characters ≤ offset := by simpa using hpast
      rw [positionIn?, hfirst, positionIn?, numberLines,
        List.takeWhile_cons_of_pos (by simpa using hnext), List.getLast?_cons_cons]

/-! ## Positions -/

theorem map_index_numberLines (index offset : Nat) (raws : List RawLine) :
    (numberLines index offset raws).map Line.index = List.range' index raws.length := by
  induction raws generalizing index offset with
  | nil => rfl
  | cons raw raws ih => rw [numberLines, List.map_cons, ih, List.length_cons, List.range'_succ]

/-- Lines are numbered from 1 up to the number of lines. -/
theorem index_of_mem_lineTable {contents : List Char} {line : Line}
    (h : line ∈ lineTable contents) :
    1 ≤ line.index ∧ line.index ≤ (lineTable contents).length := by
  have hindex : line.index ∈ List.range' 1 (cutLines contents).length := by
    rw [← map_index_numberLines 1 0]
    exact List.mem_map_of_mem h
  rw [List.mem_range'_1] at hindex
  rw [lineTable, length_numberLines]
  omega

/-- Lines are numbered as they stand in the table. -/
theorem index_of_getElem?_lineTable {contents : List Char} {i : Nat} {line : Line}
    (h : (lineTable contents)[i]? = some line) : line.index = i + 1 := by
  have hindex : ((lineTable contents).map Line.index)[i]? = some line.index := by
    rw [List.getElem?_map, h, Option.map_some]
  rw [lineTable, map_index_numberLines] at hindex
  obtain ⟨hi, heq⟩ := List.getElem?_eq_some_iff.1 hindex
  rw [← heq, List.getElem_range', Nat.one_mul, Nat.add_comm]

/-- The number of the last line is that of all lines. -/
theorem index_of_getLast?_lineTable {contents : List Char} {line : Line}
    (h : (lineTable contents).getLast? = some line) :
    line.index = (lineTable contents).length := by
  rw [List.getLast?_eq_getElem?] at h
  have hpos : 0 < (lineTable contents).length :=
    List.length_pos_of_ne_nil fun hnil => by simp [hnil] at h
  rw [index_of_getElem?_lineTable h]
  omega

/-- **Every number up to the number of lines is that of a line.** -/
theorem exists_mem_lineTable {contents : List Char} {index : Nat} (hpos : 1 ≤ index)
    (hle : index ≤ (lineTable contents).length) :
    ∃ line ∈ lineTable contents, line.index = index := by
  rw [lineTable, length_numberLines] at hle
  refine List.mem_map.1 ?_
  rw [lineTable, map_index_numberLines, List.mem_range'_1]
  omega

/-- **Every line has a number of its own.** -/
theorem nodup_index_lineTable (contents : List Char) :
    ((lineTable contents).map Line.index).Nodup := by
  rw [lineTable, map_index_numberLines]
  exact List.nodup_range'

/-- **A position lies on a line of the table**, right behind some of its characters. -/
theorem exists_line_of_positionIn? {lines : List Line} {offset : Nat} {p : Position}
    (h : positionIn? lines offset = some p) :
    ∃ line ∈ lines, line.index = p.line ∧ line.offset ≤ offset ∧
      ∃ before, charactersIn? (offset - line.offset) line.raw.characters = some before ∧
        before + 1 = p.character := by
  obtain ⟨line, hlast, h⟩ := Option.bind_eq_some_iff.1 h
  obtain ⟨before, hbefore, h⟩ := Option.bind_eq_some_iff.1 h
  obtain rfl := Option.some.inj h
  have hmem := List.mem_of_getLast? hlast
  exact ⟨line, (List.takeWhile_prefix _).subset hmem, rfl,
    by simpa using List.all_eq_true.1 List.all_takeWhile line hmem, before, hbefore, rfl⟩

/-- **No two bytes of a text have the same position.** -/
theorem positionIn?_injective {contents : List Char} {offset offset' : Nat} {p : Position}
    (h : positionIn? (lineTable contents) offset = some p)
    (h' : positionIn? (lineTable contents) offset' = some p) : offset = offset' := by
  obtain ⟨line, hmem, hindex, hle, before, hbefore, hcharacter⟩ := exists_line_of_positionIn? h
  obtain ⟨line', hmem', hindex', hle', before', hbefore', hcharacter'⟩ :=
    exists_line_of_positionIn? h'
  obtain rfl : line = line' := List.inj_on_of_nodup_map (nodup_index_lineTable contents) hmem hmem'
    (hindex.trans hindex'.symm)
  obtain rfl : before = before' := by omega
  have := charactersIn?_injective hbefore hbefore'
  omega

end SwiftStyle
