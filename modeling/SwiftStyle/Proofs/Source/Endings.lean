import SwiftStyle.Proofs.Source.LineEndings
import SwiftStyle.Proofs.Source.Positions

/-!
# Proofs/Source/Endings — how the lines of a text end

Every line but the last has an ending (`ending_ne_none_of_cutLines`), and before a bare `\n` there
is no `\r` in its line (`return_ne_getLast?_text`).  So in front of a line a text is empty or ends
in `\n` (`eq_newline_of_getLast?_flatMap`).
-/

namespace SwiftStyle

/-- **Every line but the last has an ending.** -/
theorem ending_ne_none_of_cutLines {text : List Char} {before after : List RawLine} {raw : RawLine}
    (h : cutLines text = before ++ raw :: after) (hafter : after ≠ []) : raw.ending ≠ .none := by
  fun_induction cutLines text generalizing before raw with
  | case1 => simp at h
  | case2 rest ih =>
    cases before with
    | nil => exact (List.cons.inj h).1 ▸ by simp
    | cons first before => exact ih (List.cons.inj h).2
  | case3 rest ih =>
    cases before with
    | nil => exact (List.cons.inj h).1 ▸ by simp
    | cons first before => exact ih (List.cons.inj h).2
  | case4 c rest hn hr hrest ih =>
    cases before with
    | nil => exact absurd (List.cons.inj h).2.symm hafter
    | cons first before => simp at h
  | case5 c rest hn hr line lines hrest ih =>
    cases before with
    | nil =>
      obtain ⟨rfl, rfl⟩ := List.cons.inj h
      have hline : cutLines rest = [] ++ line :: lines := hrest
      have hending : line.ending ≠ .none := ih hline
      exact hending
    | cons first before =>
      have hraw : cutLines rest = (line :: before) ++ raw :: after := by
        rw [hrest, (List.cons.inj h).2]
        rfl
      exact ih hraw

theorem ending_ne_none_of_mem_dropLast {text : List Char} {raw : RawLine}
    (h : raw ∈ (cutLines text).dropLast) : raw.ending ≠ .none := by
  obtain ⟨before, after, hbefore⟩ := List.append_of_mem h
  have hne : cutLines text ≠ [] := by
    intro hnil
    simp [hnil] at h
  have hsplit : cutLines text = before ++ raw :: (after ++ [(cutLines text).getLast hne]) := by
    conv_lhs => rw [← List.dropLast_concat_getLast hne, hbefore]
    rw [List.append_assoc, List.cons_append]
  exact ending_ne_none_of_cutLines hsplit (by simp)

/-- **Before a bare `\n` there is no `\r`.** -/
theorem return_ne_getLast?_text {text : List Char} {raw : RawLine} (h : raw ∈ cutLines text)
    (hending : raw.ending = .newline) : raw.text.getLast? ≠ some '\r' := by
  refine forall_mem_cutLines (P := fun raw => raw.ending = .newline → raw.text.getLast? ≠ some '\r')
    ?_ ?_ (fun c _ hc => by cases hc) (fun c raw _ hreturn hraw hending => ?_) text raw h hending
  · simp
  · simp
  · cases htext : raw.text with
    | nil =>
      rw [List.getLast?_singleton]
      rintro ⟨rfl⟩
      exact hreturn rfl (by rw [RawLine.characters, htext, hending]; rfl)
    | cons d more =>
      rw [List.getLast?_cons_cons, ← htext]
      exact hraw hending

/-- **In front of a line a text is empty or ends in `\n`.** -/
theorem eq_newline_of_getLast?_flatMap {text : List Char} {lines after : List RawLine}
    {raw : RawLine} (h : cutLines text = lines ++ raw :: after) {c : Char}
    (hc : (lines.flatMap RawLine.characters).getLast? = some c) : c = '\n' := by
  rcases List.eq_nil_or_concat' lines with rfl | ⟨lines, line, rfl⟩
  · cases hc
  · rw [List.append_assoc] at h
    have hending : line.ending ≠ .none := ending_ne_none_of_cutLines h (List.cons_ne_nil raw after)
    rw [List.flatMap_append, List.flatMap_singleton, RawLine.characters] at hc
    cases hline : line.ending with
    | none => exact absurd hline hending
    | newline => simpa [hline, LineEnding.characters, eq_comm] using hc
    | returnNewline => simpa [hline, LineEnding.characters, eq_comm] using hc

section LastLine

variable {text : List Char} {lines : List RawLine} {raw : RawLine}
  (h : cutLines text = lines ++ [raw])
include h

/-- A text is what its lines before the last are, and the last. -/
theorem eq_append_of_cutLines : text = lines.flatMap RawLine.characters ++ raw.characters := by
  conv_lhs => rw [← flatMap_cutLines text, h]
  rw [List.flatMap_append, List.flatMap_singleton]

/-- Only in front of a first line there is nothing. -/
theorem flatMap_characters_eq_nil_iff : lines.flatMap RawLine.characters = [] ↔ lines = [] := by
  refine ⟨fun hnil => ?_, fun hnil => hnil ▸ rfl⟩
  refine List.eq_nil_iff_forall_not_mem.2 fun line hline => ?_
  have hmem : line ∈ cutLines text := h ▸ List.mem_append_left _ hline
  exact characters_ne_nil_of_mem_cutLines hmem (List.flatMap_eq_nil_iff.1 hnil line hline)

end LastLine

end SwiftStyle
