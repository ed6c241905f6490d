import Mathlib.Data.Char
import SwiftStyle.Proofs.Report.Merging
import SwiftStyle.Report.Render

/-!
# Proofs/Report/Printing — what stands in a printed report

The coloured text of a report is put together from the same pieces as the plain one, and some of
them stand in a frame.  Deleting colour works piece by piece (`Uncolours`), so it gives the plain text.
The plain text is the paragraphs of the findings, the lines of the diagnostics and a closing line
whose numbers agree with each other; the compact text is one line for each of them
(`Report.printing_exact`).
-/

namespace SwiftStyle

/-! ## Deleting colour -/

/-- What follows a colour sequence at the front of a text: ESC, `[`, digits and `m`. -/
def dropColour? : List Char → Option (List Char)
  | '\x1b' :: '[' :: rest =>
      match rest.dropWhile Char.isDigit with
      | 'm' :: after => some after
      | _ => none
  | _ => none

theorem length_lt_of_dropColour? {text after : List Char} (h : dropColour? text = some after) :
    after.length < text.length := by
  rw [dropColour?.eq_def] at h
  split at h
  · next rest =>
    split at h
    · next after' hdigits =>
      obtain rfl := Option.some.inj h
      have hle := (List.dropWhile_suffix Char.isDigit (l := rest)).length_le
      rw [hdigits] at hle
      simp only [List.length_cons] at hle ⊢
      omega
    · cases h
  · cases h

/-- **The text without its colour sequences.** -/
def withoutColour : List Char → List Char
  | [] => []
  | c :: rest =>
      match _h : dropColour? (c :: rest) with
      | some after => withoutColour after
      | none => c :: withoutColour rest
termination_by text => text.length
decreasing_by
  · exact length_lt_of_dropColour? ‹_›
  · simp

/-- A character that opens no sequence stays. -/
theorem withoutColour_cons {c : Char} (h : c ≠ '\x1b') (rest : List Char) :
    withoutColour (c :: rest) = c :: withoutColour rest := by
  have hnone : dropColour? (c :: rest) = none := by
    rw [dropColour?]
    intro _ he
    exact h (List.cons.inj he).1
  rw [withoutColour]
  split
  · next hsome => rw [hnone] at hsome; cases hsome
  · rfl

/-- **A colour sequence is deleted.** -/
theorem withoutColour_sequence (code : List Char) (h : code.all Char.isDigit = true)
    (rest : List Char) :
    withoutColour ('\x1b' :: '[' :: (code ++ 'm' :: rest)) = withoutColour rest := by
  have hsome : dropColour? ('\x1b' :: '[' :: (code ++ 'm' :: rest)) = some rest := by
    rw [dropColour?, List.dropWhile_append_of_pos (List.all_eq_true.1 h)]
    rfl
  rw [withoutColour]
  split
  · next after hafter => rw [Option.some.inj (hsome.symm.trans hafter)]
  · next hnone => rw [hsome] at hnone; cases hnone

/-- Without its colour sequences the text is the plain one, whatever comes behind it. -/
def Uncolours (text plain : String) : Prop :=
  ∀ rest, withoutColour (text.toList ++ rest) = plain.toList ++ withoutColour rest

namespace Uncolours

/-- **A text without escape characters** is plain already. -/
theorem of_not_mem {text : String} (h : '\x1b' ∉ text.toList) : Uncolours text text := by
  have hall : ∀ chars : List Char, '\x1b' ∉ chars → ∀ rest,
      withoutColour (chars ++ rest) = chars ++ withoutColour rest := by
    intro chars hchars rest
    induction chars with
    | nil => rfl
    | cons c chars ih =>
      rw [List.mem_cons, not_or] at hchars
      rw [List.cons_append, withoutColour_cons (Ne.symm hchars.1), ih hchars.2, List.cons_append]
  exact hall text.toList h

theorem append {a a' b b' : String} (ha : Uncolours a a') (hb : Uncolours b b') :
    Uncolours (a ++ b) (a' ++ b') := by
  intro rest
  rw [String.toList_append, String.toList_append, List.append_assoc, ha, hb, List.append_assoc]

/-- A plain text may stand in a frame or not. -/
theorem paint (c : Colour) {text : String} (h : '\x1b' ∉ text.toList) :
    Uncolours (c.paint true text) (c.paint false text) := by
  have hdigits : c.code.toList.all Char.isDigit = true := by cases c <;> decide
  intro rest
  have hstart := withoutColour_sequence c.code.toList hdigits
    (text.toList ++ "\x1b[0m".toList ++ rest)
  have hstop := withoutColour_sequence ['0'] (by decide) rest
  have hframe : (c.frame text).toList ++ rest
      = '\x1b' :: '[' :: (c.code.toList ++ 'm' :: (text.toList ++ "\x1b[0m".toList ++ rest)) := by
    simp [Colour.frame]
  rw [Colour.paint, if_pos rfl, hframe, hstart, List.append_assoc, of_not_mem h]
  exact congrArg (text.toList ++ ·) hstop

theorem join {α : Type} {l : List α} {f g : α → String} (h : ∀ a ∈ l, Uncolours (f a) (g a)) :
    Uncolours (String.join (l.map f)) (String.join (l.map g)) := by
  induction l with
  | nil => exact of_not_mem (by simp)
  | cons a l ih =>
    rw [List.map_cons, List.map_cons, String.join_cons, String.join_cons]
    exact (h a List.mem_cons_self).append (ih fun b hb => h b (List.mem_cons_of_mem a hb))

theorem eq {text plain : String} (h : Uncolours text plain) :
    withoutColour text.toList = plain.toList := by
  have hnil := h []
  rwa [List.append_nil, withoutColour, List.append_nil] at hnil

end Uncolours

/-! ## Characters that stand nowhere in a report -/

/-- The strings of a finding. -/
def Violation.fields (v : Violation) : List String :=
  v.location.file.toList.map Path.text ++ [v.rule, v.reason]

/-- The strings of a diagnostic. -/
def Diagnostic.fields (d : Diagnostic) : List String := [d.subject, d.message]

/-- None of the strings of a report has the character. -/
structure Report.Lacks (r : Report) (c : Char) : Prop where
  violations : ∀ v ∈ r.violations, ∀ field ∈ v.fields, c ∉ field.toList
  diagnostics : ∀ d ∈ r.diagnostics, ∀ field ∈ d.fields, c ∉ field.toList

/-- All characters of the text come from the space on. -/
def Visible (text : String) : Prop := ∀ c ∈ text.toList, ' ' ≤ c

instance (text : String) : Decidable (Visible text) :=
  List.decidableBAll (' ' ≤ ·) text.toList

/-- A control character stands in no visible text. -/
theorem Visible.not_mem {text : String} (h : Visible text) {c : Char} (hc : c < ' ') :
    c ∉ text.toList :=
  fun hmem => absurd hc (not_lt.2 (h c hmem))

@[simp] theorem visible_append {a b : String} : Visible (a ++ b) ↔ Visible a ∧ Visible b := by
  simp only [Visible, String.toList_append, List.forall_mem_append]

@[simp] theorem visible_toString (n : Nat) : Visible (toString n) := by
  intro c hc
  have hdigit : c.isDigit = true := by
    rw [Nat.toString_eq_ofList_toDigits, String.toList_ofList] at hc
    exact Nat.isDigit_of_mem_toDigits (by decide) (by decide) hc
  have hle : '0' ≤ c := by
    simp only [Char.isDigit, Bool.and_eq_true, decide_eq_true_eq] at hdigit
    exact hdigit.1
  exact le_trans (by decide) hle

theorem Severity.visible_text (s : Severity) : Visible s.text := by
  cases s <;> decide

/-- What stands in the text of a place stands in the path of its file. -/
theorem Location.not_mem_text {c : Char} (hc : c < ' ') {l : Location}
    (h : ∀ file ∈ l.file, c ∉ file.text.toList) : c ∉ l.text.toList := by
  have hfile : c ∉ (displayFile l.file).toList := by
    cases hfile : l.file with
    | none =>
      have hstdin : Visible "<stdin>" := by decide
      exact hstdin.not_mem hc
    | some file => exact h file hfile
  have hnumber : ∀ n : Nat, Visible (":" ++ toString n) := fun n =>
    visible_append.2 ⟨by decide, visible_toString n⟩
  have htext : l.text = displayFile l.file ++ ((":" ++ toString l.line) ++
      (l.character.map (":" ++ toString ·)).getD "") := by
    rw [Location.text, String.append_assoc, String.append_assoc, String.append_assoc]
    cases l.character <;> rfl
  have hcharacter : Visible ((l.character.map (":" ++ toString ·)).getD "") := by
    cases l.character with
    | none => decide
    | some character => exact hnumber character
  rw [htext, String.toList_append, List.mem_append, not_or]
  exact ⟨hfile, (visible_append.2 ⟨hnumber l.line, hcharacter⟩).not_mem hc⟩

@[simp] theorem toString_self (text : String) : toString text = text := rfl

namespace Report.Lacks

variable {r : Report} {c : Char} (h : r.Lacks c)
include h

theorem rule {v : Violation} (hv : v ∈ r.violations) : c ∉ v.rule.toList :=
  h.violations v hv v.rule (by simp [Violation.fields])

theorem reason {v : Violation} (hv : v ∈ r.violations) : c ∉ v.reason.toList :=
  h.violations v hv v.reason (by simp [Violation.fields])

theorem location {v : Violation} (hv : v ∈ r.violations) (hc : c < ' ') :
    c ∉ v.location.text.toList :=
  Location.not_mem_text hc fun file hfile =>
    h.violations v hv file.text (by simp [Violation.fields, Option.mem_def.1 hfile])

theorem subject {d : Diagnostic} (hd : d ∈ r.diagnostics) : c ∉ d.subject.toList :=
  h.diagnostics d hd d.subject (by simp [Diagnostic.fields])

theorem message {d : Diagnostic} (hd : d ∈ r.diagnostics) : c ∉ d.message.toList :=
  h.diagnostics d hd d.message (by simp [Diagnostic.fields])

end Report.Lacks

namespace Report

/-! ## The closing line -/

/-- The line that closes a report, in words of its numbers.  The findings are those of the levels
together, and diagnostics are mentioned when there are any. -/
def closingLine (counts : SeverityCounts) (files diagnostics : Nat) : String :=
  "Done linting! Found " ++ quantity counts.total "violation" ++ ", in " ++ quantity files "file"
    ++ s!". ({counts.high} high, {counts.medium} medium, {counts.low} low"
    ++ (if diagnostics = 0 then "" else ", " ++ quantity diagnostics "diagnostic") ++ ")"

/-- **The closing line agrees with the counts.** -/
theorem summary_tally_eq (r : Report) :
    r.summary ++ " (" ++ r.tally ++ ")"
      = closingLine r.counts r.filesChecked r.diagnostics.length := by
  have hsplit : ". (" = "." ++ " (" := by decide
  unfold closingLine summary tally
  simp only [toString_self, hsplit, total_counts, List.isEmpty_iff_length_eq_zero,
    String.append_assoc]

theorem visible_quantity (n : Nat) {noun : String} (h : Visible noun) :
    Visible (quantity n noun) := by
  have hplural : Visible (if n = 1 then "" else "s") := by split <;> decide
  simp only [quantity, toString_self, visible_append, visible_toString, h, hplural, and_true,
    true_and]
  decide

/-- The closing line is one line, without colour. -/
theorem visible_closingLine (counts : SeverityCounts) (files diagnostics : Nat) :
    Visible (closingLine counts files diagnostics) := by
  have hmention : Visible (if diagnostics = 0 then "" else
      ", " ++ quantity diagnostics "diagnostic") := by
    split
    · decide
    · exact visible_append.2 ⟨by decide, visible_quantity _ (by decide)⟩
  have hviolations : Visible (quantity counts.total "violation") := visible_quantity _ (by decide)
  have hfiles : Visible (quantity files "file") := visible_quantity _ (by decide)
  unfold closingLine
  simp only [toString_self, visible_append, visible_toString, hmention, hviolations, hfiles,
    and_true]
  decide

/-! ## Pieces of a report -/

theorem uncolours_violationText {r : Report} (h : r.Lacks '\x1b') {v : Violation}
    (hv : v ∈ r.violations) : Uncolours (violationText true v) (violationText false v) := by
  have hlead : '\x1b' ∉ (s!"{v.rule} at {v.location.text}\n  ").toList := by
    simp [h.rule hv, h.location hv (by decide)]
  have htail : '\x1b' ∉ (s!": {v.reason}\n\n").toList := by simp [h.reason hv]
  exact ((Uncolours.of_not_mem hlead).append
    (.paint _ (v.severity.visible_text.not_mem (by decide)))).append (.of_not_mem htail)

theorem uncolours_diagnosticText {r : Report} (h : r.Lacks '\x1b') {d : Diagnostic}
    (hd : d ∈ r.diagnostics) : Uncolours (diagnosticText true d) (diagnosticText false d) := by
  have htext : '\x1b' ∉ d.text.toList := by
    simp [Diagnostic.text, h.subject hd, h.message hd]
  exact (((Uncolours.paint _ (by decide)).append (.of_not_mem (by decide))).append
    (.of_not_mem htext)).append (.of_not_mem (by decide))

/-- **Deleting colour from a report gives the plain report.** -/
theorem uncolours_renderText {r : Report} (h : r.Lacks '\x1b') :
    Uncolours (r.renderText true) (r.renderText false) := by
  have hbreak : '\x1b' ∉ (if r.diagnostics.isEmpty then "" else "\n").toList := by
    split <;> decide
  have hclosing : '\x1b' ∉ (r.summary ++ " (" ++ r.tally ++ ")").toList :=
    summary_tally_eq r ▸ (visible_closingLine _ _ _).not_mem (by decide)
  unfold renderText
  exact ((((Uncolours.join fun v hv => uncolours_violationText h hv).append
    (.join fun d hd => uncolours_diagnosticText h hd)).append (.of_not_mem hbreak)).append
    (.paint _ hclosing)).append (.of_not_mem (by decide))

theorem violationText_eq (v : Violation) : violationText false v = v.paragraph ++ "\n" := by
  have hbreaks : "\n\n" = "\n" ++ "\n" := by decide
  simp only [violationText, Violation.paragraph, Colour.paint, toString_self, hbreaks,
    String.append_assoc]
  rfl

/-- What a diagnostic is in a compact report. -/
def skippedLine (d : Diagnostic) : String := d.subject ++ ": skipped " ++ d.message

/-- **The plain text of a report**: paragraphs, lines of diagnostics and the closing line. -/
theorem renderText_false_eq (r : Report) :
    r.renderText false =
      String.join (r.violations.map fun v => v.paragraph ++ "\n")
        ++ String.join (r.diagnostics.map fun d => "skipped " ++ d.text ++ "\n")
        ++ (if r.diagnostics = [] then "" else "\n")
        ++ closingLine r.counts r.filesChecked r.diagnostics.length ++ "\n" := by
  have hviolations : violationText false = fun v => v.paragraph ++ "\n" := funext violationText_eq
  have hdiagnostics : diagnosticText false = fun d => "skipped " ++ d.text ++ "\n" := by
    have hskipped : "skipped " = "skipped" ++ " " := by decide
    funext d
    rw [hskipped]
    rfl
  rw [renderText, hviolations, hdiagnostics, summary_tally_eq]
  simp only [List.isEmpty_iff]
  rfl

/-- **Texts without newlines, each ended by one, are the pieces between newlines.** -/
theorem splitAt_join {texts : List String} (h : ∀ text ∈ texts, '\n' ∉ text.toList) :
    Text.splitAt (· == '\n') (String.join (texts.map (· ++ "\n"))).toList
      = texts.map String.toList ++ [[]] := by
  induction texts with
  | nil => rfl
  | cons text texts ih =>
    obtain ⟨htext, htexts⟩ := List.forall_mem_cons.1 h
    have hpiece : ∀ c ∈ text.toList, (c == '\n') = false := fun c hc =>
      beq_false_of_ne fun he => htext (he ▸ hc)
    have hsplit := Text.splitAt_append_cons (p := (· == '\n')) (c := '\n') (by decide) text.toList
      (String.join (texts.map (· ++ "\n"))).toList
    rw [Text.splitAt_eq_singleton hpiece, ih htexts] at hsplit
    rw [List.map_cons, String.join_cons, String.toList_append, String.toList_append,
      List.append_assoc]
    exact hsplit

/-- A compact report is its lines, each ended by a newline. -/
theorem renderCompact_eq (r : Report) :
    r.renderCompact = String.join
      ((r.violations.map Violation.line ++ r.diagnostics.map skippedLine).map (· ++ "\n")) := by
  have hskipped : ∀ d : Diagnostic, s!"{d.subject}: skipped {d.message}\n"
      = skippedLine d ++ "\n" := fun d => by
    simp only [skippedLine, toString_self]
  simp only [renderCompact, hskipped, List.map_append, List.map_map, String.join_append,
    Function.comp_def]

/-- **What a report shows.**  If no escape character stands in the strings of a report, deleting the
colour sequences from its coloured text gives the plain text.  The plain text is the paragraph of
each finding with an empty line after it, then one line for each diagnostic and an empty line if
there are any, then one closing line that tells the numbers.  If no newline stands in the strings of
a report, the compact text is one line for each finding and then one for each diagnostic, in their
order. -/
theorem printing_exact (r : Report) :
    (r.Lacks '\x1b' →
      withoutColour (r.render .text true).toList = (r.render .text false).toList) ∧
    r.render .text false =
      String.join (r.violations.map fun v => v.paragraph ++ "\n")
        ++ String.join (r.diagnostics.map fun d => "skipped " ++ d.text ++ "\n")
        ++ (if r.diagnostics = [] then "" else "\n")
        ++ closingLine r.counts r.filesChecked r.diagnostics.length ++ "\n" ∧
    '\n' ∉ (closingLine r.counts r.filesChecked r.diagnostics.length).toList ∧
    (r.Lacks '\n' → ∀ coloured,
      Text.splitAt (· == '\n') (r.render .compact coloured).toList =
        (r.violations.map Violation.line ++ r.diagnostics.map skippedLine).map String.toList
          ++ [[]]) := by
  refine ⟨fun h => (uncolours_renderText h).eq, r.renderText_false_eq,
    (visible_closingLine _ _ _).not_mem (by decide), fun h coloured => ?_⟩
  rw [render, renderCompact_eq]
  refine splitAt_join fun line hline => ?_
  rcases List.mem_append.1 hline with hline | hline
  · obtain ⟨v, hv, rfl⟩ := List.mem_map.1 hline
    have hlevel := v.severity.visible_text.not_mem (c := '\n') (by decide)
    simp [Violation.line, h.location hv (by decide), h.rule hv, h.reason hv, hlevel]
  · obtain ⟨d, hd, rfl⟩ := List.mem_map.1 hline
    simp [skippedLine, h.subject hd, h.message hd]

namespace Mixed

/-- A finding at a character of a file, one without either, and a diagnostic. -/
def report : Report where
  violations :=
    [{ rule := "type_name", severity := .medium
       location := { file := some ⟨"a.swift"⟩, line := 7, character := some 3 }
       reason := "Too short" },
      { rule := "file_length", severity := .high
        location := { line := 12 }
        reason := "Too long" }]
  filesChecked := 1
  diagnostics := [⟨"b.swift", "unreadable"⟩]

end Mixed

/-- The colours of two levels, of a diagnostic and of the closing line are deleted; and the compact
text has three lines. -/
theorem printing_exact_mixed :
    withoutColour (Mixed.report.render .text true).toList
      = (Mixed.report.render .text false).toList ∧
    Text.splitAt (· == '\n') (Mixed.report.render .compact true).toList =
      ["a.swift:7:3: medium [type_name] Too short", "<stdin>:12: high [file_length] Too long",
        "b.swift: skipped unreadable", ""].map String.toList := by
  obtain ⟨huncoloured, -, -, hcompact⟩ := printing_exact Mixed.report
  refine ⟨huncoloured ⟨by decide, by decide⟩, ?_⟩
  rw [hcompact ⟨by decide, by decide⟩]
  decide

end Report

end SwiftStyle
