import Mathlib.Data.List.Nodup
import SwiftStyle.Proofs.Json.RoundTrip
import SwiftStyle.Report.Render

/-!
# Proofs/Report/RoundTrip — a report is read back from its JSON text

A report is written as an object of objects, four levels deep, so its text is read back as that
object (`Json.parse?_pretty`).  Reading takes the object apart field by field; the only thing that
can go wrong is a number that does not fit into 64 bits, so a report is read back exactly when all
its numbers fit (`Report.parse?_render_json`).
-/

namespace SwiftStyle

/-! ## Numbers and lists -/

/-- A number is read back when it fits into 64 bits. -/
theorem Json.asCount?_integer_eq_some_iff {n m : Nat} :
    asCount? (integer n) = some m ↔ n < 2 ^ 64 ∧ n = m :=
  Option.ite_none_right_eq_some.trans (and_congr_right' (by rw [Option.some.injEq]))

/-- **Items are read back as they were** when each of them is. -/
theorem mapM_map_eq_some_iff {α β : Type} {write : α → β} {read? : β → Option α} {l : List α} :
    (l.map write).mapM read? = some l ↔ ∀ a ∈ l, read? (write a) = some a := by
  induction l with
  | nil => simp
  | cons a l ih =>
    simp only [List.map_cons, List.mapM_cons, Option.bind_eq_bind, Option.bind_eq_some_iff,
      Option.pure_def, Option.some.injEq, List.cons.injEq, List.forall_mem_cons, ← ih]
    constructor
    · rintro ⟨_, ha, _, hl, rfl, rfl⟩
      exact ⟨ha, hl⟩
    · rintro ⟨ha, hl⟩
      exact ⟨a, ha, l, hl, rfl, rfl⟩

/-- An object in which no field stands twice is a record. -/
theorem Json.Record.ofJson?_object {names : List String} {optional : Nat}
    {fields : List (String × Json)} (h : (fields.map (·.1)).Nodup) :
    ofJson? names optional (.object fields) = some ⟨fields⟩ :=
  if_pos (List.all_eq_true.2 fun name _ =>
    decide_eq_true (List.nodup_iff_count_le_one.1 h name))

/-! ## Findings -/

/-- The line and the character fit into 64 bits. -/
structure Location.Fits (l : Location) : Prop where
  line_lt : l.line < 2 ^ 64
  character_lt : ∀ n ∈ l.character, n < 2 ^ 64

theorem Location.fits_iff {l : Location} :
    l.Fits ↔ l.line < 2 ^ 64 ∧ ∀ n ∈ l.character, n < 2 ^ 64 :=
  ⟨fun h => ⟨h.line_lt, h.character_lt⟩, fun h => ⟨h.1, h.2⟩⟩

/-- **A place is read back** when its numbers fit. -/
theorem Location.ofJson?_toJson_eq_some_iff {l : Location} :
    ofJson? l.toJson = some l ↔ l.Fits := by
  obtain ⟨file, line, character⟩ := l
  rw [fits_iff]
  cases file <;> cases character <;>
    simp [ofJson?, toJson, Json.Record.ofJson?_object, Json.Record.optional?, Json.Record.get?,
      Json.asString?, Option.bind_eq_some_iff, Json.asCount?_integer_eq_some_iff]

theorem Location.readable_toJson {depth : Nat} (l : Location) :
    Json.Readable (depth + 1) l.toJson := by
  obtain ⟨file, line, character⟩ := l
  refine .object ?_
  cases file <;> cases character <;>
    simp [Json.Readable.null, Json.Readable.string, Json.Readable.integer]

theorem Severity.ofJson?_toJson (s : Severity) : ofJson? s.toJson = some s := by
  cases s <;> rfl

/-- **A finding is read back** when the numbers of its place fit. -/
theorem Violation.ofJson?_toJson_eq_some_iff {v : Violation} :
    ofJson? v.toJson = some v ↔ v.location.Fits := by
  rw [← Location.ofJson?_toJson_eq_some_iff]
  obtain ⟨rule, severity, location, reason⟩ := v
  simp [ofJson?, toJson, Json.Record.ofJson?_object, Json.Record.get?, Json.asString?,
    Severity.ofJson?_toJson, Option.bind_eq_some_iff]

theorem Violation.readable_toJson {depth : Nat} (v : Violation) :
    Json.Readable (depth + 2) v.toJson :=
  .object (by simp [Json.Readable.string, Severity.toJson, Location.readable_toJson])

/-! ## Reports -/

theorem Diagnostic.ofJson?_toJson (d : Diagnostic) : ofJson? d.toJson = some d := by
  simp [ofJson?, toJson, Json.Record.ofJson?_object, Json.Record.get?, Json.asString?]

theorem Diagnostic.readable_toJson {depth : Nat} (d : Diagnostic) :
    Json.Readable (depth + 1) d.toJson :=
  .object (by simp [Json.Readable.string])

namespace Report

/-- The number of files and the places of the findings fit into 64 bits. -/
structure Fits (r : Report) : Prop where
  filesChecked_lt : r.filesChecked < 2 ^ 64
  locations : ∀ v ∈ r.violations, v.location.Fits

theorem fits_iff {r : Report} :
    r.Fits ↔ r.filesChecked < 2 ^ 64 ∧ ∀ v ∈ r.violations, v.location.Fits :=
  ⟨fun h => ⟨h.filesChecked_lt, h.locations⟩, fun h => ⟨h.1, h.2⟩⟩

/-- **A report is read back from its object** when its numbers fit. -/
theorem ofJson?_toJson_eq_some_iff {r : Report} : ofJson? r.toJson = some r ↔ r.Fits := by
  obtain ⟨violations, filesChecked, diagnostics⟩ := r
  have hviolations : (violations.map Violation.toJson).mapM Violation.ofJson? = some violations ↔
      ∀ v ∈ violations, v.location.Fits := by
    simp only [mapM_map_eq_some_iff, Violation.ofJson?_toJson_eq_some_iff]
  have hdiagnostics : (diagnostics.map Diagnostic.toJson).mapM Diagnostic.ofJson?
      = some diagnostics :=
    mapM_map_eq_some_iff.2 fun d _ => d.ofJson?_toJson
  rw [fits_iff, ← hviolations]
  -- without diagnostics their field is not there
  cases diagnostics with
  | nil =>
    rw [ofJson?, toJson, Json.Record.ofJson?_object (by simp)]
    simp [Json.Record.get?, Json.asArray?, -List.mapM_map, Option.bind_eq_some_iff,
      Json.asCount?_integer_eq_some_iff, and_comm]
  | cons d diagnostics =>
    rw [ofJson?, toJson, Json.Record.ofJson?_object (by simp)]
    simp [Json.Record.get?, Json.asArray?, -List.mapM_map, -List.map_cons,
      Option.bind_eq_some_iff, Json.asCount?_integer_eq_some_iff, hdiagnostics, and_comm]

theorem readable_toJson {depth : Nat} (r : Report) : Json.Readable (depth + 4) r.toJson := by
  have hviolations : Json.Readable (depth + 3) (.array (r.violations.map Violation.toJson)) :=
    .array (List.forall_mem_map.2 fun v _ => v.readable_toJson)
  have hdiagnostics : Json.Readable (depth + 3) (.array (r.diagnostics.map Diagnostic.toJson)) :=
    .array (List.forall_mem_map.2 fun d _ => d.readable_toJson)
  refine .object (List.forall_mem_append.2 ⟨?_, ?_⟩)
  · simpa using ⟨hviolations, Json.Readable.integer _⟩
  · split
    · simp
    · simpa using hdiagnostics

/-- **A JSON report loses nothing.**  With colour or without, its text holds the object of the
report; reading it gives the report back, findings in order, number of files and diagnostics,
exactly when all its numbers fit into 64 bits; and the field of the diagnostics is left out exactly
when there are none. -/
theorem parse?_render_json (r : Report) (coloured : Bool) :
    (parse? (r.render .json coloured) = some r ↔
      r.filesChecked < 2 ^ 64 ∧ ∀ v ∈ r.violations,
        v.location.line < 2 ^ 64 ∧ ∀ n ∈ v.location.character, n < 2 ^ 64) ∧
    ((Json.parse? (r.render .json coloured)).bind (·.field? "diagnostics") = none ↔
      r.diagnostics = []) := by
  have hread : Json.parse? (r.render .json coloured) = some r.toJson :=
    (Json.parse?_pretty r.readable_toJson).2
  rw [parse?, hread, Option.bind_some, Option.bind_some]
  refine ⟨?_, ?_⟩
  · rw [ofJson?_toJson_eq_some_iff, fits_iff]
    simp only [Location.fits_iff]
  · cases hdiagnostics : r.diagnostics <;> simp [toJson, Json.field?, hdiagnostics]

end Report

end SwiftStyle
