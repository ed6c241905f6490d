import SwiftStyle.Proofs.Rules.Distinct
import SwiftStyle.Proofs.Rules.Places

/-!
# Proofs/Rules/Bounds — a built-in finding points into its file

Five rules *stay within* the line table: a finding stands on a line of it, and at a character of
that line or right behind the last one (`Violation.IsWithin`).  A position that an offset has is always
such a place, whatever tree the offset comes from.  The rule about the end of the file reports the
line after the last one.
-/

namespace SwiftStyle

/-- The finding stands on a line, at one of its characters or right behind the last one. -/
structure Violation.StandsOn (v : Violation) (line : Line) : Prop where
  onLine : v.location.line = line.index
  atCharacter : ∀ c, v.location.character = some c → 1 ≤ c ∧ c ≤ 1 + line.raw.characters.length

/-- **The finding points into a line table**, and its level is not the lowest. -/
structure Violation.IsWithin (v : Violation) (lines : List Line) : Prop where
  level : v.severity = .medium ∨ v.severity = .high
  place : ∃ line ∈ lines, v.StandsOn line

/-- All findings of a rule point into the line table of the unit. -/
def Rule.StaysWithin (rule : Rule) : Prop :=
  ∀ unit settings findings, rule.validate unit settings = .ok findings →
    ∀ v ∈ findings, v.IsWithin unit.lines

theorem Rule.staysWithin_ofFindings {descriptor : RuleDescriptor}
    {findings : SourceUnit → Options → List Violation}
    (h : ∀ unit options, ∀ v ∈ findings unit options, v.IsWithin unit.lines) :
    (ofFindings descriptor findings).StaysWithin := by
  intro unit settings found hfound
  obtain rfl := Except.ok.inj hfound
  exact h unit settings.options

/-- **A place that stands for an offset is within the line table**, on a level above the lowest. -/
theorem Violation.isWithin_of_positionIn? {v : Violation} {lines : List Line} {offset : Nat}
    {p : Position} (hposition : positionIn? lines offset = some p) (hlevel : v.severity = .medium)
    (hplace : v.place = (p.line, some p.character)) : v.IsWithin lines := by
  obtain ⟨line, hline, hindex, _, before, hbefore, hcharacter⟩ :=
    exists_line_of_positionIn? hposition
  obtain ⟨hv, hc⟩ := Prod.mk.inj hplace
  refine ⟨.inl hlevel, line, hline, hv.trans hindex.symm, fun c hsome => ?_⟩
  obtain rfl := Option.some.inj (hc.symm.trans hsome)
  have := le_length_of_charactersIn? hbefore
  omega

/-- Past a limit a finding is medium or high, and the measure is not zero. -/
theorem Thresholds.of_exceeded? {t : Thresholds} {measure limit : Nat} {level : Severity}
    (h : t.exceeded? measure = some (level, limit)) :
    (level = .medium ∨ level = .high) ∧ limit < measure := by
  rw [exceeded?] at h
  split at h
  · next hpast =>
    obtain ⟨rfl, rfl⟩ := Prod.mk.inj (Option.some.inj h)
    exact ⟨.inr rfl, hpast⟩
  · split at h
    · next hpast =>
      obtain ⟨rfl, rfl⟩ := Prod.mk.inj (Option.some.inj h)
      exact ⟨.inl rfl, hpast⟩
    · cases h

/-! ## Rule by rule -/

namespace FileLength

/-- No more lines count than there are. -/
theorem measure_le (lines : List Line) (ignoresComments : Bool) :
    measure lines ignoresComments ≤ lines.length := by
  rw [measure]
  split
  · exact List.countP_le_length
  · exact Nat.le_refl _

theorem staysWithin_rule : rule.StaysWithin := by
  refine Rule.staysWithin_ofFindings fun unit options v hv => ?_
  simp only [findings] at hv
  split at hv
  · cases hv
  · next level limit hexceeded =>
    obtain rfl := List.mem_singleton.1 hv
    obtain ⟨hlevel, hpast⟩ := Thresholds.of_exceeded? hexceeded
    -- something was counted, so there is a last line
    have hcount := measure_le unit.lines (options.flag "ignore_comment_only_lines" false)
    obtain ⟨line, hline, hindex⟩ : ∃ line ∈ unit.lines, line.index = unit.lines.length :=
      exists_mem_lineTable (Nat.one_le_of_lt (Nat.lt_of_lt_of_le hpast hcount)) (Nat.le_refl _)
    exact ⟨hlevel, line, hline, hindex.symm, fun c hc => by cases hc⟩

end FileLength

namespace LineLength

theorem staysWithin_rule : rule.StaysWithin := by
  refine Rule.staysWithin_ofFindings fun unit options v hv => ?_
  obtain ⟨line, hline, hv⟩ := List.mem_filterMap.1 hv
  simp only [finding?] at hv
  split at hv
  · cases hv
  · obtain ⟨⟨level, limit⟩, hexceeded, rfl⟩ := Option.map_eq_some_iff.1 hv
    exact ⟨(Thresholds.of_exceeded? hexceeded).1, line, hline, rfl, fun c hc => by cases hc⟩

end LineLength

namespace MultilineArguments

theorem staysWithin_rule : rule.StaysWithin := by
  refine Rule.staysWithin_ofFindings fun unit options v hv => ?_
  obtain ⟨p, hp, rfl⟩ := List.mem_map.1 hv
  obtain ⟨node, _, hp⟩ := List.mem_flatMap.1 hp
  have hargument := (offendingIn_sublist unit.lines (placementOf options) node).subset hp
  obtain ⟨argument, _, hposition⟩ := List.mem_filterMap.1 hargument
  exact Violation.isWithin_of_positionIn? hposition rfl rfl

end MultilineArguments

namespace TrailingNewline

/-- **The finding stands on the line after the last one**, on no character. -/
theorem of_mem_findings {unit : SourceUnit} {options : Options} {v : Violation}
    (hv : v ∈ findings unit options) : v.severity = .medium ∧
      v.location.line = unit.lines.length + 1 ∧ v.location.character = none := by
  simp only [findings] at hv
  split at hv
  · cases hv
  · obtain rfl := List.mem_singleton.1 hv
    exact ⟨rfl, rfl, rfl⟩

end TrailingNewline

namespace TrailingWhitespace

theorem staysWithin_rule : rule.StaysWithin := by
  refine Rule.staysWithin_ofFindings fun unit options v hv => ?_
  obtain ⟨line, hline, hv⟩ := List.mem_filterMap.1 hv
  simp only [finding?] at hv
  split at hv
  · cases hv
  split at hv
  · cases hv
  · obtain rfl := Option.some.inj hv
    refine ⟨.inl rfl, line, hline, rfl, fun c hc => ?_⟩
    obtain rfl := Option.some.inj hc
    -- what is kept of the text is a part of the line
    have hkept : (Text.trimEndWhile isSpaceOrTab line.text).length ≤ line.text.length := by
      simpa [Text.trimEndWhile] using
        (List.dropWhile_suffix isSpaceOrTab (l := line.text.reverse)).length_le
    have htext : line.text.length ≤ line.raw.characters.length := by
      simp [Line.text, RawLine.characters]
    omega

end TrailingWhitespace

namespace TypeName

theorem staysWithin_rule : rule.StaysWithin := by
  refine Rule.staysWithin_ofFindings fun unit options v hv => ?_
  obtain ⟨node, _, hv⟩ := List.mem_filterMap.1 hv
  obtain ⟨_, name, problem, p, _, _, hposition, rfl⟩ := finding?_eq_some_iff.1 hv
  exact Violation.isWithin_of_positionIn? hposition rfl rfl

end TypeName

namespace Catalog

/-- The rule about the end of the file is the only one that may leave the line table. -/
theorem staysWithin_of_mem_rules {rule : Rule} (h : rule ∈ rules) :
    rule = TrailingNewline.rule ∨
      rule.identifier ≠ TrailingNewline.descriptor.identifier ∧ rule.StaysWithin := by
  simp only [rules, List.mem_cons, List.not_mem_nil, or_false] at h
  rcases h with rfl | rfl | rfl | rfl | rfl | rfl
  · exact .inr ⟨by decide, FileLength.staysWithin_rule⟩
  · exact .inr ⟨by decide, LineLength.staysWithin_rule⟩
  · exact .inr ⟨by decide, MultilineArguments.staysWithin_rule⟩
  · exact .inl rfl
  · exact .inr ⟨by decide, TrailingWhitespace.staysWithin_rule⟩
  · exact .inr ⟨by decide, TypeName.staysWithin_rule⟩

/-- **Every built-in finding points into its file.**  Whatever the contents, the tree and the
settings are, a built-in rule comes to its findings; each carries the identifier of the rule and the
path of the unit, is medium or high, and stands on a line of the table, or on the line after the
last one if the rule is the one about the end of the file; a character is one of its line, ending
included, or the place behind the last. -/
theorem validate_points_into_unit {rule : Rule} (h : rule ∈ rules) (unit : SourceUnit)
    (settings : RuleSettings) :
    ∃ findings, rule.validate unit settings = .ok findings ∧ ∀ v ∈ findings,
      v.rule = rule.identifier ∧ v.location.file = unit.path ∧
      (v.severity = .medium ∨ v.severity = .high) ∧
      1 ≤ v.location.line ∧ v.location.line ≤ unit.lines.length + 1 ∧
      (v.location.line = unit.lines.length + 1 ↔ rule.identifier = "trailing_newline") ∧
      ∀ c, v.location.character = some c → 1 ≤ c ∧
        ∃ line ∈ unit.lines, line.index = v.location.line ∧
          c ≤ 1 + line.raw.characters.length := by
  obtain ⟨findings, hfindings, hsigned⟩ :=
    (signs_of_mem_rules h).exists_validate_eq_ok unit settings
  refine ⟨findings, hfindings, fun v hv => ⟨(hsigned v hv).1, (hsigned v hv).2, ?_⟩⟩
  rcases staysWithin_of_mem_rules h with rfl | ⟨hne, hwithin⟩
  · obtain rfl := Except.ok.inj hfindings
    obtain ⟨hlevel, hline, hcharacter⟩ := TrailingNewline.of_mem_findings hv
    exact ⟨.inl hlevel, by omega, by omega, iff_of_true hline rfl, fun c hc => by simp_all⟩
  · obtain ⟨hlevel, line, hline, hstands⟩ := hwithin unit settings findings hfindings v hv
    obtain ⟨hfirst, hlast⟩ := index_of_mem_lineTable hline
    have hlast : v.location.line ≤ unit.lines.length := hstands.onLine ▸ hlast
    refine ⟨hlevel, hstands.onLine ▸ hfirst, by omega, iff_of_false (by omega) hne, fun c hc => ?_⟩
    obtain ⟨hpos, hle⟩ := hstands.atCharacter c hc
    exact ⟨hpos, line, hline, hstands.onLine.symm, hle⟩

namespace Stray

/-- Types at every byte of a text of one character and beyond. -/
def unit : SourceUnit where
  contents := "é"
  tree := Node.fileRoot 2
    [.mk .structType (some "a") 0 0 [], .mk .classType (some "b") 1 0 [],
      .mk .enumType (some "c") 2 9 [], .mk .protocol (some "d") 3 0 []]

end Stray

/-- Of types at the start of a character, inside it, at the end of the file and beyond, the first
and the third have a place; the third stands right behind the only character. -/
theorem validate_points_into_unit_stray :
    ∃ findings, TypeName.rule.validate Stray.unit {} = .ok findings ∧
      findings.map Violation.place = [(1, some 1), (1, some 2)] ∧
      ∀ v ∈ findings, v.severity = .medium ∨ v.severity = .high := by
  obtain ⟨findings, hfindings, hbounds⟩ :=
    validate_points_into_unit (show TypeName.rule ∈ rules by simp [rules]) Stray.unit {}
  refine ⟨findings, hfindings, ?_, fun v hv => (hbounds v hv).2.2.1⟩
  obtain rfl := Except.ok.inj hfindings
  decide +kernel

end Catalog

end SwiftStyle
