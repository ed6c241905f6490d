import Mathlib.Algebra.Ring.Int.Defs
import SwiftStyle.Proofs.Lists
import SwiftStyle.Proofs.Rules.Bounds
import SwiftStyle.Proofs.Rules.Links

/-!
# Proofs/Rules/Relaxing — options that ask for less

Options are relaxed when their thresholds are raised and more of their flags are set (`Relaxes`),
where a threshold that is missing, ill-typed or negative counts as its default (`IsEffective`).  A
measure that shrinks against thresholds that grow is exceeded less often and less severely
(`Thresholds.exists_exceeded?`), in whatever order the two thresholds are.  So a rule whose measure
shrinks when flags are set reports no new place under relaxed options.
-/

namespace SwiftStyle

namespace Options

variable {o o' : Options} {key : String}

/-- **The value that counts**: the natural number of the option, or the default when it has none. -/
def IsEffective (o : Options) (key : String) (default n : Nat) : Prop :=
  Toml.Table.get? o key = some (.integer n) ∨
    (∀ m : Nat, Toml.Table.get? o key ≠ some (.integer m)) ∧ n = default

/-- **Options that ask for less**: no threshold is lowered, and no flag is taken back. -/
structure Relaxes (default : Thresholds) (flags : List String) (o o' : Options) : Prop where
  warning : ∀ n n', o.IsEffective "warning" default.warning n →
    o'.IsEffective "warning" default.warning n' → n ≤ n'
  error : ∀ n n', o.IsEffective "error" default.error n →
    o'.IsEffective "error" default.error n' → n ≤ n'
  flags : ∀ key ∈ flags, Toml.Table.get? o key = some (.boolean true) →
    Toml.Table.get? o' key = some (.boolean true)

theorem isEffective_iff {default n : Nat} :
    o.IsEffective key default n ↔ o.count key default = n := by
  rw [IsEffective, count]
  cases Toml.Table.get? o key with
  | none => simp [eq_comm]
  | some value =>
    cases value with
    | integer i => cases i <;> simp [Toml.Value.asInteger?, eq_comm]
    | _ => simp [Toml.Value.asInteger?, eq_comm]

theorem flag_eq_true_iff :
    o.flag key false = true ↔ Toml.Table.get? o key = some (.boolean true) := by
  rw [flag]
  cases Toml.Table.get? o key with
  | none => simp
  | some value => cases value <;> simp [Toml.Value.asBoolean?]

theorem relaxes_iff {default : Thresholds} {flags : List String} :
    Relaxes default flags o o' ↔
      (Thresholds.ofOptions o default).warning ≤ (Thresholds.ofOptions o' default).warning ∧
        (Thresholds.ofOptions o default).error ≤ (Thresholds.ofOptions o' default).error ∧
        ∀ key ∈ flags, o.flag key false = true → o'.flag key false = true := by
  constructor
  · rintro ⟨warning, error, flags⟩
    simp only [isEffective_iff, flag_eq_true_iff] at *
    exact ⟨warning _ _ rfl rfl, error _ _ rfl rfl, flags⟩
  · rintro ⟨warning, error, flags⟩
    refine ⟨?_, ?_, ?_⟩ <;> simp only [isEffective_iff, flag_eq_true_iff] at *
    · rintro _ _ rfl rfl
      exact warning
    · rintro _ _ rfl rfl
      exact error
    · exact flags

instance (default : Thresholds) (flags : List String) (o o' : Options) :
    Decidable (Relaxes default flags o o') := decidable_of_iff _ relaxes_iff.symm

end Options

/-- **Higher thresholds are passed by less**, and less severely. -/
theorem Thresholds.exists_exceeded? {t t' : Thresholds} (hwarning : t.warning ≤ t'.warning)
    (herror : t.error ≤ t'.error) {measure measure' : Nat} (hmeasure : measure' ≤ measure)
    {severity' : Severity} {limit' : Nat} (h : t'.exceeded? measure' = some (severity', limit')) :
    ∃ severity limit, t.exceeded? measure = some (severity, limit) ∧ severity' ≤ severity := by
  rw [exceeded?] at h
  rw [exceeded?]
  split at h
  · next hhigh =>
    obtain ⟨rfl, rfl⟩ := Prod.mk.inj (Option.some.inj h)
    exact ⟨_, _, if_pos (by omega), by decide⟩
  · split at h
    · next hmedium =>
      obtain ⟨rfl, rfl⟩ := Prod.mk.inj (Option.some.inj h)
      split
      · exact ⟨_, _, rfl, by decide⟩
      · exact ⟨_, _, if_pos (by omega), by decide⟩
    · cases h

/-- Under relaxed options thresholds are passed by less, and less severely. -/
theorem Options.Relaxes.exists_exceeded? {default : Thresholds} {flags : List String}
    {o o' : Options} (h : o.Relaxes default flags o') {measure measure' : Nat}
    (hmeasure : measure' ≤ measure) {severity' : Severity} {limit' : Nat}
    (hexceeded : (Thresholds.ofOptions o' default).exceeded? measure' = some (severity', limit')) :
    ∃ severity limit, (Thresholds.ofOptions o default).exceeded? measure = some (severity, limit) ∧
      severity' ≤ severity := by
  obtain ⟨hwarning, herror, -⟩ := relaxes_iff.1 h
  exact Thresholds.exists_exceeded? hwarning herror hmeasure hexceeded

/-- **Every place that is reported second is reported first**, at least as severely. -/
def Covers (found found' : List Violation) : Prop :=
  ∀ v' ∈ found', ∃ v ∈ found, v.location = v'.location ∧ v'.severity ≤ v.severity

namespace LineLength

/-- **A line gets no longer when links are cut out.** -/
theorem measure_anti (line : Line) {ignores ignores' : Bool}
    (h : ignores = true → ignores' = true) : measure line ignores' ≤ measure line ignores := by
  have hcut : (withoutUrls line.text).length ≤ line.text.length :=
    (cutsUrls_iff.2 rfl).sublist.length_le
  cases ignores <;> cases ignores' <;> simp_all [measure]

/-- A line that is not passed over is reported when it is too long. -/
theorem exists_finding? (path : Option Path) {o : Options} {line : Line} {severity : Severity}
    {limit : Nat} (hkept : ¬(o.flag "ignores_comments" false && isComment line) = true)
    (h : (Thresholds.ofOptions o ⟨120, 200⟩).exceeded? (measure line (o.flag "ignores_urls" false))
      = some (severity, limit)) :
    ∃ v, finding? path o line = some v ∧ v.location = { file := path, line := line.index } ∧
      v.severity = severity := by
  rw [finding?, if_neg hkept]
  dsimp only
  rw [h]
  exact ⟨_, rfl, rfl, rfl⟩

theorem covers_findings {o o' : Options}
    (h : o.Relaxes ⟨120, 200⟩ ["ignores_comments", "ignores_urls"] o') (unit : SourceUnit) :
    Covers (findings unit o) (findings unit o') := by
  obtain ⟨-, -, hflags⟩ := Options.relaxes_iff.1 h
  intro v' hv'
  obtain ⟨line, hline, hfinding⟩ := List.mem_filterMap.1 hv'
  simp only [finding?] at hfinding
  split at hfinding
  · cases hfinding
  · next hskip =>
    obtain ⟨⟨severity', limit'⟩, hexceeded, rfl⟩ := Option.map_eq_some_iff.1 hfinding
    have hmeasure := measure_anti line (hflags "ignores_urls" (by simp))
    obtain ⟨severity, limit, hfirst, hle⟩ := h.exists_exceeded? hmeasure hexceeded
    have hkept : ¬(o.flag "ignores_comments" false && isComment line) = true := by
      rw [Bool.and_eq_true] at hskip ⊢
      rintro ⟨hflag, hcomment⟩
      exact hskip ⟨hflags "ignores_comments" (by simp) hflag, hcomment⟩
    obtain ⟨v, hv, hlocation, hseverity⟩ := exists_finding? unit.path hkept hfirst
    exact ⟨v, List.mem_filterMap.2 ⟨line, hline, hv⟩, hlocation, hseverity ▸ hle⟩

end LineLength

namespace FileLength

/-- **A file gets no longer when comments are left out.** -/
theorem measure_anti (lines : List Line) {ignores ignores' : Bool}
    (h : ignores = true → ignores' = true) : measure lines ignores' ≤ measure lines ignores := by
  cases ignores with
  | true => rw [h rfl]
  | false => exact measure_le lines ignores'

theorem covers_findings {o o' : Options}
    (h : o.Relaxes ⟨400, 1000⟩ ["ignore_comment_only_lines"] o') (unit : SourceUnit) :
    Covers (findings unit o) (findings unit o') := by
  obtain ⟨-, -, hflags⟩ := Options.relaxes_iff.1 h
  intro v' hv'
  simp only [findings] at hv'
  split at hv'
  · cases hv'
  · next severity' limit' hexceeded =>
    obtain rfl := List.mem_singleton.1 hv'
    have hmeasure := measure_anti unit.lines (hflags "ignore_comment_only_lines" (by simp))
    obtain ⟨severity, limit, hfirst, hle⟩ := h.exists_exceeded? hmeasure hexceeded
    simp only [findings, hfirst]
    exact ⟨_, List.mem_singleton_self _, rfl, hle⟩

end FileLength

namespace TrailingWhitespace

theorem findings_sublist {o o' : Options}
    (h : o.flag "ignores_empty_lines" false = true → o'.flag "ignores_empty_lines" false = true)
    (unit : SourceUnit) : (findings unit o').Sublist (findings unit o) := by
  refine filterMap_sublist_filterMap fun line _ v hv => ?_
  simp only [finding?] at hv ⊢
  split at hv
  · cases hv
  · next hcut =>
    rw [if_neg hcut]
    split at hv
    · cases hv
    · next hkept =>
      rw [if_neg ?_]
      · exact hv
      · rw [Bool.and_eq_true] at hkept ⊢
        rintro ⟨hflag, hempty⟩
        exact hkept ⟨h hflag, hempty⟩

end TrailingWhitespace

/-- **Relaxed options add no finding.**  What the rules about lengths report under relaxed options
they report without, on the same lines and at least as severely; and trailing white space that is
reported when more lines are passed over is reported in any case. -/
theorem relaxing_adds_nothing (unit : SourceUnit) (settings settings' : RuleSettings) :
    (settings.options.Relaxes ⟨120, 200⟩ ["ignores_comments", "ignores_urls"] settings'.options →
      ∃ found found', LineLength.rule.validate unit settings = .ok found ∧
        LineLength.rule.validate unit settings' = .ok found' ∧ Covers found found') ∧
    (settings.options.Relaxes ⟨400, 1000⟩ ["ignore_comment_only_lines"] settings'.options →
      ∃ found found', FileLength.rule.validate unit settings = .ok found ∧
        FileLength.rule.validate unit settings' = .ok found' ∧ Covers found found') ∧
    ((Toml.Table.get? settings.options "ignores_empty_lines" = some (.boolean true) →
        Toml.Table.get? settings'.options "ignores_empty_lines" = some (.boolean true)) →
      ∃ found found', TrailingWhitespace.rule.validate unit settings = .ok found ∧
        TrailingWhitespace.rule.validate unit settings' = .ok found' ∧ found'.Sublist found) := by
  refine ⟨fun h => ⟨_, _, rfl, rfl, LineLength.covers_findings h unit⟩,
    fun h => ⟨_, _, rfl, rfl, FileLength.covers_findings h unit⟩,
    fun h => ⟨_, _, rfl, rfl, TrailingWhitespace.findings_sublist ?_ unit⟩⟩
  rwa [Options.flag_eq_true_iff, Options.flag_eq_true_iff]

namespace Relaxed

/-- A file with a long line, a link and a blank line. -/
def unit : SourceUnit := .ofContents "let number = 1 \n// https://example.com\n  \n"

/-- The upper threshold is below the lower one. -/
def before : RuleSettings where
  options := [("warning", .integer 10), ("error", .integer 2)]

/-- The upper threshold is no number, so the default counts. -/
def after : RuleSettings where
  options := [("warning", .integer 14), ("error", .boolean true), ("ignores_urls", .boolean true),
    ("ignores_comments", .boolean false), ("ignore_comment_only_lines", .boolean true),
    ("ignores_empty_lines", .boolean true)]

end Relaxed

/-- The long line is reported in both cases, and first more severely. -/
theorem relaxing_adds_nothing_mixed :
    Covers (LineLength.findings Relaxed.unit Relaxed.before.options)
        (LineLength.findings Relaxed.unit Relaxed.after.options) ∧
      Covers (FileLength.findings Relaxed.unit Relaxed.before.options)
        (FileLength.findings Relaxed.unit Relaxed.after.options) ∧
      (TrailingWhitespace.findings Relaxed.unit Relaxed.after.options).Sublist
        (TrailingWhitespace.findings Relaxed.unit Relaxed.before.options) ∧
      (LineLength.findings Relaxed.unit Relaxed.before.options).map
          (fun v => (v.location.line, v.severity)) = [(1, .high), (2, .high)] ∧
      (LineLength.findings Relaxed.unit Relaxed.after.options).map
          (fun v => (v.location.line, v.severity)) = [(1, .medium)] := by
  obtain ⟨hline, hfile, hblank⟩ := relaxing_adds_nothing Relaxed.unit Relaxed.before Relaxed.after
  obtain ⟨_, _, ⟨rfl⟩, ⟨rfl⟩, hline⟩ := hline (by decide)
  obtain ⟨_, _, ⟨rfl⟩, ⟨rfl⟩, hfile⟩ := hfile (by decide)
  obtain ⟨_, _, ⟨rfl⟩, ⟨rfl⟩, hblank⟩ := hblank (fun h => rfl)
  exact ⟨hline, hfile, hblank, by decide +kernel, by decide +kernel⟩

end SwiftStyle
