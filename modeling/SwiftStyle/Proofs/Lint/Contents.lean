import SwiftStyle.Proofs.Lint.Files
import SwiftStyle.Proofs.Text.Bytes

/-!
# Proofs/Lint/Contents — a file and its text have the same report

A rule *follows the path* when it reads the path of a unit only to stamp it on its findings; every
built-in rule does.  A report of such rules is the same for all paths but for the file that findings
and faults name (`check_inFile`), and sorting the findings of one file across files leaves them as
they are, so a file is reported as the text that it holds.
-/

namespace SwiftStyle

/-- The finding in another file, or in none. -/
def Violation.inFile (file : Option Path) (v : Violation) : Violation :=
  { v with location := { v.location with file } }

/-- **A rule reads the path of a unit only to stamp it on its findings.** -/
def Rule.FollowsPath (rule : Rule) : Prop :=
  ∀ (unit : SourceUnit) (settings : RuleSettings) (path : Option Path),
    rule.validate { unit with path } settings
      = (rule.validate unit settings).map (List.map (Violation.inFile path))

theorem Rule.followsPath_ofFindings {descriptor : RuleDescriptor}
    {findings : SourceUnit → Options → List Violation}
    (h : ∀ (unit : SourceUnit) (options : Options) (path : Option Path),
      findings { unit with path } options = (findings unit options).map (Violation.inFile path)) :
    (ofFindings descriptor findings).FollowsPath := fun unit settings path =>
  congrArg Except.ok (h unit settings.options path)

/-- Such a rule stamps the path that there is. -/
theorem Rule.FollowsPath.stampsPath {rule : Rule} (h : rule.FollowsPath) : rule.StampsPath := by
  intro unit settings findings hfindings v hv
  have hself := h unit settings unit.path
  rw [hfindings] at hself
  rw [Except.ok.inj hself] at hv
  obtain ⟨w, _, rfl⟩ := List.mem_map.1 hv
  rfl

/-! ## Rule by rule -/

theorem FileLength.followsPath_rule : rule.FollowsPath := by
  refine Rule.followsPath_ofFindings fun unit options path => ?_
  simp only [findings, SourceUnit.lines]
  split
  · rfl
  · rfl

theorem LineLength.followsPath_rule : rule.FollowsPath := by
  refine Rule.followsPath_ofFindings fun unit options path => ?_
  rw [findings, findings, List.map_filterMap]
  refine List.filterMap_congr fun line _ => ?_
  simp only [finding?]
  split
  · rfl
  · rw [Option.map_map]
    rfl

theorem MultilineArguments.followsPath_rule : rule.FollowsPath := by
  refine Rule.followsPath_ofFindings fun unit options path => ?_
  rw [findings, findings, List.map_map]
  rfl

theorem TrailingNewline.followsPath_rule : rule.FollowsPath := by
  refine Rule.followsPath_ofFindings fun unit options path => ?_
  simp only [findings]
  split
  · rfl
  · rfl

theorem TrailingWhitespace.followsPath_rule : rule.FollowsPath := by
  refine Rule.followsPath_ofFindings fun unit options path => ?_
  rw [findings, findings, List.map_filterMap]
  refine List.filterMap_congr fun line _ => ?_
  simp only [finding?]
  split
  · rfl
  · split
    · rfl
    · rfl

theorem TypeName.followsPath_rule : rule.FollowsPath := by
  refine Rule.followsPath_ofFindings fun unit options path => ?_
  rw [findings, findings, List.map_filterMap]
  refine List.filterMap_congr fun node _ => Option.ext fun v => ?_
  rw [Option.map_eq_some_iff]
  simp only [finding?_eq_some_iff]
  constructor
  · rintro ⟨htype, name, problem, p, hname, hproblem, hp, rfl⟩
    exact ⟨_, ⟨htype, name, problem, p, hname, hproblem, hp, rfl⟩, rfl⟩
  · rintro ⟨w, ⟨htype, name, problem, p, hname, hproblem, hp, rfl⟩, rfl⟩
    exact ⟨htype, name, problem, p, hname, hproblem, hp, rfl⟩

/-- **Every built-in rule follows the path.** -/
theorem Catalog.followsPath_of_mem_rules {rule : Rule} (h : rule ∈ rules) : rule.FollowsPath := by
  simp only [rules, List.mem_cons, List.not_mem_nil, or_false] at h
  rcases h with rfl | rfl | rfl | rfl | rfl | rfl
  · exact FileLength.followsPath_rule
  · exact LineLength.followsPath_rule
  · exact MultilineArguments.followsPath_rule
  · exact TrailingNewline.followsPath_rule
  · exact TrailingWhitespace.followsPath_rule
  · exact TypeName.followsPath_rule

namespace Linter

/-! ## The report of a unit under another path -/

/-- The rules that give up on a unit, each with its reason. -/
def faults (linter : Linter) (unit : SourceUnit) : List (Rule × Fault) :=
  linter.rules.filterMap fun rule => (fault? linter.config unit rule).map fun fault => (rule, fault)

/-- The diagnostic of a rule that gave up on a file, or on a text that comes from none. -/
def faultIn (file : Option Path) (f : Rule × Fault) : Diagnostic :=
  ⟨f.1.identifier, s!"rule faulted on {displayFile file}: {f.2.reason}"⟩

theorem diagnostics_check_eq (linter : Linter) (unit : SourceUnit) :
    (linter.check unit).diagnostics = (linter.faults unit).map (faultIn unit.path) := by
  rw [check_eq, faults, List.map_filterMap]
  refine List.filterMap_congr fun rule _ => ?_
  rw [Option.map_map]
  rfl

section FollowsPath

variable {rule : Rule} (h : rule.FollowsPath) (c : Config) (unit : SourceUnit) (path : Option Path)
include h

/-- What counts of a rule moves with the path. -/
theorem kept_inFile : kept c { unit with path } rule
    = (kept c unit rule).map (Violation.inFile path) := by
  have hemitted : emitted c { unit with path } rule
      = (emitted c unit rule).map (Violation.inFile path) := by
    rw [emitted, emitted, h]
    split
    · cases rule.validate unit (c.settings rule.identifier) <;> rfl
    · rfl
  rw [kept, kept, hemitted, List.map_map, List.filter_map, List.filter_map, List.map_map]
  rfl

/-- Whether and why a rule gives up does not depend on the path. -/
theorem fault?_inFile : fault? c { unit with path } rule = fault? c unit rule := by
  rw [fault?, fault?, h]
  cases rule.validate unit (c.settings rule.identifier) <;> rfl

end FollowsPath

/-- **A report moves with the path**: findings and faults name another file, and nothing else
changes. -/
theorem check_inFile {linter : Linter} (hrules : ∀ rule ∈ linter.rules, rule.FollowsPath)
    (unit : SourceUnit) (path : Option Path) :
    linter.check { unit with path } =
      { violations := (linter.check unit).violations.map (Violation.inFile path)
        diagnostics := (linter.faults unit).map (faultIn path) } := by
  have hkept : linter.rules.flatMap (kept linter.config { unit with path })
      = (linter.rules.flatMap (kept linter.config unit)).map (Violation.inFile path) := by
    rw [List.map_flatMap]
    exact List.flatMap_congr fun rule hrule => kept_inFile (hrules rule hrule) _ unit path
  have hsort : ∀ violations : List Violation,
      Violation.sortInFile (violations.map (Violation.inFile path))
        = (Violation.sortInFile violations).map (Violation.inFile path) := by
    intro violations
    have hsame : ∀ v ∈ violations, ∀ w ∈ violations, (Violation.compareInFile v w).isLE
        = (Violation.compareInFile (v.inFile path) (w.inFile path)).isLE := fun _ _ _ _ => rfl
    exact (List.map_mergeSort hsame).symm
  have hviolations : (linter.check { unit with path }).violations
      = (linter.check unit).violations.map (Violation.inFile path) := by
    rw [check_eq, check_eq, hkept, hsort]
  have hfaults : linter.faults { unit with path } = linter.faults unit :=
    List.filterMap_congr fun rule hrule => by
      rw [fault?_inFile (hrules rule hrule)]
  have hdiagnostics : (linter.check { unit with path }).diagnostics
      = (linter.faults unit).map (faultIn path) := by
    rw [diagnostics_check_eq, hfaults]
  rw [← hviolations, ← hdiagnostics]

/-! ## One file -/

/-- **One file is reported as it is checked.** -/
theorem lintFiles_singleton {linter : Linter} (hstamps : ∀ rule ∈ linter.rules, rule.StampsPath)
    (x : Extractor) (t : FileTree) (p : Path) :
    linter.lintFiles x t [p] = .ok (linter.lintFile x t p) := by
  have hsort := sortAcrossFiles_eq (x := x) (t := t) hstamps (List.Perm.refl [p])
    (List.pairwise_singleton _ p)
  rw [lintFiles_eq, if_neg (by simp), hsort, lintFile_eq, List.flatMap_singleton,
    List.flatMap_singleton, List.countP_singleton]

/-- **A file and its text have the same report.**  Rules that follow the path, as all built-in ones
do, find the same in a file as in the text that it holds, in the same order, and the same of them
give up for the same reasons; only the file that findings and faults name differs.  A text that has
no structure is an error of its own, and as a file it is not counted and has one diagnostic, about
the file and with the text of that error. -/
theorem lintFiles_eq_lintContents {linter : Linter} {x : Extractor} {t : FileTree} {p : Path}
    {contents : String} (hrules : ∀ rule ∈ linter.rules, rule.FollowsPath)
    (hread : t.read p = .ok contents.toUTF8) :
    (∀ tree, x.extract contents = .ok tree → ∃ violations,
      linter.lintContents x contents =
        .ok ⟨violations, 1, (linter.faults ⟨none, contents, tree⟩).map (faultIn none)⟩ ∧
      (∀ v ∈ violations, v.location.file = none) ∧
      linter.lintFiles x t [p] =
        .ok ⟨violations.map (Violation.inFile (some p)), 1,
          (linter.faults ⟨none, contents, tree⟩).map (faultIn (some p))⟩) ∧
    (∀ message, x.extract contents = .error message → ∃ e : LintError,
      linter.lintContents x contents = .error e ∧ e = .notLoaded (.rejected message) ∧
      linter.lintFiles x t [p] = .ok ⟨[], 0, [⟨p.text, e.message⟩]⟩) ∧
    ∀ rule ∈ Catalog.rules, rule.FollowsPath := by
  have hstamps : ∀ rule ∈ linter.rules, rule.StampsPath := fun rule hrule =>
    (hrules rule hrule).stampsPath
  have hload : x.load t p = x.unitOf (some p) contents := by
    rw [Extractor.load, hread]
    simp only [fromUTF8?_toUTF8]
  refine ⟨fun tree htree => ?_, fun message hmessage => ?_, fun _ => Catalog.followsPath_of_mem_rules⟩
  · have hunit : ∀ path, x.unitOf path contents = .ok ⟨path, contents, tree⟩ := fun path => by
      rw [Extractor.unitOf, htree]
    have hfile := check_inFile hrules ⟨none, contents, tree⟩ (some p)
    have hnone : ∀ v ∈ (linter.check ⟨none, contents, tree⟩).violations, v.location.file = none := by
      intro v hv
      rw [check_eq] at hv
      obtain ⟨rule, hrule, hv⟩ := List.mem_flatMap.1 (List.mem_mergeSort.1 hv)
      exact file_of_mem_kept (hstamps rule hrule) hv
    refine ⟨_, ?_, hnone, ?_⟩
    · have hdiagnostics := diagnostics_check_eq linter ⟨none, contents, tree⟩
      rw [lintContents, hunit, ← hdiagnostics]
      rfl
    · rw [lintFiles_singleton hstamps, lintFile, hload, hunit]
      exact congrArg Except.ok (congrArg UnitReport.asReport hfile)
  · have hunit : ∀ path, x.unitOf path contents = .error (.rejected message) := fun path => by
      rw [Extractor.unitOf, hmessage]
    refine ⟨_, by rw [lintContents, hunit], rfl, ?_⟩
    rw [lintFiles_singleton hstamps, lintFile, hload, hunit]
    rfl

namespace Piped

/-- A line that ends in a space and in no line ending. -/
def text : String := "let a = 1 "

/-- The line in a file, and a file without structure. -/
def tree : FileTree where
  entries := [(["a.swift"], .file text.toUTF8), (["b.swift"], .file ")".toUTF8)]

/-- A lone closing parenthesis has no structure. -/
def extractor : Extractor where
  extract text :=
    if text = ")" then .error "unbalanced" else .ok (Node.fileRoot text.utf8ByteSize [])

/-- A rule that always gives up. -/
def faulty : Rule where
  descriptor := { identifier := "faulty", name := "Faulty", description := "" }
  validate _ _ := .error (.explained "index out of bounds")

def linter : Linter where
  rules := [TrailingWhitespace.rule, faulty, TrailingNewline.rule]

/-- What the rules find, in the order of the lines. -/
def found (file : Option Path) : List Violation :=
  [{ rule := "trailing_whitespace", severity := .medium,
     location := { file, line := 1, character := some 10 },
     reason := "Lines should not have trailing whitespace." },
   { rule := "trailing_newline", severity := .medium, location := { file, line := 2 },
     reason := "File should have a single trailing newline." }]

theorem followsPath : ∀ rule ∈ linter.rules, rule.FollowsPath := by
  intro rule hrule
  simp only [linter, List.mem_cons, List.not_mem_nil, or_false] at hrule
  rcases hrule with rfl | rfl | rfl
  · exact TrailingWhitespace.followsPath_rule
  · exact fun _ _ _ => rfl
  · exact TrailingNewline.followsPath_rule

end Piped

/-- The line is reported alike from a file and from no file; what has no structure is an error or a
diagnostic. -/
theorem lintFiles_eq_lintContents_piped :
    Piped.linter.lintContents Piped.extractor Piped.text = .ok
      ⟨Piped.found none, 1, [⟨"faulty", "rule faulted on <stdin>: index out of bounds"⟩]⟩ ∧
    Piped.linter.lintFiles Piped.extractor Piped.tree [⟨"/a.swift"⟩] = .ok
      ⟨Piped.found (some ⟨"/a.swift"⟩), 1,
        [⟨"faulty", "rule faulted on /a.swift: index out of bounds"⟩]⟩ ∧
    Piped.linter.lintContents Piped.extractor ")" = .error (.notLoaded (.rejected "unbalanced")) ∧
    Piped.linter.lintFiles Piped.extractor Piped.tree [⟨"/b.swift"⟩] = .ok
      ⟨[], 0, [⟨"/b.swift", "Structure extraction failed: unbalanced"⟩]⟩ := by
  have hread : Piped.tree.read ⟨"/a.swift"⟩ = .ok Piped.text.toUTF8 := by rfl
  have hread' : Piped.tree.read ⟨"/b.swift"⟩ = .ok ")".toUTF8 := by rfl
  have hfound : (Piped.linter.check ⟨none, Piped.text, Node.fileRoot 10 []⟩).violations
      = Piped.found none := violations_check_eq (by decide +kernel) (by decide +kernel)
  obtain ⟨violations, hcontents, _, hfiles⟩ :=
    (lintFiles_eq_lintContents (x := Piped.extractor) Piped.followsPath hread).1 _ rfl
  obtain ⟨e, herror, rfl, hdiagnostic⟩ :=
    (lintFiles_eq_lintContents (x := Piped.extractor) Piped.followsPath hread').2.1 _ rfl
  obtain rfl : violations = Piped.found none :=
    (congrArg Report.violations (Except.ok.inj hcontents)).symm.trans hfound
  exact ⟨hcontents, hfiles, herror, hdiagnostic⟩

end Linter

end SwiftStyle
