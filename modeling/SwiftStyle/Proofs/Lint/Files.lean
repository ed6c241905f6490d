import SwiftStyle.Lint.Files
import SwiftStyle.Proofs.Lint.Check
import SwiftStyle.Proofs.Report.Merging
import SwiftStyle.Proofs.Rules.Places

/-!
# Proofs/Lint/Files — the report of many files, file by file

Every file is checked on its own: `findingsIn`, `loads` and `diagnosticsOf` are what it adds to a
report (`lintFiles_eq`).  When rules stamp their findings, sorting across files only puts the blocks
of the files into the order of their paths and leaves each block as it is (`sortAcrossFiles_eq`), so
the order in which files are given does not count.
-/

open Std

namespace SwiftStyle

/-- The finding lies in a file, however its path is written. -/
def Violation.isIn (v : Violation) (file : Path) : Bool := v.location.file.any (·.sameSteps file)

namespace Linter

variable (linter : Linter) (x : Extractor) (t : FileTree)

/-! ## One file -/

/-- The findings in a file: those of its check, and none when it cannot be loaded. -/
def findingsIn (file : Path) : List Violation :=
  match x.load t file with
  | .ok unit => (linter.check unit).violations
  | .error _ => []

/-- The diagnostics of a file: those of its check, or the one that says why it cannot be loaded. -/
def diagnosticsOf (file : Path) : List Diagnostic :=
  match x.load t file with
  | .ok unit => (linter.check unit).diagnostics
  | .error e => [⟨file.text, e.message⟩]

end Linter

/-- Whether a file can be loaded. -/
def Extractor.loads (x : Extractor) (t : FileTree) (file : Path) : Bool := (x.load t file).isOk

/-- **A loaded unit knows its file.** -/
theorem Extractor.path_of_load {x : Extractor} {t : FileTree} {file : Path} {unit : SourceUnit}
    (h : x.load t file = .ok unit) : unit.path = some file := by
  simp only [load, unitOf] at h
  split at h
  · simp at h
  · split at h
    · simp at h
    · split at h
      · rw [← Except.ok.inj h]
      · simp at h

namespace Linter

variable {linter : Linter} {x : Extractor} {t : FileTree}

theorem lintFile_eq (file : Path) :
    linter.lintFile x t file =
      { violations := linter.findingsIn x t file
        filesChecked := if x.loads t file then 1 else 0
        diagnostics := linter.diagnosticsOf x t file } := by
  rw [lintFile, findingsIn, diagnosticsOf, Extractor.loads]
  cases x.load t file <;> rfl

/-- **A file that cannot be loaded has no findings.** -/
theorem findingsIn_of_not_loads {file : Path} (h : x.loads t file = false) :
    linter.findingsIn x t file = [] := by
  rw [Extractor.loads] at h
  rw [findingsIn]
  cases hload : x.load t file with
  | ok unit => simp [hload, Except.isOk, Except.toBool] at h
  | error e => rfl

/-- The findings in a file are in their order inside one file. -/
theorem pairwise_findingsIn (file : Path) :
    (linter.findingsIn x t file).Pairwise fun v w => (Violation.compareInFile v w).isLE := by
  rw [findingsIn]
  split
  · next unit _ =>
    rw [check_eq]
    exact (isStableSort_mergeSort _).ordered
  · exact List.Pairwise.nil

/-- What a stamping rule adds lies in the file of the unit. -/
theorem file_of_mem_kept {c : Config} {unit : SourceUnit} {rule : Rule} (h : rule.StampsPath)
    {v : Violation} (hv : v ∈ kept c unit rule) : v.location.file = unit.path := by
  obtain ⟨findings, hfindings, w, hw, rfl⟩ := exists_of_mem_kept hv
  exact h unit _ findings hfindings w hw

/-- **Rules that stamp their findings leave them in the file.** -/
theorem file_of_mem_findingsIn (hstamps : ∀ rule ∈ linter.rules, rule.StampsPath) {file : Path}
    {v : Violation} (hv : v ∈ linter.findingsIn x t file) : v.location.file = some file := by
  rw [findingsIn] at hv
  split at hv
  · next unit hload =>
    rw [check_eq] at hv
    obtain ⟨rule, hrule, hv⟩ := List.mem_flatMap.1 (List.mem_mergeSort.1 hv)
    rw [file_of_mem_kept (hstamps rule hrule) hv, Extractor.path_of_load hload]
  · simp at hv

/-! ## All files -/

/-- **A report of files is put together file by file**, and its findings are sorted. -/
theorem lintFiles_eq (files : List Path) :
    linter.lintFiles x t files =
      if files.isEmpty then .error (.noFiles [])
      else .ok
        { violations := Violation.sortAcrossFiles (files.flatMap (linter.findingsIn x t))
          filesChecked := files.countP (x.loads t)
          diagnostics := files.flatMap (linter.diagnosticsOf x t) } := by
  have hcount : (files.map fun file => if x.loads t file then 1 else 0).sum
      = files.countP (x.loads t) := by
    induction files with
    | nil => rfl
    | cons file files ih => rw [List.map_cons, List.sum_cons, ih, List.countP_cons, Nat.add_comm]
  rw [lintFiles, Report.sort_foldl_extend, List.flatMap_map, List.flatMap_map, List.map_map]
  simp only [lintFile_eq, Function.comp_def, hcount, List.nil_append, Nat.zero_add]

/-- Paths that name different sequences of steps. -/
def Distinct (files : List Path) : Prop := files.Pairwise fun f g => f.components ≠ g.components

theorem Distinct.nodup {files : List Path} (h : Distinct files) : files.Nodup :=
  h.imp fun hne he => hne (congrArg Path.components he)

/-- Files of a list of distinct ones that name the same steps are the same. -/
theorem Distinct.eq {files : List Path} (h : Distinct files) {f g : Path} (hf : f ∈ files)
    (hg : g ∈ files) (he : f.components = g.components) : f = g := by
  have : Symm fun f g : Path => f.components ≠ g.components := ⟨fun _ _ hne => hne.symm⟩
  by_contra hne
  exact h.forall hf hg hne he

theorem Distinct.perm {files files' : List Path} (h : Distinct files) (hperm : files.Perm files') :
    Distinct files' := hperm.pairwise h fun hne => hne.symm

/-- **Distinct files, in the order of their paths.** -/
theorem Distinct.exists_increasing {files : List Path} (h : Distinct files) :
    ∃ ordered, ordered.Perm files ∧ Increasing ordered := by
  have hsort : IsStableSort (compare : Path → Path → Ordering) files _ :=
    isStableSort_mergeSort files
  refine ⟨_, hsort.perm, ((h.perm hsort.perm.symm).and hsort.ordered).imp ?_⟩
  rintro f g ⟨hne, hle⟩
  rcases Ordering.isLE_iff_eq_lt_or_eq_eq.1 hle with hlt | heq
  · exact hlt
  · exact absurd (Path.compare_eq_iff.1 heq) hne

/-- Files in increasing order are distinct. -/
theorem Distinct.of_increasing {files : List Path} (h : Increasing files) : Distinct files :=
  h.imp fun hlt he => by simp [Path.compare_eq_iff.2 he] at hlt

section Blocks

variable (hstamps : ∀ rule ∈ linter.rules, rule.StampsPath)
include hstamps

/-- Of the findings in one file none lies in another. -/
theorem filter_findingsIn_of_ne {file other : Path} (h : other.components ≠ file.components) :
    (linter.findingsIn x t other).filter (·.isIn file) = [] := by
  refine List.filter_eq_nil_iff.2 fun v hv hin => h ?_
  rw [Violation.isIn, file_of_mem_findingsIn hstamps hv] at hin
  exact Path.sameSteps_iff.1 hin

theorem filter_findingsIn_self (file : Path) :
    (linter.findingsIn x t file).filter (·.isIn file) = linter.findingsIn x t file := by
  refine List.filter_eq_self.2 fun v hv => ?_
  rw [Violation.isIn, file_of_mem_findingsIn hstamps hv]
  exact Path.sameSteps_iff.2 rfl

/-- **Of the findings in many files those in one are that file's block.** -/
theorem filter_flatMap_findingsIn {files : List Path} (hfiles : Distinct files) {file : Path}
    (hfile : file ∈ files) :
    (files.flatMap (linter.findingsIn x t)).filter (·.isIn file) = linter.findingsIn x t file := by
  rw [List.filter_flatMap, flatMap_eq_of_unique hfiles.nodup hfile,
    filter_findingsIn_self hstamps]
  intro other hother hne
  exact filter_findingsIn_of_ne hstamps fun he => hne (hfiles.eq hother hfile he)

/-- Findings that compare equal across files lie in the same file. -/
theorem components_eq_of_compare {file other : Path} {v w : Violation}
    (hv : v ∈ linter.findingsIn x t file) (hw : w ∈ linter.findingsIn x t other)
    (h : Violation.compareAcrossFiles v w = .eq) : other.components = file.components := by
  have hsame := (Violation.compareAcrossFiles_eq_iff.1 h).1
  rw [file_of_mem_findingsIn hstamps hv, file_of_mem_findingsIn hstamps hw] at hsame
  cases hsame with
  | some hfiles => exact hfiles.symm

/-- **Sorting across files puts blocks into order** and leaves each of them as it is. -/
theorem sortAcrossFiles_eq {files ordered : List Path} (hperm : ordered.Perm files)
    (hordered : Increasing ordered) :
    Violation.sortAcrossFiles (files.flatMap (linter.findingsIn x t))
      = ordered.flatMap (linter.findingsIn x t) := by
  have hdistinct := Distinct.of_increasing hordered
  refine (eq_mergeSort_iff.2 ⟨hperm.flatMap_right _, ?_, fun v => ?_⟩).symm
  · -- inside a block the files are equal, and from block to block they increase
    refine List.pairwise_flatMap.2 ⟨fun file _ => ?_, hordered.imp fun {f g} hlt => ?_⟩
    · refine (pairwise_findingsIn file).imp_of_mem fun {v w} hv hw hle => ?_
      have hsame : Path.SameFile v.location.file w.location.file := by
        rw [file_of_mem_findingsIn hstamps hv, file_of_mem_findingsIn hstamps hw]
        exact .some rfl
      rwa [Violation.compareAcrossFiles_of_sameFile hsame]
    · intro v hv w hw
      have hless : compare v.location.file w.location.file = .lt := by
        rw [file_of_mem_findingsIn hstamps hv, file_of_mem_findingsIn hstamps hw]
        exact hlt
      rw [Violation.compareAcrossFiles, hless]
      rfl
  · -- findings that compare equal lie in one file
    refine filter_flatMap_perm (hdistinct.perm hperm).nodup hperm ?_ v
    intro file hfile other hother v hv w hw hvw
    exact (hdistinct.perm hperm).eq hother hfile (components_eq_of_compare hstamps hv hw hvw)

end Blocks

/-! ## The report -/

/-- **What a report of files must say.** -/
structure IsReportOf (linter : Linter) (x : Extractor) (t : FileTree) (files : List Path)
    (r : Report) : Prop where
  /-- The findings in a file are those of its check, in the same order. -/
  inFile : ∀ file ∈ files, r.violations.filter (·.isIn file) = linter.findingsIn x t file
  /-- File stands after file in increasing order, and nothing stands in between. -/
  inOrder : ∃ ordered, ordered.Perm files ∧ Increasing ordered ∧
    r.violations = ordered.flatMap (linter.findingsIn x t)
  filesChecked : r.filesChecked = files.countP (x.loads t)
  /-- The diagnostics stay in the order of the files. -/
  diagnostics : r.diagnostics = files.flatMap (linter.diagnosticsOf x t)

/-- **A report of files leaves no choice.** -/
theorem IsReportOf.unique {files : List Path} {r r' : Report} (h : linter.IsReportOf x t files r)
    (h' : linter.IsReportOf x t files r') : r = r' := by
  obtain ⟨ordered, hperm, hordered, hviolations⟩ := h.inOrder
  obtain ⟨ordered', hperm', hordered', hviolations'⟩ := h'.inOrder
  obtain rfl : ordered = ordered' :=
    hordered.eq_of_mem_iff hordered' fun _ => hperm.mem_iff.trans hperm'.mem_iff.symm
  have hviolations := hviolations.trans hviolations'.symm
  have hchecked := h.filesChecked.trans h'.filesChecked.symm
  have hdiagnostics := h.diagnostics.trans h'.diagnostics.symm
  obtain ⟨_, _, _⟩ := r
  obtain ⟨_, _, _⟩ := r'
  simp only at hviolations hchecked hdiagnostics
  rw [hviolations, hchecked, hdiagnostics]

/-- **Only for no files there is no report.** -/
theorem lintFiles_eq_error_iff {files : List Path} {e : LintError} :
    linter.lintFiles x t files = .error e ↔ files = [] ∧ e = .noFiles [] := by
  rw [lintFiles_eq]
  cases files with
  | nil => simp [eq_comm]
  | cons file files => simp

/-- Files with the same blocks of findings have reports with the same findings. -/
theorem exists_lintFiles_of_ne_nil (linter : Linter) (x : Extractor) (t : FileTree)
    {files : List Path} (hne : files ≠ []) :
    ∃ r, linter.lintFiles x t files = .ok r ∧
      r.violations = Violation.sortAcrossFiles (files.flatMap (linter.findingsIn x t)) ∧
      r.filesChecked = files.countP (x.loads t) ∧
      r.diagnostics = files.flatMap (linter.diagnosticsOf x t) := by
  rw [lintFiles_eq, if_neg (by simpa using hne)]
  exact ⟨_, rfl, rfl, rfl, rfl⟩

section Report

variable (hstamps : ∀ rule ∈ linter.rules, rule.StampsPath)
include hstamps

/-- **The report of distinct files is the one that is asked for.** -/
theorem lintFiles_eq_ok_iff {files : List Path} (hfiles : Distinct files) {r : Report} :
    linter.lintFiles x t files = .ok r ↔ files ≠ [] ∧ linter.IsReportOf x t files r := by
  have hreport : ∀ {r : Report}, linter.lintFiles x t files = .ok r → files ≠ [] →
      linter.IsReportOf x t files r := by
    intro r hr hne
    obtain ⟨ordered, hperm, hordered⟩ := hfiles.exists_increasing
    obtain ⟨r', hr', hviolations, hchecked, hdiagnostics⟩ :=
      exists_lintFiles_of_ne_nil linter x t hne
    obtain rfl := Except.ok.inj (hr.symm.trans hr')
    rw [sortAcrossFiles_eq hstamps hperm hordered] at hviolations
    refine ⟨fun file hfile => ?_, ⟨ordered, hperm, hordered, hviolations⟩, hchecked, hdiagnostics⟩
    rw [hviolations]
    exact filter_flatMap_findingsIn hstamps (hfiles.perm hperm.symm) (hperm.mem_iff.2 hfile)
  constructor
  · intro hr
    have hne : files ≠ [] := by
      rintro rfl
      simp [lintFiles_eq] at hr
    exact ⟨hne, hreport hr hne⟩
  · rintro ⟨hne, h⟩
    obtain ⟨r', hr', _⟩ := exists_lintFiles_of_ne_nil linter x t hne
    rw [hr', h.unique (hreport hr' hne)]

/-- **The order of the files does not count** for the findings. -/
theorem lintFiles_perm {files files' : List Path} (hfiles : Distinct files)
    (hperm : files'.Perm files) {r : Report} (hr : linter.lintFiles x t files = .ok r) :
    ∃ r', linter.lintFiles x t files' = .ok r' ∧ r'.violations = r.violations ∧
      r'.filesChecked = r.filesChecked ∧ r'.diagnostics.Perm r.diagnostics := by
  obtain ⟨hne, h⟩ := (lintFiles_eq_ok_iff hstamps hfiles).1 hr
  have hne' : files' ≠ [] := fun he => hne (by simpa [he] using hperm)
  obtain ⟨r', hr', _⟩ := exists_lintFiles_of_ne_nil linter x t hne'
  obtain ⟨_, h'⟩ := (lintFiles_eq_ok_iff hstamps (hfiles.perm hperm.symm)).1 hr'
  obtain ⟨ordered, hordered, hincreasing, hviolations⟩ := h.inOrder
  obtain ⟨ordered', hordered', hincreasing', hviolations'⟩ := h'.inOrder
  obtain rfl : ordered = ordered' := hincreasing.eq_of_mem_iff hincreasing' fun _ =>
    hordered.mem_iff.trans (hordered'.mem_iff.trans hperm.mem_iff).symm
  refine ⟨r', hr', hviolations'.trans hviolations.symm, ?_, ?_⟩
  · rw [h.filesChecked, h'.filesChecked, hperm.countP_eq]
  · rw [h.diagnostics, h'.diagnostics]
    exact hperm.flatMap_right _

end Report

/-- **Files that cannot be loaded may be left out**: the findings stay as they are. -/
theorem lintFiles_filter {files : List Path} {keep : Path → Bool}
    (hdropped : ∀ file ∈ files, keep file = false → x.loads t file = false)
    (hne : files.filter keep ≠ []) {r : Report} (hr : linter.lintFiles x t files = .ok r) :
    ∃ r', linter.lintFiles x t (files.filter keep) = .ok r' ∧ r'.violations = r.violations ∧
      r'.filesChecked = r.filesChecked := by
  have hfiles : files ≠ [] := by
    rintro rfl
    exact hne rfl
  obtain ⟨r₀, hr₀, hviolations, hchecked, _⟩ :=
    exists_lintFiles_of_ne_nil linter x t hfiles
  obtain rfl := Except.ok.inj (hr.symm.trans hr₀)
  obtain ⟨r', hr', hviolations', hchecked', _⟩ :=
    exists_lintFiles_of_ne_nil linter x t hne
  refine ⟨r', hr', ?_, ?_⟩
  · rw [hviolations, hviolations', flatMap_filter_of_nil fun file hfile hkeep =>
      findingsIn_of_not_loads (hdropped file hfile hkeep)]
  · rw [hchecked, hchecked', List.countP_filter]
    refine List.countP_congr fun file hfile => ?_
    cases hkeep : keep file with
    | true => simp
    | false => simp [hdropped file hfile hkeep]

namespace Shuffled

/-- Two files with a text of one letter and one that is no text. -/
def tree : FileTree where
  entries :=
    [(["a"], .directory), (["a", "b.swift"], .file ⟨#[80]⟩), (["a.b.swift"], .file ⟨#[81]⟩),
      (["z.swift"], .file ⟨#[255]⟩)]

/-- Nothing is found in any text. -/
def extractor : Extractor where
  extract text := .ok (Node.fileRoot text.utf8ByteSize [])

/-- A rule with two findings on one line. -/
def twice : Rule where
  descriptor := { identifier := "twice", name := "Twice", description := "" }
  validate unit _ := .ok
    [{ rule := "twice", severity := .low, location := { file := unit.path, line := 1 },
       reason := "second" },
     { rule := "twice", severity := .high, location := { file := unit.path, line := 1 },
       reason := "first" }]

/-- A rule that gives up on one of the texts. -/
def shy : Rule where
  descriptor := { identifier := "shy", name := "Shy", description := "" }
  validate unit _ := if unit.contents = "Q" then .error .unexplained else .ok []

def twoRules : Linter where
  rules := [shy, twice]

/-- The files, the last one first. -/
def files : List Path := [⟨"/z.swift"⟩, ⟨"/a.b.swift"⟩, ⟨"/a/b.swift"⟩]

/-- The findings in a file with a text. -/
def pair (file : Path) : List Violation :=
  [{ rule := "twice", severity := .low, location := { file, line := 1 }, reason := "second" },
   { rule := "twice", severity := .high, location := { file, line := 1 }, reason := "first" }]

theorem stampsPath : ∀ rule ∈ twoRules.rules, rule.StampsPath := by
  intro rule hrule unit options findings hfound v hv
  simp only [twoRules, List.mem_cons, List.not_mem_nil, or_false] at hrule
  rcases hrule with rfl | rfl
  · simp only [shy] at hfound
    split at hfound
    · simp at hfound
    · simp [← Except.ok.inj hfound] at hv
  · rw [← Except.ok.inj hfound] at hv
    rcases List.mem_cons.1 hv with rfl | hv
    · rfl
    · rw [List.mem_singleton.1 hv]

/-- What is found stands in order as it is. -/
theorem findingsIn_eq {file : Path} {unit : SourceUnit}
    (hload : extractor.load tree file = .ok unit)
    (hkept : twoRules.rules.flatMap (kept twoRules.config unit) = pair file) :
    twoRules.findingsIn extractor tree file = pair file := by
  rw [findingsIn, hload]
  exact violations_check_eq hkept (by simp [pair, Violation.compareInFile, ReflOrd.compare_self])

end Shuffled

/-- **Linting files is checking each of them**, whatever their order.  The report of distinct files
holds the findings of each file's check as they are, file after file in the order of the paths; it
counts the files that can be loaded, and its diagnostics follow the order of the files.  So permuted
files have the same findings and the same count, and so have files without some that cannot be
loaded.  There is no report only when there is no file. -/
theorem lintFiles_exact (hstamps : ∀ rule ∈ linter.rules, rule.StampsPath) :
    (∀ files r, Distinct files →
      (linter.lintFiles x t files = .ok r ↔ files ≠ [] ∧ linter.IsReportOf x t files r)) ∧
    (∀ files files' r, Distinct files → files'.Perm files → linter.lintFiles x t files = .ok r →
      ∃ r', linter.lintFiles x t files' = .ok r' ∧ r'.violations = r.violations ∧
        r'.filesChecked = r.filesChecked ∧ r'.diagnostics.Perm r.diagnostics) ∧
    (∀ files r, ∀ keep : Path → Bool, Distinct files →
      (∀ file ∈ files, keep file = false → x.loads t file = false) → files.filter keep ≠ [] →
      linter.lintFiles x t files = .ok r →
      ∃ r', linter.lintFiles x t (files.filter keep) = .ok r' ∧ r'.violations = r.violations ∧
        r'.filesChecked = r.filesChecked) ∧
    (∀ files e, linter.lintFiles x t files = .error e ↔ files = [] ∧ e = .noFiles []) ∧
    ∀ rule ∈ Catalog.rules, rule.StampsPath :=
  ⟨fun _ _ hfiles => lintFiles_eq_ok_iff hstamps hfiles,
    fun _ _ _ hfiles hperm hr => lintFiles_perm hstamps hfiles hperm hr,
    fun _ _ _ _ hdropped hne hr => lintFiles_filter hdropped hne hr,
    fun _ _ => lintFiles_eq_error_iff, fun _ => Catalog.stampsPath_of_mem_rules⟩

/-- Of files in the wrong order the findings come in the order of the paths; the file that is no
text may be left out. -/
theorem lintFiles_exact_shuffled :
    ∃ r r', Shuffled.twoRules.lintFiles Shuffled.extractor Shuffled.tree Shuffled.files = .ok r ∧
      r.violations = Shuffled.pair ⟨"/a/b.swift"⟩ ++ Shuffled.pair ⟨"/a.b.swift"⟩ ∧
      r.filesChecked = 2 ∧
      r.diagnostics = [⟨"/z.swift", "/z.swift is not valid UTF-8"⟩,
        ⟨"shy", "rule faulted on /a.b.swift: unknown fault"⟩] ∧
      Shuffled.twoRules.lintFiles Shuffled.extractor Shuffled.tree
        [⟨"/a.b.swift"⟩, ⟨"/a/b.swift"⟩] = .ok r' ∧ r'.violations = r.violations := by
  have hdistinct : Distinct Shuffled.files := by
    unfold Distinct
    decide +kernel
  have hfirst : Shuffled.twoRules.findingsIn Shuffled.extractor Shuffled.tree ⟨"/a/b.swift"⟩
      = Shuffled.pair ⟨"/a/b.swift"⟩ := Shuffled.findingsIn_eq (by rfl) (by decide +kernel)
  have hsecond : Shuffled.twoRules.findingsIn Shuffled.extractor Shuffled.tree ⟨"/a.b.swift"⟩
      = Shuffled.pair ⟨"/a.b.swift"⟩ := Shuffled.findingsIn_eq (by rfl) (by decide +kernel)
  obtain ⟨hreport, _, hleftOut, _⟩ := lintFiles_exact (x := Shuffled.extractor)
    (t := Shuffled.tree) Shuffled.stampsPath
  have hne : Shuffled.files ≠ [] := by decide
  obtain ⟨r, hr, _⟩ :=
    exists_lintFiles_of_ne_nil Shuffled.twoRules Shuffled.extractor Shuffled.tree hne
  obtain ⟨_, his⟩ := (hreport _ r hdistinct).1 hr
  obtain ⟨ordered, hperm, hordered, hviolations⟩ := his.inOrder
  obtain rfl : ordered = [⟨"/a/b.swift"⟩, ⟨"/a.b.swift"⟩, ⟨"/z.swift"⟩] := by
    refine hordered.eq_of_mem_iff (by decide +kernel) fun file => ?_
    rw [hperm.mem_iff]
    simp only [Shuffled.files, List.mem_cons, List.not_mem_nil, or_false]
    tauto
  obtain ⟨r', hr', hsame, _⟩ := hleftOut _ r (· ≠ ⟨"/z.swift"⟩) hdistinct
    (by decide +kernel) (by decide +kernel) hr
  refine ⟨r, r', hr, ?_, ?_, ?_, hr', hsame⟩
  · rw [hviolations, List.flatMap_cons, List.flatMap_cons, hfirst, hsecond]
    rfl
  · rw [his.filesChecked]
    decide +kernel
  · rw [his.diagnostics]
    decide +kernel

end Linter

end SwiftStyle
