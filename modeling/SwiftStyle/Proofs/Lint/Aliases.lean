import Mathlib.Data.Set.Card
import SwiftStyle.Proofs.Files.Ways
import SwiftStyle.Proofs.Index.Build
import SwiftStyle.Proofs.Lint.Roots
import SwiftStyle.Rules.TrailingNewline
import SwiftStyle.Swift.Structure

/-!
# Proofs/Lint/Aliases — how often a file is taken

In a tree without links a file has one place and many absolute paths, for a `..` stays in a path and
is no part of the place that it leads to.  Up to its last `..` a path *climbs* (`climb`); names
follow, and a place tells them.  So paths that climb alike and lead to one file are equal
(`eq_of_resolve_eq`), and under roots that climb alike every file is taken once: it is discovered
once, it counts once, and its findings are those of one check (`IsReportOnce`).
-/

namespace SwiftStyle

namespace Path

/-! ## Climbing -/

/-- The steps up to the last `..`. -/
def climbOf : List Component → List Component
  | [] => []
  | c :: cs => if .parent ∈ c :: cs then c :: climbOf cs else []

/-- **How a path climbs**: its steps up to the last `..`. -/
def climb (p : Path) : List Component := climbOf p.steps

/-- **The place that an absolute path names**: every `..` is taken back with the step before it. -/
def destination (p : Path) : Place := along [] p.components

theorem climbOf_eq_nil {cs : List Component} (h : .parent ∉ cs) : climbOf cs = [] := by
  cases cs with
  | nil => rfl
  | cons c cs => rw [climbOf, if_neg h]

/-- After the climb there are names only. -/
theorem exists_climbOf_append {cs : List Component} (h : ∀ c ∈ cs, c.IsStep) :
    ∃ names : List String, cs = climbOf cs ++ names.map .name := by
  induction cs with
  | nil => exact ⟨[], rfl⟩
  | cons c cs ih =>
    by_cases hparent : .parent ∈ c :: cs
    · obtain ⟨names, hnames⟩ := ih fun d hd => h d (List.mem_cons_of_mem c hd)
      refine ⟨names, ?_⟩
      rw [climbOf, if_pos hparent, List.cons_append, ← hnames]
    · obtain ⟨names, hnames⟩ := exists_names h hparent
      exact ⟨names, by rw [climbOf_eq_nil hparent, List.nil_append, hnames]⟩

/-- What does not step back adds nothing to the climb. -/
theorem climbOf_append (cs : List Component) {below : List Component} (h : .parent ∉ below) :
    climbOf (cs ++ below) = climbOf cs := by
  induction cs with
  | nil => exact climbOf_eq_nil h
  | cons c cs ih =>
    have hiff : .parent ∈ c :: (cs ++ below) ↔ .parent ∈ c :: cs := by simp [h]
    rw [List.cons_append, climbOf, climbOf, ih]
    simp only [hiff]

/-- **A path does not climb on by names.** -/
theorem IsCanonical.climb_join {p : Path} (hp : p.IsCanonical) {way : List String} (hne : way ≠ [])
    (hway : ∀ name ∈ way, IsName name) : (p.join ⟨"/".intercalate way⟩).climb = p.climb := by
  obtain ⟨steps, hsteps, rfl⟩ := hp
  rw [Path.join_names hsteps hne hway, climb, climb, steps_ofComponents hsteps,
    steps_ofComponents (isStep_append_names hsteps hway)]
  exact climbOf_append steps (by simp)

/-- **Paths that climb alike and lead to the same place are equal.** -/
theorem IsCanonical.eq_of_destination {p q : Path} (hp : p.IsCanonical) (hq : q.IsCanonical)
    (hclimb : p.climb = q.climb) (h : p.destination = q.destination) : p = q := by
  rw [climb, climb] at hclimb
  rw [destination, destination] at h
  refine hp.ext hq ?_
  rw [components_of_isAbsolute hp.isAbsolute, components_of_isAbsolute hq.isAbsolute] at h ⊢
  obtain ⟨names, hnames⟩ := exists_climbOf_append fun c => isStep_of_mem_steps (p := p)
  obtain ⟨names', hnames'⟩ := exists_climbOf_append fun c => isStep_of_mem_steps (p := q)
  -- the climbs lead to one place, and from there on the place tells the names
  rw [along_cons, along_cons, hnames, hnames', hclimb, along_append, along_append, along_names,
    along_names] at h
  rw [hnames, hnames', hclimb, List.append_cancel_left h]

end Path

open SwiftStyle.Path

/-- **Roots that climb alike**: written from the root, they are the same up to the last `..`. -/
def FileTree.ClimbAlike (t : FileTree) (roots : List Path) : Prop :=
  ∀ root ∈ roots, ∀ other ∈ roots, (t.absolute root).climb = (t.absolute other).climb

namespace Discovery

section Plain

variable {d : Discovery} {t : FileTree} (ht : t.Plain) {roots : List Path}
include ht

/-! ## What is discovered -/

/-- **A discovered path leads to the place that it names.** -/
theorem resolve_of_mem_discover {p : Path} (h : p ∈ d.discover t roots) :
    t.resolve p = .ok p.destination := by
  have habsolute := (isCanonical_of_mem_discover ht.toWellFormed h).isAbsolute
  obtain ⟨root, _, hp⟩ := (mem_discover_iff ht.toWellFormed).1 h
  obtain ⟨place, _, hplace, _⟩ := resolve_of_mem_filesOf ht.toWellFormed hp
  obtain ⟨_, _, hend, _⟩ := (FileTree.resolve_eq_ok_iff ht.no_links).1 hplace
  rw [hplace, hend, FileTree.start, if_pos habsolute, destination]

theorem resolve_eq_iff {p q : Path} (hp : p ∈ d.discover t roots) (hq : q ∈ d.discover t roots) :
    t.resolve p = t.resolve q ↔ p.destination = q.destination := by
  rw [resolve_of_mem_discover ht hp, resolve_of_mem_discover ht hq, Except.ok.injEq]

/-- **Discovered paths that climb alike lead to different files.** -/
theorem eq_of_resolve_eq {p q : Path} (hp : p ∈ d.discover t roots) (hq : q ∈ d.discover t roots)
    (hclimb : p.climb = q.climb) (h : t.resolve p = t.resolve q) : p = q :=
  (isCanonical_of_mem_discover ht.toWellFormed hp).eq_of_destination
    (isCanonical_of_mem_discover ht.toWellFormed hq) hclimb ((resolve_eq_iff ht hp hq).1 h)

/-- **A discovered path climbs as its root does.** -/
theorem exists_climb_eq {p : Path} (h : p ∈ d.discover t roots) :
    ∃ root ∈ roots, p.climb = (t.absolute root).climb := by
  obtain ⟨root, hroot, hp⟩ := (mem_discover_iff ht.toWellFormed).1 h
  obtain ⟨_, place, _, ⟨_, rfl⟩ | ⟨_, way, hway, rfl⟩⟩ := mem_filesOf_iff.1 hp
  · exact ⟨root, hroot, rfl⟩
  · obtain ⟨⟨bytes, hentry⟩, hreaches⟩ := mem_walk_iff.1 hway
    have hnames : ∀ name ∈ way, IsName name := by
      intro name hname
      exact (ht.names _ hentry).2 name (List.mem_append_right place hname)
    have hcanonical := t.isCanonical_absolute root
    exact ⟨root, hroot, hcanonical.climb_join (ne_nil_of_reaches hreaches) hnames⟩

/-- **Under roots that climb alike no file is discovered twice.** -/
theorem nodup_map_resolve (h : t.ClimbAlike roots) :
    ((d.discover t roots).map t.resolve).Nodup := by
  have hnodup := (Linter.Distinct.of_increasing (increasing_discover d t roots)).nodup
  refine hnodup.map_on ?_
  intro p hp q hq hresolve
  obtain ⟨root, hroot, hclimb⟩ := exists_climb_eq ht hp
  obtain ⟨other, hother, hclimb'⟩ := exists_climb_eq ht hq
  have halike : p.climb = q.climb := by
    rw [hclimb, hclimb', h root hroot other hother]
  exact eq_of_resolve_eq ht hp hq halike hresolve

/-- **Under such roots the files that count are counted once.** -/
theorem countP_discover (h : t.ClimbAlike roots) (counts : Path → Bool) :
    (d.discover t roots).countP counts =
      {place | ∃ p ∈ d.discover t roots, t.resolve p = .ok place ∧ counts p}.ncard := by
  have hresolve : ((d.discover t roots).filter counts).map t.resolve
      = (((d.discover t roots).filter counts).map destination).map .ok := by
    rw [List.map_map]
    refine List.map_congr_left ?_
    intro p hp
    exact resolve_of_mem_discover ht (List.mem_of_mem_filter hp)
  have hnodup : (((d.discover t roots).filter counts).map destination).Nodup := by
    have hall : ((d.discover t roots).map t.resolve).Nodup := nodup_map_resolve ht h
    have hcounted : (((d.discover t roots).filter counts).map t.resolve).Nodup :=
      hall.sublist (List.filter_sublist.map t.resolve)
    rw [hresolve] at hcounted
    exact hcounted.of_map
  have hplaces : {place | ∃ p ∈ d.discover t roots, t.resolve p = .ok place ∧ counts p}
      = (((d.discover t roots).filter counts).map destination).toFinset := by
    ext place
    rw [Finset.mem_coe, List.mem_toFinset, List.mem_map]
    constructor
    · rintro ⟨p, hp, hplace, hcounts⟩
      rw [resolve_of_mem_discover ht hp] at hplace
      exact ⟨p, List.mem_filter.2 ⟨hp, hcounts⟩, Except.ok.inj hplace⟩
    · rintro ⟨p, hp, rfl⟩
      obtain ⟨hp, hcounts⟩ := List.mem_filter.1 hp
      exact ⟨p, hp, resolve_of_mem_discover ht hp, hcounts⟩
  rw [hplaces, Set.ncard_coe_finset, List.toFinset_card_of_nodup hnodup, List.length_map,
    List.countP_eq_length_filter]

end Plain

end Discovery

namespace FileTree

theorem climb_absolute (t : FileTree) (p : Path) :
    (t.absolute p).climb = climbOf (t.workingPath.join p).steps := by
  rw [absolute, Path.absolute_eq t.isAbsolute_workingPath, climb, steps_ofComponents]
  intro c hc
  exact isStep_of_mem_steps hc

/-- The path of a place is written from names. -/
theorem pathOf_eq (place : Place) : pathOf place = ofComponents (.root :: place.map .name) := by
  have htexts : (place.map Component.name).map Component.text = place := by
    rw [List.map_map]
    exact List.map_id'' (fun _ => rfl) place
  refine eq_of_text ?_
  rw [text_ofComponents, htexts]
  rfl

/-- **Roots without a `..` climb alike**: they do not climb. -/
theorem WellFormed.climbAlike {t : FileTree} (ht : t.WellFormed)
    (hworking : t.get? t.workingDirectory = some .directory) {roots : List Path}
    (h : ∀ root ∈ roots, .parent ∉ root.components) : t.ClimbAlike roots := by
  have hsteps : t.workingPath.steps = t.workingDirectory.map .name := by
    rw [workingPath, pathOf_eq, steps_ofComponents]
    intro c hc
    obtain ⟨name, hname, rfl⟩ := List.mem_map.1 hc
    exact ht.isName hworking name hname
  have hclimb : ∀ root ∈ roots, (t.absolute root).climb = [] := by
    intro root hroot
    obtain ⟨front, hfront, _⟩ := root.exists_front
    have hparent : .parent ∉ root.steps := by
      intro hmem
      exact h root hroot (hfront ▸ List.mem_append_right front hmem)
    rw [climb_absolute, steps_join]
    refine climbOf_eq_nil ?_
    split
    · exact hparent
    · simpa [hsteps] using hparent
  intro root hroot other hother
  rw [hclimb root hroot, hclimb other hother]

end FileTree

/-! ## What is reported -/

/-- The finding lies in the file at a place, whatever path it names that file by. -/
def Violation.isAt (t : FileTree) (place : Place) (v : Violation) : Bool :=
  v.location.file.any fun file => (t.resolve file).toOption == some place

namespace Linter

/-- **A report that takes every file once**, by whatever path the file is given. -/
structure IsReportOnce (linter : Linter) (x : Extractor) (t : FileTree) (files : List Path)
    (r : Report) : Prop where
  /-- As many files are counted as there are files that can be loaded. -/
  filesChecked :
    r.filesChecked = {place | ∃ file ∈ files, t.resolve file = .ok place ∧ x.loads t file}.ncard
  /-- The findings in a file are those of one check. -/
  inFile : ∀ file ∈ files, ∀ place, t.resolve file = .ok place →
    r.violations.filter (·.isAt t place) = linter.findingsIn x t file

variable {linter : Linter} {x : Extractor} {t : FileTree} {roots : List Path} {r : Report}

/-- **A report takes every discovered path once.** -/
theorem report_of_lintPaths (hr : linter.lintPaths x t roots = .ok r) :
    r.violations = Violation.sortAcrossFiles
      (((Discovery.ofSettings linter.config.linter).discover t roots).flatMap
        (linter.findingsIn x t)) ∧
    r.filesChecked =
      ((Discovery.ofSettings linter.config.linter).discover t roots).countP (x.loads t) := by
  rw [lintPaths_eq_ok_iff, lintFiles_eq] at hr
  split at hr
  · cases hr
  · rw [← Except.ok.inj hr]
    exact ⟨rfl, rfl⟩

/-- **Under roots that climb alike every file is taken once.** -/
theorem isReportOnce (ht : t.Plain) (hstamps : ∀ rule ∈ linter.rules, rule.StampsPath)
    (halike : t.ClimbAlike roots) (hr : linter.lintPaths x t roots = .ok r) :
    linter.IsReportOnce x t ((Discovery.ofSettings linter.config.linter).discover t roots) r := by
  obtain ⟨hviolations, hcount⟩ := report_of_lintPaths hr
  refine ⟨hcount.trans (Discovery.countP_discover ht halike _), ?_⟩
  intro file hfile place hplace
  have hdistinct := Distinct.of_increasing (Discovery.increasing_discover
    (Discovery.ofSettings linter.config.linter) t roots)
  obtain ⟨_, hreport⟩ := (lintFiles_eq_ok_iff hstamps hdistinct).1 (lintPaths_eq_ok_iff.1 hr)
  rw [← hreport.inFile file hfile]
  -- what is reported lies in discovered files, and of these only one leads to the place
  refine List.filter_congr ?_
  intro v hv
  rw [hviolations] at hv
  obtain ⟨other, hother, hfound⟩ := List.mem_flatMap.1 (List.mem_mergeSort.1 hv)
  have hlies := file_of_mem_findingsIn hstamps hfound
  rw [Violation.isAt, Violation.isIn, hlies, Bool.eq_iff_iff]
  simp only [Option.any_some, beq_iff_eq, Path.sameSteps_iff]
  constructor
  · intro hat
    have hresolve : t.resolve other = t.resolve file := by
      rw [Discovery.resolve_of_mem_discover ht hother] at hat ⊢
      rw [hplace, Option.some.inj hat]
    rw [List.inj_on_of_nodup_map (Discovery.nodup_map_resolve ht halike) hother hfile hresolve]
  · intro hsame
    rw [hdistinct.eq hother hfile hsame, hplace]
    rfl

end Linter

namespace Discovery

/-- **No file is taken twice under roots that climb alike.**  In a tree without links two discovered
paths lead to one file only if they name the same place when every `..` is taken back with the step
before it, and different ones do so only if they climb in different ways.  A report takes every
discovered path once.  So if all roots climb alike, and they do if none of them has a `..`, then no
two discovered paths lead to the same file, a report takes every file once, and so does a build of
an index. -/
theorem discover_once {t : FileTree} (ht : t.Plain) (d : Discovery) (roots : List Path) :
    (∀ p ∈ d.discover t roots, ∀ q ∈ d.discover t roots,
      (t.resolve p = t.resolve q ↔ p.destination = q.destination) ∧
      (t.resolve p = t.resolve q → p.climb = q.climb → p = q)) ∧
    (∀ (linter : Linter) (x : Extractor) (r : Report), ofSettings linter.config.linter = d →
      linter.lintPaths x t roots = .ok r →
      r.violations.Perm ((d.discover t roots).flatMap (linter.findingsIn x t)) ∧
      r.filesChecked = (d.discover t roots).countP (x.loads t)) ∧
    (t.ClimbAlike roots →
      ((d.discover t roots).map t.resolve).Nodup ∧
      (∀ (linter : Linter) (x : Extractor) (r : Report), ofSettings linter.config.linter = d →
        (∀ rule ∈ linter.rules, rule.StampsPath) → linter.lintPaths x t roots = .ok r →
        linter.IsReportOnce x t (d.discover t roots) r) ∧
      ∀ (b : IndexBuilder) (x : Extractor) (existing : Option DeclarationIndex),
        b.discovery = d → b.roots existing = roots →
        ((b.build x t existing).scanned.map t.resolve).Nodup) ∧
    (t.get? t.workingDirectory = some .directory →
      (∀ root ∈ roots, .parent ∉ root.components) → t.ClimbAlike roots) := by
  refine ⟨?_, ?_, ?_, fun hworking hparent => ht.climbAlike hworking hparent⟩
  · intro p hp q hq
    refine ⟨resolve_eq_iff ht hp hq, ?_⟩
    intro hresolve hclimb
    exact eq_of_resolve_eq ht hp hq hclimb hresolve
  · rintro linter x r rfl hr
    obtain ⟨hviolations, hcount⟩ := Linter.report_of_lintPaths hr
    rw [hviolations]
    exact ⟨List.mergeSort_perm _ _, hcount⟩
  · intro halike
    refine ⟨nodup_map_resolve ht halike, ?_, ?_⟩
    · rintro linter x r rfl hstamps hr
      exact Linter.isReportOnce ht hstamps halike hr
    · rintro b x existing rfl rfl
      rw [IndexBuilder.build_eq]
      exact nodup_map_resolve ht halike

namespace Aliases

/-- A file without a newline at its end, and a directory beside it. -/
def tree : {t : FileTree // t.Plain} where
  val :=
    { entries :=
        [(["a"], .directory), (["a", "c.swift"], .file "let c = 1\n".toUTF8),
          (["b.swift"], .file "let b = 1".toUTF8)] }
  property := by decide +kernel

/-- The rule on the newline at the end of a file. -/
def linter : Linter where
  rules := [TrailingNewline.rule]

/-- What it finds in the file, under one of its paths. -/
def missingNewline (file : Path) : Violation where
  rule := "trailing_newline"
  severity := .medium
  location := { file, line := 2 }
  reason := "File should have a single trailing newline."

theorem stampsPath : ∀ rule ∈ linter.rules, rule.StampsPath := by
  intro rule hrule
  obtain rfl := List.mem_singleton.1 hrule
  exact Catalog.stampsPath_of_mem_rules (by simp [Catalog.rules])

theorem findingsIn_eq {file : Path} {unit : SourceUnit} {violations : List Violation}
    (hload : Swift.extractor.load tree.val file = .ok unit)
    (hkept : linter.rules.flatMap (Linter.kept linter.config unit) = violations)
    (hordered : violations.Pairwise fun v w => (Violation.compareInFile v w).isLE) :
    linter.findingsIn Swift.extractor tree.val file = violations := by
  rw [Linter.findingsIn, hload]
  exact Linter.violations_check_eq hkept hordered

theorem discover_twice : discover {} tree.val [⟨"b.swift"⟩, ⟨"a/../b.swift"⟩]
    = [⟨"/a/../b.swift"⟩, ⟨"/b.swift"⟩] := by
  have hswapped : discover {} tree.val ([⟨"b.swift"⟩] ++ [⟨"a/../b.swift"⟩])
      = discover {} tree.val ([⟨"a/../b.swift"⟩] ++ [⟨"b.swift"⟩]) :=
    discover_append_comm tree.property.toWellFormed
  exact hswapped.trans (discover_eq_of_increasing (by decide +kernel) (by decide +kernel))

theorem findingsIn_back :
    linter.findingsIn Swift.extractor tree.val ⟨"/a/../b.swift"⟩
      = [missingNewline ⟨"/a/../b.swift"⟩] :=
  findingsIn_eq (by rfl) (by decide +kernel) (by decide +kernel)

theorem findingsIn_plain :
    linter.findingsIn Swift.extractor tree.val ⟨"/b.swift"⟩ = [missingNewline ⟨"/b.swift"⟩] :=
  findingsIn_eq (by rfl) (by decide +kernel) (by decide +kernel)

end Aliases

/-- **A step back makes a second path of one file**: the file is discovered, counted and reported
twice. -/
theorem discover_alias :
    discover {} Aliases.tree.val [⟨"b.swift"⟩, ⟨"a/../b.swift"⟩]
      = [⟨"/a/../b.swift"⟩, ⟨"/b.swift"⟩] ∧
    Aliases.tree.val.resolve ⟨"/a/../b.swift"⟩ = .ok ["b.swift"] ∧
    Aliases.tree.val.resolve ⟨"/b.swift"⟩ = .ok ["b.swift"] ∧
    ∃ r, Aliases.linter.lintPaths Swift.extractor Aliases.tree.val
        [⟨"b.swift"⟩, ⟨"a/../b.swift"⟩] = .ok r ∧
      r.filesChecked = 2 ∧
      r.violations =
        [Aliases.missingNewline ⟨"/a/../b.swift"⟩, Aliases.missingNewline ⟨"/b.swift"⟩] := by
  have hdiscover : discover (ofSettings Aliases.linter.config.linter) Aliases.tree.val
      [⟨"b.swift"⟩, ⟨"a/../b.swift"⟩] = [⟨"/a/../b.swift"⟩, ⟨"/b.swift"⟩] := Aliases.discover_twice
  have hincreasing : Increasing [⟨"/a/../b.swift"⟩, (⟨"/b.swift"⟩ : Path)] := by decide +kernel
  obtain ⟨r, hr⟩ :=
    Linter.exists_lintPaths_eq_ok Aliases.linter Swift.extractor
      (hdiscover.trans_ne (List.cons_ne_nil _ _))
  obtain ⟨hviolations, hcount⟩ := Linter.report_of_lintPaths hr
  rw [hdiscover] at hviolations hcount
  rw [Linter.sortAcrossFiles_eq Aliases.stampsPath (List.Perm.refl _) hincreasing] at hviolations
  refine ⟨hdiscover, by decide +kernel, by decide +kernel, r, hr, ?_, ?_⟩
  · rw [hcount]
    decide +kernel
  · rw [hviolations, List.flatMap_cons, List.flatMap_cons, Aliases.findingsIn_back,
      Aliases.findingsIn_plain]
    rfl

/-- Roots that step back from one directory climb alike, and the file is taken once. -/
theorem discover_once_back :
    ∃ r, Aliases.linter.lintPaths Swift.extractor Aliases.tree.val
        [⟨"a/.."⟩, ⟨"a/../b.swift"⟩] = .ok r ∧
      r.filesChecked = 2 ∧
      r.violations.filter (·.isAt Aliases.tree.val ["b.swift"])
        = [Aliases.missingNewline ⟨"/a/../b.swift"⟩] := by
  have hdiscover : discover (ofSettings Aliases.linter.config.linter) Aliases.tree.val
      [⟨"a/.."⟩, ⟨"a/../b.swift"⟩] = [⟨"/a/../a/c.swift"⟩, ⟨"/a/../b.swift"⟩] := by
    have hfiles : [⟨"a/.."⟩, ⟨"a/../b.swift"⟩].flatMap (filesOf {} Aliases.tree.val)
        = [⟨"/a/../a/c.swift"⟩, ⟨"/a/../b.swift"⟩, ⟨"/a/../b.swift"⟩] := by decide +kernel
    exact (discover_eq_dropRepeats hfiles (by decide +kernel)).trans (by decide +kernel)
  have halike : Aliases.tree.val.ClimbAlike [⟨"a/.."⟩, ⟨"a/../b.swift"⟩] := by
    unfold FileTree.ClimbAlike
    decide +kernel
  obtain ⟨_, hreports, honce, _⟩ :=
    discover_once Aliases.tree.property (ofSettings Aliases.linter.config.linter)
      [⟨"a/.."⟩, ⟨"a/../b.swift"⟩]
  obtain ⟨r, hr⟩ :=
    Linter.exists_lintPaths_eq_ok Aliases.linter Swift.extractor
      (hdiscover.trans_ne (List.cons_ne_nil _ _))
  refine ⟨r, hr, ?_, ?_⟩
  · rw [(hreports _ _ r rfl hr).2, hdiscover]
    decide +kernel
  · have hinFile := ((honce halike).2.1 _ _ r rfl Aliases.stampsPath hr).inFile
    rw [hinFile ⟨"/a/../b.swift"⟩ (by simp [hdiscover]) ["b.swift"] (by decide +kernel)]
    exact Aliases.findingsIn_back

end Discovery

end SwiftStyle
