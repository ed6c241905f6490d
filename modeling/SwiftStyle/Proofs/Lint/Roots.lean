import SwiftStyle.Proofs.Files.Discovery
import SwiftStyle.Proofs.Lint.Files

/-!
# Proofs/Lint/Roots — the files under a list of roots

What a root *yields* is itself or what a walk of it comes to (`Yields`), and discovery is the sorted
union of what the roots yield, cut down to the accepted files (`mem_discover_iff_yields`).  Exclude
patterns only cut down further (`discover_exclude`), and roots count through their absolute forms,
which do not see how they are spelled (`discover_eq_of_sameRoots`).
-/

namespace SwiftStyle

/-- **The same roots**, in any order, any number of times and in any spelling. -/
def FileTree.SameRoots (t : FileTree) (roots roots' : List Path) : Prop :=
  (∀ p ∈ roots, ∃ q ∈ roots', Path.Spelling t.workingPath p q) ∧
    ∀ q ∈ roots', ∃ p ∈ roots, Path.Spelling t.workingPath p q

namespace Discovery

/-- **What a root yields**: its absolute form if it is a file, and the files that a walk of it comes
to if it is a directory. -/
def Yields (d : Discovery) (t : FileTree) (root p : Path) : Prop :=
  t.isFile (t.absolute root) = true ∧ p = t.absolute root ∨
    ∃ place, t.resolve (t.absolute root) = .ok place ∧ t.get? place = some .directory ∧
      ∃ way ∈ d.walk t place, p = (t.absolute root).join ⟨"/".intercalate way⟩

/-- **The files of a root** are the accepted ones that it yields. -/
theorem mem_filesOf_iff_yields {d : Discovery} {t : FileTree} {root p : Path} :
    p ∈ d.filesOf t root ↔ d.accepts p = true ∧ d.Yields t root p := by
  rw [mem_filesOf_iff, Yields, FileTree.isFile_iff]
  refine and_congr_right fun _ => ?_
  constructor
  · rintro ⟨place, hplace, ⟨⟨bytes, hfile⟩, rfl⟩ | ⟨hdirectory, hway⟩⟩
    · exact .inl ⟨⟨place, bytes, hplace, hfile⟩, rfl⟩
    · exact .inr ⟨place, hplace, hdirectory, hway⟩
  · rintro (⟨⟨place, bytes, hplace, hfile⟩, rfl⟩ | ⟨place, hplace, hdirectory, hway⟩)
    · exact ⟨place, hplace, .inl ⟨⟨bytes, hfile⟩, rfl⟩⟩
    · exact ⟨place, hplace, .inr ⟨hdirectory, hway⟩⟩

/-- Accepted are paths with the extension that no pattern excludes. -/
theorem accepts_iff {d : Discovery} {p : Path} : d.accepts p = true ↔
    p.extension? = some d.extension ∧
      ∀ pattern ∈ d.exclude, ExcludePattern.excludes pattern p.text = false := by
  rw [accepts, isExcluded]
  simp

/-- An accepted path has a name at its end, so it is not the root. -/
theorem components_ne_root_of_accepts {d : Discovery} {p : Path} (h : d.accepts p = true) :
    p.components ≠ [.root] := by
  intro hroot
  have hnone : p.extension? = none := by
    rw [Path.extension?, Path.fileName?, hroot]
    rfl
  rw [(accepts_iff.1 h).1] at hnone
  cases hnone

/-! ## Exclude patterns -/

/-- A walk does not ask for exclude patterns. -/
theorem reaches_exclude (d : Discovery) (exclude : List String) (t : FileTree)
    (root way : Place) : reaches { d with exclude } t root way = d.reaches t root way := by
  fun_induction reaches d t root way with
  | case1 => rfl
  | case2 => rfl
  | case3 root name way _ ih =>
    rw [reaches, ih]
    · rfl
    · assumption

theorem yields_exclude (d : Discovery) (exclude : List String) (t : FileTree) (root p : Path) :
    Yields { d with exclude } t root p ↔ d.Yields t root p := by
  simp only [Yields, mem_walk_iff, reaches_exclude]

section WellFormed

variable {d : Discovery} {t : FileTree} (ht : t.WellFormed)
include ht

/-- **What is discovered**: accepted files that some root yields. -/
theorem mem_discover_iff_yields {roots : List Path} {p : Path} : p ∈ d.discover t roots ↔
    d.accepts p = true ∧ ∃ root ∈ roots, d.Yields t root p := by
  simp only [mem_discover_iff ht, mem_filesOf_iff_yields]
  constructor
  · rintro ⟨root, hroot, haccepts, hyields⟩
    exact ⟨haccepts, root, hroot, hyields⟩
  · rintro ⟨haccepts, root, hroot, hyields⟩
    exact ⟨root, hroot, haccepts, hyields⟩

/-- **More patterns leave out what they exclude**, and nothing else changes. -/
theorem discover_exclude {roots : List Path} {patterns exclude : List String}
    (h : ∀ pattern, pattern ∈ exclude ↔ pattern ∈ d.exclude ∨ pattern ∈ patterns) :
    discover { d with exclude } t roots = (d.discover t roots).filter fun p =>
      patterns.all fun pattern => !ExcludePattern.excludes pattern p.text := by
  refine (increasing_discover _ t roots).eq_of_mem_iff
    ((increasing_discover d t roots).filter _) fun p => ?_
  rw [List.mem_filter, mem_discover_iff_yields ht, mem_discover_iff_yields ht, accepts_iff,
    accepts_iff]
  simp only [yields_exclude, h, List.all_eq_true, Bool.not_eq_true', or_imp, forall_and]
  tauto

/-- **How the roots are written does not count.** -/
theorem discover_eq_of_sameRoots {roots roots' : List Path} (h : t.SameRoots roots roots') :
    d.discover t roots' = d.discover t roots := by
  have habsolute : ∀ {p q}, Path.Spelling t.workingPath p q → t.absolute p = t.absolute q :=
    fun hspelling => hspelling.absolute_eq t.isAbsolute_workingPath
  refine discover_congr ht fun p => ⟨fun hp => ?_, fun hp => ?_⟩
  · obtain ⟨q, hq, rfl⟩ := List.mem_map.1 hp
    obtain ⟨root, hroot, hspelling⟩ := h.2 q hq
    exact List.mem_map.2 ⟨root, hroot, habsolute hspelling⟩
  · obtain ⟨root, hroot, rfl⟩ := List.mem_map.1 hp
    obtain ⟨q, hq, hspelling⟩ := h.1 root hroot
    exact List.mem_map.2 ⟨q, hq, (habsolute hspelling).symm⟩

/-- A discovered path is absolute, and has no empty piece and no `.` after its first separator. -/
theorem tidy_of_mem_discover {roots : List Path} {p : Path} (h : p ∈ d.discover t roots) :
    p.isAbsolute = true ∧ ∀ piece ∈ p.pieces.tail, piece ≠ [] ∧ piece ≠ ['.'] := by
  have hcanonical := isCanonical_of_mem_discover ht h
  exact ⟨hcanonical.isAbsolute, hcanonical.of_mem_tail_pieces
    (components_ne_root_of_accepts ((mem_discover_iff_yields ht).1 h).1)⟩

end WellFormed

end Discovery

/-! ## Linting what is discovered -/

namespace Linter

/-- **There is no report only when nothing is discovered.** -/
theorem lintPaths_eq_error_iff {linter : Linter} {x : Extractor} {t : FileTree}
    {roots : List Path} {e : LintError} : linter.lintPaths x t roots = .error e ↔
      (Discovery.ofSettings linter.config.linter).discover t roots = [] ∧ e = .noFiles roots := by
  rw [lintPaths]
  split
  · next hnone => simp [List.isEmpty_iff.1 hnone, eq_comm]
  · next hsome =>
    have hne : (Discovery.ofSettings linter.config.linter).discover t roots ≠ [] := by
      simpa using hsome
    simp [lintFiles_eq_error_iff, hne]

theorem lintPaths_eq_ok_iff {linter : Linter} {x : Extractor} {t : FileTree} {roots : List Path}
    {r : Report} : linter.lintPaths x t roots = .ok r ↔
      linter.lintFiles x t ((Discovery.ofSettings linter.config.linter).discover t roots)
        = .ok r := by
  rw [lintPaths]
  split
  · next hnone => simp [List.isEmpty_iff.1 hnone, lintFiles_eq]
  · rfl

/-- **When something is discovered there is a report.** -/
theorem exists_lintPaths_eq_ok (linter : Linter) (x : Extractor) {t : FileTree} {roots : List Path}
    (h : (Discovery.ofSettings linter.config.linter).discover t roots ≠ []) :
    ∃ r, linter.lintPaths x t roots = .ok r := by
  obtain ⟨r, hr, _⟩ := exists_lintFiles_of_ne_nil linter x t h
  exact ⟨r, lintPaths_eq_ok_iff.2 hr⟩

end Linter

/-- **Discovery is the sorted union of its roots, filtered.**  In a tree without links the paths
discovered are strictly increasing, absolute, and without `.` and repeated separators; they are
those with the extension that no pattern excludes and that some root yields.  So two lists of roots
together give the union, respelled roots the same, and further patterns what is left without the
paths that they exclude; and there is no report of the roots only when nothing is discovered. -/
theorem Discovery.discover_exact {t : FileTree} (ht : t.WellFormed) (d : Discovery)
    (roots : List Path) :
    Increasing (d.discover t roots) ∧
    (∀ p ∈ d.discover t roots,
      p.isAbsolute = true ∧ ∀ piece ∈ p.pieces.tail, piece ≠ [] ∧ piece ≠ ['.']) ∧
    (∀ p, p ∈ d.discover t roots ↔ p.extension? = some d.extension ∧
      (∀ pattern ∈ d.exclude, ExcludePattern.excludes pattern p.text = false) ∧
      ∃ root ∈ roots, d.Yields t root p) ∧
    (∀ roots', Increasing (d.discover t (roots ++ roots')) ∧
      ∀ p, p ∈ d.discover t (roots ++ roots') ↔
        p ∈ d.discover t roots ∨ p ∈ d.discover t roots') ∧
    (∀ roots', t.SameRoots roots roots' → d.discover t roots' = d.discover t roots) ∧
    (∀ patterns exclude : List String,
      (∀ pattern, pattern ∈ exclude ↔ pattern ∈ d.exclude ∨ pattern ∈ patterns) →
      discover { d with exclude } t roots = (d.discover t roots).filter fun p =>
        patterns.all fun pattern => !ExcludePattern.excludes pattern p.text) ∧
    ∀ (linter : Linter) (x : Extractor), ofSettings linter.config.linter = d →
      (∀ e, linter.lintPaths x t roots = .error e ↔
        d.discover t roots = [] ∧ e = .noFiles roots) ∧
      ∀ roots' r, t.SameRoots roots roots' →
        (linter.lintPaths x t roots' = .ok r ↔ linter.lintPaths x t roots = .ok r) := by
  refine ⟨increasing_discover d t roots, fun _ => tidy_of_mem_discover ht, fun p => ?_,
    fun roots' => ⟨increasing_discover d t _, fun _ => mem_discover_append ht⟩,
    fun _ => discover_eq_of_sameRoots ht, fun _ _ => discover_exclude ht, ?_⟩
  · rw [mem_discover_iff_yields ht, accepts_iff, and_assoc]
  · rintro linter x rfl
    refine ⟨fun _ => Linter.lintPaths_eq_error_iff, fun roots' r hsame => ?_⟩
    rw [Linter.lintPaths_eq_ok_iff, Linter.lintPaths_eq_ok_iff, discover_eq_of_sameRoots ht hsame]

namespace Discovery

namespace Respelled

/-- A directory with a generated file, a hidden one and a note in it. -/
def tree : {t : FileTree // t.WellFormed} where
  val :=
    { entries :=
        [(["w"], .directory), (["w", "a"], .directory), (["w", "a", "b.swift"], .file ⟨#[]⟩),
          (["w", "a.b.swift"], .file ⟨#[]⟩), (["w", "gen"], .directory),
          (["w", "gen", "x.swift"], .file ⟨#[]⟩), (["w", "notes.md"], .file ⟨#[]⟩),
          (["w", ".git.swift"], .file ⟨#[]⟩)]
      workingDirectory := ["w"] }
  property := by decide +kernel

/-- A directory and the one around it. -/
def roots : List Path := [⟨"a"⟩, ⟨"."⟩]

theorem sameRoots : tree.val.SameRoots roots [⟨"./"⟩, ⟨"/w/a"⟩, ⟨"./a"⟩] := by
  have hcurrent : Path.Spelling tree.val.workingPath ⟨"."⟩ ⟨"./"⟩ :=
    (Path.Spelling.trailing ⟨"."⟩ (by decide)).symm
  have habsolute : Path.Spelling tree.val.workingPath ⟨"a"⟩ ⟨"/w/a"⟩ :=
    (Path.Spelling.seenFrom ⟨"a"⟩).symm
  have hleading : Path.Spelling tree.val.workingPath ⟨"a"⟩ ⟨"./a"⟩ :=
    (Path.Spelling.leading ⟨"a"⟩ (by decide)).symm
  refine ⟨fun p hp => ?_, fun q hq => ?_⟩
  · simp only [roots, List.mem_cons, List.not_mem_nil, or_false] at hp
    rcases hp with rfl | rfl
    · exact ⟨_, by simp, habsolute⟩
    · exact ⟨_, by simp, hcurrent⟩
  · simp only [List.mem_cons, List.not_mem_nil, or_false] at hq
    rcases hq with rfl | rfl | rfl
    · exact ⟨_, by simp [roots], hcurrent⟩
    · exact ⟨_, by simp [roots], habsolute⟩
    · exact ⟨_, by simp [roots], hleading⟩

theorem discover_eq : discover {} tree.val roots
    = [⟨"/w/a/b.swift"⟩, ⟨"/w/a.b.swift"⟩, ⟨"/w/gen/x.swift"⟩] := by
  have hfiles : roots.flatMap (filesOf {} tree.val)
      = [⟨"/w/a/b.swift"⟩, ⟨"/w/a/b.swift"⟩, ⟨"/w/a.b.swift"⟩, ⟨"/w/gen/x.swift"⟩] := by
    decide +kernel
  rw [discover_eq_dropRepeats hfiles (by decide +kernel)]
  decide +kernel

end Respelled

/-- Files that are found twice are listed once, whatever the roots are called; a pattern leaves out
what is generated. -/
theorem discover_exact_respelled :
    discover {} Respelled.tree.val [⟨"./"⟩, ⟨"/w/a"⟩, ⟨"./a"⟩]
      = [⟨"/w/a/b.swift"⟩, ⟨"/w/a.b.swift"⟩, ⟨"/w/gen/x.swift"⟩] ∧
    discover { exclude := ["**/gen/**"] } Respelled.tree.val Respelled.roots
      = [⟨"/w/a/b.swift"⟩, ⟨"/w/a.b.swift"⟩] := by
  obtain ⟨_, _, _, _, hrespelled, hexclude, _⟩ :=
    discover_exact Respelled.tree.property {} Respelled.roots
  refine ⟨(hrespelled _ Respelled.sameRoots).trans Respelled.discover_eq, ?_⟩
  rw [hexclude ["**/gen/**"] ["**/gen/**"] (by simp), Respelled.discover_eq]
  decide +kernel

end Discovery

end SwiftStyle
