import SwiftStyle.Index.Build
import SwiftStyle.Proofs.Files.Discovery
import SwiftStyle.Proofs.Index.Entries
import SwiftStyle.Proofs.Source.Structure

/-!
# Proofs/Index/Build — what a build records

A name that some scanned file declares is answered with the last file that declares it, and every
other name as before (`get?_merge_pairs`, `get?_merge_pairs_of_not`).  `IsExact` says this of a
whole outcome, and it leaves no choice (`IsExact.unique`); the roots count only through their
absolute forms (`build_congr`).
-/

open Std

namespace SwiftStyle

namespace Extractor

/-- A file can be loaded and declares a name with a kind. -/
def Declares (x : Extractor) (t : FileTree) (kind : NodeKind) (name : String) (file : Path) :
    Prop :=
  ∃ unit, x.load t file = .ok unit ∧ unit.Declares kind name

end Extractor

namespace IndexBuilder

variable {b : IndexBuilder} {x : Extractor} {t : FileTree}

/-! ## One file -/

/-- The pairs that a file adds. -/
def pairs (b : IndexBuilder) (x : Extractor) (t : FileTree) (file : Path) :
    List (String × String) :=
  found file (b.scan x t file)

/-- **A file adds pairs for the names that it declares and for no others.** -/
theorem mem_pairs_iff {file : Path} {name path : String} :
    (name, path) ∈ b.pairs x t file ↔
      x.Declares t b.trackedKind name file ∧ path = file.text := by
  rw [pairs, scan, Extractor.Declares]
  cases x.load t file with
  | error e => simp [found, Except.map]
  | ok unit => simp [found, Except.map, SourceUnit.mem_trackedNames_iff, eq_comm]

/-- **A file that declares a name takes it over.** -/
theorem get?_merge_pairs_self {i : DeclarationIndex} {file : Path} {name : String}
    (h : x.Declares t b.trackedKind name file) :
    (i.merge (b.pairs x t file)).get? name = some file.text := by
  obtain ⟨unit, hload, hname⟩ := h
  rw [pairs, scan, hload]
  exact DeclarationIndex.get?_merge_map (SourceUnit.mem_trackedNames_iff.2 hname)

/-! ## All files -/

/-- **A name that no file declares keeps its answer.** -/
theorem get?_merge_pairs_of_not {i : DeclarationIndex} {files : List Path} {name : String}
    (h : ∀ file ∈ files, ¬x.Declares t b.trackedKind name file) :
    (i.merge (files.flatMap (b.pairs x t))).get? name = i.get? name := by
  refine DeclarationIndex.get?_merge_of_forall_ne ?_
  rintro ⟨other, path⟩ hpair rfl
  obtain ⟨file, hfile, hpair⟩ := List.mem_flatMap.1 hpair
  exact h file hfile (mem_pairs_iff.1 hpair).1

/-- **A name is answered with the last file that declares it.** -/
theorem get?_merge_pairs {i : DeclarationIndex} {files : List Path} (hfiles : Increasing files)
    {name : String} {file : Path} (h : IsLast files (x.Declares t b.trackedKind name) file) :
    (i.merge (files.flatMap (b.pairs x t))).get? name = some file.text := by
  obtain ⟨before, after, rfl⟩ := List.append_of_mem h.mem
  -- nothing after the last file speaks of the name
  have hafter : ∀ other ∈ after, ¬x.Declares t b.trackedKind name other := by
    intro other hother hname
    have hlt : compare file other = .lt :=
      List.rel_of_pairwise_cons (List.pairwise_append.1 hfiles).2.1 hother
    have hle := h.above other (by simp [hother]) hname
    exact OrientedCmp.not_isLE_of_lt hlt hle
  rw [List.flatMap_append, List.flatMap_cons, DeclarationIndex.merge_append,
    DeclarationIndex.merge_append, get?_merge_pairs_of_not hafter, get?_merge_pairs_self h.holds]

/-! ## A whole build -/

theorem build_eq (existing : Option DeclarationIndex) :
    b.build x t existing =
      { index := (existing.getD .empty).merge
          ((b.discovery.discover t (b.roots existing)).flatMap (b.pairs x t))
        scanned := b.discovery.discover t (b.roots existing)
        fullRescan := existing.isNone
        diagnostics := (b.discovery.discover t (b.roots existing)).filterMap fun file =>
          diagnostic? file (b.scan x t file) } := by
  rw [build, List.flatMap_map, List.filterMap_map]
  rfl

theorem increasing_scanned (existing : Option DeclarationIndex) :
    Increasing (b.build x t existing).scanned := Discovery.increasing_discover _ _ _

/-- **A build answers with the last scanned file that declares a name.** -/
theorem get?_build {existing : Option DeclarationIndex} {name : String} {file : Path}
    (h : IsLast (b.build x t existing).scanned (x.Declares t b.trackedKind name) file) :
    (b.build x t existing).index.get? name = some file.text := by
  rw [build_eq] at h ⊢
  exact get?_merge_pairs (Discovery.increasing_discover _ _ _) h

/-- **A build answers as before for a name that no scanned file declares.** -/
theorem get?_build_of_not {existing : Option DeclarationIndex} {name : String}
    (h : ∀ file ∈ (b.build x t existing).scanned, ¬x.Declares t b.trackedKind name file) :
    (b.build x t existing).index.get? name = existing.bind (·.get? name) := by
  rw [build_eq] at h ⊢
  have hkept := get?_merge_pairs_of_not (i := existing.getD .empty) h
  cases existing with
  | none => exact hkept
  | some i => exact hkept

/-- **What a build must give back**, on top of what there was. -/
structure IsExact (b : IndexBuilder) (x : Extractor) (t : FileTree)
    (existing : Option DeclarationIndex) (o : IndexOutcome) : Prop where
  /-- Scanned are the files of the changed roots, and those of the fallback roots exactly when
  there is no index. -/
  mem_scanned : ∀ file, file ∈ o.scanned ↔ file ∈ b.discovery.discover t b.changed ∨
    existing = none ∧ file ∈ b.discovery.discover t b.fallback
  increasing : Increasing o.scanned
  fullRescan : o.fullRescan = true ↔ existing = none
  /-- The greatest file that declares a name wins. -/
  declared : ∀ name, (∃ file ∈ o.scanned, x.Declares t b.trackedKind name file) →
    ∃ file, IsLast o.scanned (x.Declares t b.trackedKind name) file ∧
      o.index.get? name = some file.text
  undeclared : ∀ name, (∀ file ∈ o.scanned, ¬x.Declares t b.trackedKind name file) →
    o.index.get? name = existing.bind (·.get? name)
  /-- One diagnostic for each file that cannot be loaded, in the order of the files. -/
  diagnostics : o.diagnostics = o.scanned.filterMap fun file =>
    match x.load t file with
    | .ok _ => none
    | .error e => some ⟨file.text, e.message⟩

/-- **Exactness leaves no choice.** -/
theorem IsExact.unique {existing : Option DeclarationIndex} {o o' : IndexOutcome}
    (h : b.IsExact x t existing o) (h' : b.IsExact x t existing o') : o = o' := by
  have hscanned : o.scanned = o'.scanned :=
    h.increasing.eq_of_mem_iff h'.increasing fun file =>
      (h.mem_scanned file).trans (h'.mem_scanned file).symm
  have hrescan : o.fullRescan = o'.fullRescan :=
    Bool.eq_iff_iff.2 (h.fullRescan.trans h'.fullRescan.symm)
  have hindex : o.index = o'.index := by
    refine DeclarationIndex.ext fun name => ?_
    rcases h.increasing.isLast_or_forall_not (x.Declares t b.trackedKind name) with
      ⟨file, hfile⟩ | hnone
    · have hname : ∃ file ∈ o.scanned, x.Declares t b.trackedKind name file :=
        ⟨file, hfile.mem, hfile.holds⟩
      obtain ⟨last, hlast, hget⟩ := h.declared name hname
      obtain ⟨last', hlast', hget'⟩ := h'.declared name (hscanned ▸ hname)
      rw [hget, hget', hlast.unique h.increasing (hscanned ▸ hlast')]
    · rw [h.undeclared name hnone, h'.undeclared name (hscanned ▸ hnone)]
  have hdiagnostics : o.diagnostics = o'.diagnostics := by
    rw [h.diagnostics, h'.diagnostics, hscanned]
  obtain ⟨_, _, _, _⟩ := o
  obtain ⟨_, _, _, _⟩ := o'
  simp_all

/-- Where a build looks for files. -/
theorem mem_scanned_iff (ht : t.WellFormed) {existing : Option DeclarationIndex} {file : Path} :
    file ∈ (b.build x t existing).scanned ↔ file ∈ b.discovery.discover t b.changed ∨
      existing = none ∧ file ∈ b.discovery.discover t b.fallback := by
  rw [build_eq]
  cases existing with
  | none => simp [roots, Discovery.mem_discover_append ht]
  | some i => simp [roots]

/-- **A build is exact.** -/
theorem isExact_build (ht : t.WellFormed) (existing : Option DeclarationIndex) :
    b.IsExact x t existing (b.build x t existing) where
  mem_scanned _ := mem_scanned_iff ht
  increasing := increasing_scanned existing
  fullRescan := by simp [build_eq]
  declared name hname := by
    obtain ⟨file, hlast⟩ := (increasing_scanned existing).exists_isLast hname
    exact ⟨file, hlast, get?_build hlast⟩
  undeclared _ hnone := get?_build_of_not hnone
  diagnostics := by
    rw [build_eq]
    refine List.filterMap_congr fun file _ => ?_
    rw [scan]
    cases x.load t file <;> rfl

/-- **A build sees of its roots only which absolute forms they have.** -/
theorem build_congr (ht : t.WellFormed) {b' : IndexBuilder}
    (hdiscovery : b'.discovery = b.discovery) (hkind : b'.trackedKind = b.trackedKind)
    (hchanged : ∀ p, p ∈ b'.changed.map t.absolute ↔ p ∈ b.changed.map t.absolute)
    (hfallback : ∀ p, p ∈ b'.fallback.map t.absolute ↔ p ∈ b.fallback.map t.absolute)
    (existing : Option DeclarationIndex) : b'.build x t existing = b.build x t existing := by
  have hroots : b.discovery.discover t (b'.roots existing)
      = b.discovery.discover t (b.roots existing) := by
    refine Discovery.discover_congr ht fun p => ?_
    cases existing with
    | none => simp only [roots, Option.isNone_none, if_true, List.map_append, List.mem_append,
        hchanged, hfallback]
    | some i => exact hchanged p
  have hscan : b'.scan x t = b.scan x t := by
    funext file
    rw [scan, scan, hkind]
  have hpairs : b'.pairs x t = b.pairs x t := by
    funext file
    rw [pairs, pairs, hscan]
  rw [build_eq, build_eq, hdiscovery, hroots, hscan, hpairs]

/-! ## Two files that declare one name -/

namespace Conflict

/-- Two files with the same text, one in a directory, and a file that is no text. -/
def tree : {t : FileTree // t.WellFormed} where
  val :=
    { entries :=
        [(["a"], .directory), (["a", "b.swift"], .file ⟨#[80]⟩), (["a.b.swift"], .file ⟨#[80]⟩),
          (["z.swift"], .file ⟨#[255]⟩)]
      workingDirectory := ["a"] }
  property := by decide +kernel

/-- A protocol with the text as its name, inside something else. -/
def extractor : Extractor where
  extract text := .ok (Node.fileRoot 1 [.mk .other none 0 1 [.mk .protocol (some text) 0 1 []]])

/-- The directory has changed; without an index everything is looked at. -/
def builder : IndexBuilder where
  changed := [⟨"."⟩]
  fallback := [⟨"/"⟩]

/-- The same, written differently. -/
def respelled : IndexBuilder where
  changed := [⟨"/a//"⟩, ⟨"./."⟩]
  fallback := [⟨"//"⟩]

theorem discover_eq :
    builder.discovery.discover tree.val (builder.roots none)
      = [⟨"/a/b.swift"⟩, ⟨"/a.b.swift"⟩, ⟨"/z.swift"⟩] := by
  have hfiles : (builder.roots none).flatMap (builder.discovery.filesOf tree.val)
      = [⟨"/a/b.swift"⟩, ⟨"/a/b.swift"⟩, ⟨"/a.b.swift"⟩, ⟨"/z.swift"⟩] := by decide +kernel
  rw [Discovery.discover_eq_dropRepeats hfiles (by decide +kernel)]
  decide +kernel

end Conflict

/-! ## The outcome of a build -/

/-- **A build is exact, and blind to how its roots are written.**  Its outcome is the one that
`IsExact` describes; it is the same for all orders, repetitions and spellings of the roots, because
the absolute form does not see a spelling. -/
theorem build_exact (ht : t.WellFormed) (existing : Option DeclarationIndex) :
    (∀ o, o = b.build x t existing ↔ b.IsExact x t existing o) ∧
    (∀ b' : IndexBuilder, b'.discovery = b.discovery → b'.trackedKind = b.trackedKind →
      (∀ p, p ∈ b'.changed.map t.absolute ↔ p ∈ b.changed.map t.absolute) →
      (∀ p, p ∈ b'.fallback.map t.absolute ↔ p ∈ b.fallback.map t.absolute) →
      b'.build x t existing = b.build x t existing) ∧
    (∀ p q, Path.Spelling t.workingPath p q → t.absolute p = t.absolute q) :=
  ⟨fun _ => ⟨fun h => h ▸ isExact_build ht existing, fun h => h.unique (isExact_build ht existing)⟩,
    fun _ hdiscovery hkind hchanged hfallback =>
      build_congr ht hdiscovery hkind hchanged hfallback existing,
    fun _ _ h => h.absolute_eq t.isAbsolute_workingPath⟩

/-- Of two files the one that comes later as a path wins, although its text comes first; writing the
roots differently changes nothing. -/
theorem build_exact_conflict :
    Conflict.builder.IsExact Conflict.extractor Conflict.tree.val none
      { index := .ofList [("P", "/a.b.swift")]
        scanned := [⟨"/a/b.swift"⟩, ⟨"/a.b.swift"⟩, ⟨"/z.swift"⟩]
        fullRescan := true
        diagnostics := [⟨"/z.swift", "/z.swift is not valid UTF-8"⟩] } ∧
    Conflict.respelled.build Conflict.extractor Conflict.tree.val none
      = Conflict.builder.build Conflict.extractor Conflict.tree.val none := by
  have hexact := build_exact (b := Conflict.builder) (x := Conflict.extractor)
    Conflict.tree.property none
  have hchanged : Conflict.builder.changed.map Conflict.tree.val.absolute = [⟨"/a"⟩] := by
    decide +kernel
  have hrespelled : Conflict.respelled.changed.map Conflict.tree.val.absolute
      = [⟨"/a"⟩, ⟨"/a"⟩] := by decide +kernel
  have hfallback : Conflict.respelled.fallback.map Conflict.tree.val.absolute
      = Conflict.builder.fallback.map Conflict.tree.val.absolute := by decide +kernel
  refine ⟨(hexact.1 _).1 ?_, hexact.2.1 Conflict.respelled rfl rfl (fun p => ?_) (fun p => ?_)⟩
  · rw [build, Conflict.discover_eq]
    simp only [IndexOutcome.mk.injEq]
    decide +kernel
  · rw [hchanged, hrespelled]
    simp
  · rw [hfallback]

end IndexBuilder

end SwiftStyle
