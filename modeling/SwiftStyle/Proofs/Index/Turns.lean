import SwiftStyle.Proofs.Index.Build
import SwiftStyle.Proofs.Index.Persist
import SwiftStyle.Proofs.Index.Text

/-!
# Proofs/Index/Turns — one run on a cache

A run that succeeds leaves its index in the cache (`Turn.load_after_of_ok`) and a run that fails
leaves there what it found (`Turn.load_after_of_error`), so no name goes away (`Turn.grows_after`).
A name is answered with the file that the run writes for it, or as before (`Turn.get?_outcome?`).
-/

open Std

namespace SwiftStyle

open FileTree

/-- A run, with the tree it begins on. -/
structure Turn where
  builder : IndexBuilder
  extractor : Extractor
  faults : Faults
  tree : FileTree

namespace Turn

/-- What comes of the run. -/
def result (r : Turn) (cache : Path) : FileTree × Except PersistError IndexOutcome :=
  r.builder.run r.extractor r.faults r.tree cache

/-- The tree after the run. -/
def after (r : Turn) (cache : Path) : FileTree := (r.result cache).1

/-- The outcome of the run, when it succeeds. -/
def outcome? (r : Turn) (cache : Path) : Option IndexOutcome := (r.result cache).2.toOption

/-- The index that the run finds in the cache. -/
def found? (r : Turn) (cache : Path) : Option DeclarationIndex :=
  (DeclarationIndex.load r.tree cache).index?

/-- What the run builds on the index that it finds. -/
def built (r : Turn) (cache : Path) : IndexOutcome :=
  r.builder.build r.extractor r.tree (r.found? cache)

/-- A file that the run can load declares a name with its kind. -/
def Declares (r : Turn) (name : String) (file : Path) : Prop :=
  r.extractor.Declares r.tree r.builder.trackedKind name file

end Turn

variable {cache : Path} {r : Turn}

/-! ## One run -/

namespace Turn

theorem outcome?_eq_some_iff {o : IndexOutcome} :
    r.outcome? cache = some o ↔ (r.result cache).2 = .ok o := by
  rw [outcome?]
  cases (r.result cache).2 <;> simp [Except.toOption]

theorem outcome?_eq_none_iff :
    r.outcome? cache = none ↔ ∃ e, (r.result cache).2 = .error e := by
  rw [outcome?]
  cases (r.result cache).2 <;> simp [Except.toOption]

/-- **A run that succeeds gives back what it built.** -/
theorem eq_built {o : IndexOutcome} (h : r.outcome? cache = some o) : o = r.built cache := by
  rw [outcome?_eq_some_iff, result, IndexBuilder.run] at h
  split at h
  · exact (Except.ok.inj h).symm
  · simp at h

theorem built_eq {existing : Option DeclarationIndex} {files : List Path}
    (hfound : r.found? cache = existing)
    (hfiles : r.builder.discovery.discover r.tree (r.builder.roots existing) = files) :
    r.built cache =
      { index := (existing.getD .empty).merge
          (files.flatMap (r.builder.pairs r.extractor r.tree))
        scanned := files
        fullRescan := existing.isNone
        diagnostics := files.filterMap fun file =>
          IndexBuilder.diagnostic? file (r.builder.scan r.extractor r.tree file) } := by
  rw [built, hfound, IndexBuilder.build_eq, hfiles]

theorem after_eq {o : IndexOutcome} (h : r.built cache = o) :
    r.after cache = (o.index.persist r.faults r.tree cache).final := h ▸ rfl

theorem outcome?_eq {o : IndexOutcome} (h : r.built cache = o) :
    r.outcome? cache
      = if (o.index.persist r.faults r.tree cache).outcome.isOk then some o else none := by
  subst h
  rw [outcome?, result, IndexBuilder.run, built, found?]
  dsimp only
  split <;> simp_all [Except.isOk, Except.toBool, Except.toOption]

section Step

variable (ht : r.tree.WellFormed)
include ht

/-- **A run that succeeds leaves its index in the cache**, unless the way to it is cut off. -/
theorem load_after_of_ok (hreach : ¬(r.tree.withWayTo cache).CutsOff cache) {o : IndexOutcome}
    (h : r.outcome? cache = some o) :
    DeclarationIndex.load (r.after cache) cache = .loaded o.index := by
  have hclean := r.builder.endsCleanly_run ht r.extractor r.faults cache
  obtain ⟨place, _, hget, hleads, _⟩ := hclean.ok o (outcome?_eq_some_iff.1 h)
  have hplace := (hleads.resolve_right fun hcut => hreach hcut.2).1
  rw [DeclarationIndex.load_eq_loaded_iff, after, result, entry?_of_resolve hplace, hget,
    Option.bind_some, DeclarationIndex.readFrom?_text]

/-- **A run that fails changes what the cache path leads to only by uncovering it.** -/
theorem entry?_after_of_error (h : r.outcome? cache = none) :
    r.tree.Uncovers cache (r.after cache) ∨
      entry? (r.after cache) cache = r.tree.entry? cache := by
  have hclean := r.builder.endsCleanly_run ht r.extractor r.faults cache
  obtain ⟨e, he⟩ := outcome?_eq_none_iff.1 h
  exact (hclean.error e he).2.2

/-- **A run that fails leaves in the cache the index that it found.** -/
theorem load_after_of_error (h : r.outcome? cache = none) {i : DeclarationIndex}
    (hload : DeclarationIndex.load r.tree cache = .loaded i) :
    DeclarationIndex.load (r.after cache) cache = .loaded i := by
  rw [DeclarationIndex.load_eq_loaded_iff] at hload ⊢
  rcases r.entry?_after_of_error ht h with huncovers | hsame
  · rw [entry?_of_not_resolve huncovers.nowhere] at hload
    simp at hload
  · rw [hsame, hload]

end Step

end Turn

/-! ## Names -/

/-- **A run writes a name** when it succeeds and scans a file that declares it; the greatest of
these files is recorded. -/
def Turn.Writes (r : Turn) (cache : Path) (name : String) (file : Path) : Prop :=
  ∃ o, r.outcome? cache = some o ∧ IsLast o.scanned (r.Declares name) file

theorem Turn.Writes.exists_outcome {name : String} {file : Path} (h : r.Writes cache name file) :
    ∃ o, r.outcome? cache = some o := h.imp fun _ ho => ho.1

/-- **What a run that succeeds answers for a name**: the file that it writes, or what it found. -/
theorem Turn.get?_outcome? {o : IndexOutcome} (h : r.outcome? cache = some o) (name : String) :
    (∃ file, r.Writes cache name file ∧
      (∀ other, r.Writes cache name other → other = file) ∧
      o.index.get? name = some file.text) ∨
    (∀ file, ¬r.Writes cache name file) ∧
      o.index.get? name = (r.found? cache).bind (·.get? name) := by
  have hscanned : Increasing o.scanned := by
    rw [r.eq_built h]
    exact IndexBuilder.increasing_scanned _
  rcases hscanned.isLast_or_forall_not (r.Declares name) with ⟨file, hlast⟩ | hnot
  · refine .inl ⟨file, ⟨o, h, hlast⟩, ?_, ?_⟩
    · rintro other ⟨o', ho', hother⟩
      obtain rfl := Option.some.inj (h.symm.trans ho')
      exact hother.unique hscanned hlast
    · rw [r.eq_built h] at hlast ⊢
      exact IndexBuilder.get?_build hlast
  · refine .inr ⟨?_, ?_⟩
    · rintro file ⟨o', ho', hlast⟩
      obtain rfl := Option.some.inj (h.symm.trans ho')
      exact hnot file hlast.mem hlast.holds
    · rw [r.eq_built h] at hnot ⊢
      exact IndexBuilder.get?_build_of_not hnot

/-- A name stands in the cache. -/
def InCache (cache : Path) (t : FileTree) (name : String) : Prop :=
  ∃ i, DeclarationIndex.load t cache = .loaded i ∧ (i.get? name).isSome

/-- No name goes away. -/
def Grows (cache : Path) (t u : FileTree) : Prop :=
  ∀ name, InCache cache t name → InCache cache u name

instance : Trans (Grows cache) (Grows cache) (Grows cache) :=
  ⟨fun htu huv name => huv name ∘ htu name⟩

/-- **A run keeps the names that it finds.** -/
theorem Turn.grows_after (ht : r.tree.WellFormed)
    (hreach : ¬(r.tree.withWayTo cache).CutsOff cache) : Grows cache r.tree (r.after cache) := by
  rintro name ⟨i, hload, hname⟩
  cases hout : r.outcome? cache with
  | none => exact ⟨i, r.load_after_of_error ht hout hload, hname⟩
  | some o =>
    refine ⟨o.index, r.load_after_of_ok ht hreach hout, ?_⟩
    rcases r.get?_outcome? hout name with ⟨file, _, _, hget⟩ | ⟨_, hget⟩
    · rw [hget]
      rfl
    · rw [hget, Turn.found?, hload]
      exact hname

/-- The names are a matter of what the path leads to. -/
theorem grows_of_entry?_eq {t u : FileTree} (h : u.entry? cache = t.entry? cache) :
    Grows cache t u := by
  rintro name ⟨i, hload, hname⟩
  rw [DeclarationIndex.load_eq_loaded_iff] at hload
  exact ⟨i, DeclarationIndex.load_eq_loaded_iff.2 (h ▸ hload), hname⟩

end SwiftStyle
