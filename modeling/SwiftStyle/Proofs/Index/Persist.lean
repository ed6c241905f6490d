import SwiftStyle.Index.Persist
import SwiftStyle.Proofs.Files.Writable

/-!
# Proofs/Index/Persist — an index is written whole or not at all

An index is written by replacement, so whoever reads its file sees the old one or the whole new one
(`FileTree.IsAtomic`).  A run reports a failure exactly when the replacement failed, and then it has
left every file as it was.  It fails only for a reason: something failed from outside, or the path
cannot be written to (`FileTree.Writable`).

There are two exceptions.  A path may go back over a directory that is missing, as `x/y/../y` does:
making its way makes `x/y`, so it led nowhere before and leads to a directory after.  And a path may
go over the very link that the file replaces, as `l/../l` does when `l` is a link to a directory:
after success it leads nowhere.
-/

namespace SwiftStyle

open FileTree

/-! ## A run -/

/-- **A run ends** with its index in the cache or, when it fails, with every file as it was. -/
structure IndexBuilder.EndsCleanly (t : FileTree) (cache : Path)
    (run : FileTree × Except PersistError IndexOutcome) : Prop where
  /-- After success the text of the index is at the place that the cache path names, every other
  file and link is as it was, and the path leads to the text unless it is cut off. -/
  ok : ∀ outcome, run.2 = .ok outcome → ∃ place,
    (t.withWayTo cache).resolveEntry cache = .ok place ∧
    run.1.get? place = some (.file outcome.index.text.toUTF8) ∧
    (run.1.resolve cache = .ok place ∧ ¬(t.withWayTo cache).CutsOff cache ∨
      (∀ q, run.1.resolve cache ≠ .ok q) ∧ (t.withWayTo cache).CutsOff cache) ∧
    ∀ other, other ≠ place → run.1.AgreesAt t other
  /-- After failure the error names the cache, and there are the files and links that were there
  before. -/
  error : ∀ e, run.2 = .error e → e.path = cache ∧ (∀ place, run.1.AgreesAt t place) ∧
    (t.Uncovers cache run.1 ∨ entry? run.1 cache = t.entry? cache)

/-- **A run ends as the writing of its index does.** -/
theorem IndexBuilder.endsCleanly_run {t : FileTree} (ht : t.WellFormed) (b : IndexBuilder)
    (x : Extractor) (faults : Faults) (cache : Path) :
    IndexBuilder.EndsCleanly t cache (b.run x faults t cache) := by
  let outcome := b.build x t (DeclarationIndex.load t cache).index?
  let written := outcome.index.persist faults t cache
  have hatomic := isAtomic_replaceFile ht faults cache outcome.index.text.toUTF8
  cases hwritten : written.outcome with
  | ok u =>
    have hrun : b.run x faults t cache = (written.final, .ok outcome) := by
      rw [IndexBuilder.run]
      simp only [written, outcome] at hwritten
      rw [hwritten]
    rw [hrun]
    refine ⟨fun o ho => ?_, fun e he => by simp at he⟩
    obtain rfl := Except.ok.inj ho
    exact hatomic.done hwritten
  | error cause =>
    have hrun : b.run x faults t cache = (written.final, .error ⟨cache, cause⟩) := by
      rw [IndexBuilder.run]
      simp only [written, outcome] at hwritten
      rw [hwritten]
    rw [hrun]
    refine ⟨fun o ho => by simp at ho, fun e he => ?_⟩
    obtain rfl := Except.error.inj he
    obtain ⟨hfiles, htarget⟩ := hatomic.undone cause hwritten
    exact ⟨rfl, hfiles, htarget.symm⟩

/-- **Without links a run succeeds** exactly when no step fails from outside and the cache can be
written to. -/
theorem IndexBuilder.exists_run_eq_ok_iff {t : FileTree} (ht : t.Plain) (b : IndexBuilder)
    (x : Extractor) (faults : Faults) (cache : Path) :
    (∃ outcome, (b.run x faults t cache).2 = .ok outcome) ↔
      (∀ step, faults.error? step = none) ∧ t.Writable cache := by
  let outcome := b.build x t (DeclarationIndex.load t cache).index?
  rw [← replaceFile_eq_ok_iff ht faults cache outcome.index.text.toUTF8]
  change _ ↔ (outcome.index.persist faults t cache).outcome = .ok ()
  rw [IndexBuilder.run]
  dsimp only
  split
  · next hwritten => exact iff_of_true ⟨outcome, rfl⟩ hwritten
  · next hwritten => exact iff_of_false (by simp) (by simp [outcome, hwritten])

namespace DeclarationIndex

/-- **Writing an index is all or nothing**, whatever step of it fails, and so is a run.  Without
links it succeeds exactly when no step fails from outside and the path can be written to. -/
theorem persist_atomic {t : FileTree} (ht : t.WellFormed) (faults : Faults) (path : Path) :
    (∀ i : DeclarationIndex, t.IsAtomic path i.text.toUTF8 (i.persist faults t path) ∧
      (t.links = [] → ((i.persist faults t path).outcome = .ok () ↔
        (∀ step, faults.error? step = none) ∧ t.Writable path))) ∧
    ∀ (b : IndexBuilder) (x : Extractor),
      IndexBuilder.EndsCleanly t path (b.run x faults t path) ∧
      (t.links = [] → ((∃ outcome, (b.run x faults t path).2 = .ok outcome) ↔
        (∀ step, faults.error? step = none) ∧ t.Writable path)) :=
  ⟨fun i => ⟨isAtomic_replaceFile ht faults path i.text.toUTF8, fun hlinks =>
      replaceFile_eq_ok_iff ⟨ht, hlinks⟩ faults path i.text.toUTF8⟩,
    fun b x => ⟨b.endsCleanly_run ht x faults path, fun hlinks =>
      b.exists_run_eq_ok_iff ⟨ht, hlinks⟩ x faults path⟩⟩

/-! ## A cache that is there, and a disk that is full -/

namespace Cached

/-- An index without entries, in a directory of its own. -/
def tree : {t : FileTree // t.WellFormed} where
  val.entries := [(["cache"], .directory),
    (["cache", "index.json"], .file DeclarationIndex.empty.text.toUTF8)]
  property := by decide +kernel

/-- Nothing can be written but the first byte. -/
def full : Faults where
  error?
    | .write => some .busy
    | _ => none
  written := 1

def path : Path := ⟨"/cache/index.json"⟩

def index : DeclarationIndex := .ofList [("A", "/a.swift")]

end Cached

/-- On a full disk the old index stays, though a byte was written; otherwise the new one takes its
place. -/
theorem persist_atomic_cached :
    ((Cached.index.persist Cached.full Cached.tree.val Cached.path).outcome = .error .busy ∧
      entry? (Cached.index.persist Cached.full Cached.tree.val Cached.path).final Cached.path
        = some (.file DeclarationIndex.empty.text.toUTF8) ∧
      Cached.tree.val.IsAtomic Cached.path Cached.index.text.toUTF8
        (Cached.index.persist Cached.full Cached.tree.val Cached.path)) ∧
    (Cached.index.persist {} Cached.tree.val Cached.path).outcome = .ok () ∧
      entry? (Cached.index.persist {} Cached.tree.val Cached.path).final Cached.path
        = some (.file Cached.index.text.toUTF8) ∧
      Cached.tree.val.IsAtomic Cached.path Cached.index.text.toUTF8
        (Cached.index.persist {} Cached.tree.val Cached.path) ∧
      Cached.tree.val.Writable Cached.path := by
  obtain ⟨hfull, -⟩ := persist_atomic Cached.tree.property Cached.full Cached.path
  obtain ⟨hatomic, hok⟩ := (persist_atomic Cached.tree.property {} Cached.path).1 Cached.index
  have hdone : (Cached.index.persist {} Cached.tree.val Cached.path).outcome = .ok () := by
    decide +kernel
  exact ⟨⟨by decide +kernel, by decide +kernel, (hfull Cached.index).1⟩, hdone, by decide +kernel,
    hatomic, ((hok rfl).1 hdone).2⟩

namespace Linked

/-- A directory and a link to it. -/
def tree : {t : FileTree // t.WellFormed} where
  val.entries := [(["d"], .directory)]
  val.links := [(["l"], ⟨"d"⟩)]
  property := by decide +kernel

end Linked

/-- **A path may lead elsewhere after the writing**: to a directory that was made on its way, where
it led nowhere because the directory that it goes back over was missing; or nowhere, because the
file took the place of the link that it goes over. -/
theorem persist_leads_elsewhere :
    ( entry? {} ⟨"x/y/../y"⟩ = none ∧
      (Cached.index.persist {} {} ⟨"x/y/../y"⟩).outcome = .error .isDirectory ∧
      entry? (Cached.index.persist {} {} ⟨"x/y/../y"⟩).final ⟨"x/y/../y"⟩ = some .directory) ∧
    (Linked.tree.val.entry? ⟨"l/../l"⟩ = some .directory ∧
      (Cached.index.persist {} Linked.tree.val ⟨"l/../l"⟩).outcome = .ok () ∧
      entry? (Cached.index.persist {} Linked.tree.val ⟨"l/../l"⟩).final ⟨"l/../l"⟩ = none) := by
  decide +kernel

end DeclarationIndex

end SwiftStyle
