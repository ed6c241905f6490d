import SwiftStyle.Proofs.Index.Build

/-!
# Proofs/Index/Incremental — building on top of an index

An update scans the changed files alone, so it cannot weigh a declaration in a changed file against
one in a file that it does not scan: the changed file wins.

* **Nothing changed** (`update_rescan_eq_iff`): on top of a rescan of the same files an update gives
  back the index exactly when no changed file takes a name from a later one.
* **Something changed**: when names have one file each and no name goes away, an update is as good
  as a rescan, because what a file declares now it declared before or it is scanned
  (`Covers.declares_before_or_changed`).
-/

open Std

namespace SwiftStyle

/-- The file is discovered, and what it holds if it can be read. -/
def Discovery.observe (d : Discovery) (t : FileTree) (roots : List Path) (file : Path) :
    Option (Option ByteArray) :=
  if file ∈ d.discover t roots then some (t.read file).toOption else none

/-- **A file declares the same wherever it holds the same.** -/
theorem Extractor.declares_congr {x : Extractor} {t t' : FileTree} {kind : NodeKind} {name : String}
    {file : Path} (h : (t.read file).toOption = (t'.read file).toOption)
    (hdeclares : x.Declares t kind name file) : x.Declares t' kind name file := by
  obtain ⟨unit, hload, hname⟩ := hdeclares
  refine ⟨unit, ?_, hname⟩
  unfold load at hload ⊢
  cases hread : t.read file with
  | error e => simp [hread] at hload
  | ok bytes =>
    have hread' : t'.read file = .ok bytes := by
      rw [hread] at h
      cases hread' : t'.read file with
      | error e => simp [hread', Except.toOption] at h
      | ok bytes' => simp_all [Except.toOption]
    rw [hread']
    rwa [hread] at hload

namespace IndexBuilder

variable {b : IndexBuilder} {x : Extractor} {t : FileTree}

/-- The index of a build on top of nothing. -/
def rescan (b : IndexBuilder) (x : Extractor) (t : FileTree) : DeclarationIndex :=
  (b.build x t none).index

/-- The index of a build on top of an index. -/
def update (b : IndexBuilder) (x : Extractor) (t : FileTree) (i : DeclarationIndex) :
    DeclarationIndex :=
  (b.build x t (some i)).index

/-! ## What an update and a rescan answer -/

theorem get?_update {i : DeclarationIndex} {name : String} {file : Path}
    (h : IsLast (b.discovery.discover t b.changed) (x.Declares t b.trackedKind name) file) :
    (b.update x t i).get? name = some file.text := get?_build h

theorem get?_update_of_not {i : DeclarationIndex} {name : String}
    (h : ∀ file ∈ b.discovery.discover t b.changed, ¬x.Declares t b.trackedKind name file) :
    (b.update x t i).get? name = i.get? name := get?_build_of_not h

theorem get?_rescan {name : String} {file : Path}
    (h : IsLast (b.discovery.discover t (b.changed ++ b.fallback))
      (x.Declares t b.trackedKind name) file) :
    (b.rescan x t).get? name = some file.text := get?_build h

theorem get?_rescan_of_not {name : String}
    (h : ∀ file ∈ b.discovery.discover t (b.changed ++ b.fallback),
      ¬x.Declares t b.trackedKind name file) :
    (b.rescan x t).get? name = none := get?_build_of_not h

/-- The names that a file declares, as a list. -/
theorem declares_iff {name : String} {file : Path} :
    x.Declares t b.trackedKind name file ↔ name ∈ (b.pairs x t file).map (·.1) := by
  constructor
  · intro hdeclares
    exact List.mem_map.2 ⟨(name, file.text), mem_pairs_iff.2 ⟨hdeclares, rfl⟩, rfl⟩
  · intro hname
    obtain ⟨⟨other, path⟩, hpair, rfl⟩ := List.mem_map.1 hname
    exact (mem_pairs_iff.1 hpair).1

/-! ## Nothing changed -/

/-- **No winner is passed over**: if a changed file declares the name, then a changed file is the
last of all files that declare it. -/
def Settled (b : IndexBuilder) (x : Extractor) (t : FileTree) (name : String) : Prop :=
  ∀ winner, IsLast (b.discovery.discover t (b.changed ++ b.fallback))
      (x.Declares t b.trackedKind name) winner →
    (∃ file ∈ b.discovery.discover t b.changed, x.Declares t b.trackedKind name file) →
    winner ∈ b.discovery.discover t b.changed

section Unchanged

variable (ht : t.WellFormed)
include ht

/-- A rescan looks at the changed files, too. -/
theorem mem_discover_of_changed {file : Path} (h : file ∈ b.discovery.discover t b.changed) :
    file ∈ b.discovery.discover t (b.changed ++ b.fallback) :=
  (Discovery.mem_discover_append ht).2 (.inl h)

/-- A name that a changed file declares has a winner. -/
theorem exists_winner {name : String} {file : Path}
    (hfile : file ∈ b.discovery.discover t b.changed)
    (hdeclares : x.Declares t b.trackedKind name file) :
    ∃ winner, IsLast (b.discovery.discover t (b.changed ++ b.fallback))
      (x.Declares t b.trackedKind name) winner :=
  (Discovery.increasing_discover _ _ _).exists_isLast
    ⟨file, mem_discover_of_changed ht hfile, hdeclares⟩

/-- **An update leaves a name alone exactly when no winner is passed over.** -/
theorem get?_update_rescan_eq_iff {name : String} :
    (b.update x t (b.rescan x t)).get? name = (b.rescan x t).get? name ↔
      b.Settled x t name := by
  have hchanged := Discovery.increasing_discover b.discovery t b.changed
  constructor
  · intro h winner hwinner hdeclared
    obtain ⟨last, hlast⟩ := hchanged.exists_isLast hdeclared
    rw [get?_update hlast, get?_rescan hwinner, Option.some_inj] at h
    obtain rfl : last = winner := Path.eq_of_text h
    exact hlast.mem
  · intro h
    rcases hchanged.isLast_or_forall_not (x.Declares t b.trackedKind name) with
      ⟨last, hlast⟩ | hnone
    · obtain ⟨winner, hwinner⟩ := exists_winner ht hlast.mem hlast.holds
      have hlast' : IsLast (b.discovery.discover t b.changed) (x.Declares t b.trackedKind name)
          winner := by
        refine ⟨h winner hwinner ⟨last, hlast.mem, hlast.holds⟩, hwinner.holds, ?_⟩
        intro file hfile
        exact hwinner.above file (mem_discover_of_changed ht hfile)
      rw [get?_update hlast', get?_rescan hwinner]
    · exact get?_update_of_not hnone

theorem update_rescan_eq_iff :
    b.update x t (b.rescan x t) = b.rescan x t ↔ ∀ name, b.Settled x t name := by
  constructor
  · intro h name
    rw [← get?_update_rescan_eq_iff ht, h]
  · intro h
    exact DeclarationIndex.ext fun name => (get?_update_rescan_eq_iff ht).2 (h name)

/-- **An update on top of a rescan neither adds nor loses a name.** -/
theorem isSome_get?_update_rescan {name : String} :
    ((b.update x t (b.rescan x t)).get? name).isSome = ((b.rescan x t).get? name).isSome := by
  have hchanged := Discovery.increasing_discover b.discovery t b.changed
  rcases hchanged.isLast_or_forall_not (x.Declares t b.trackedKind name) with ⟨last, hlast⟩ | hnone
  · obtain ⟨winner, hwinner⟩ := exists_winner ht hlast.mem hlast.holds
    rw [get?_update hlast, get?_rescan hwinner]
    rfl
  · rw [get?_update_of_not hnone]

end Unchanged

/-- **Updating again changes nothing.** -/
theorem update_update (i : DeclarationIndex) :
    b.update x t (b.update x t i) = b.update x t i := by
  refine DeclarationIndex.ext fun name => ?_
  have hchanged := Discovery.increasing_discover b.discovery t b.changed
  rcases hchanged.isLast_or_forall_not (x.Declares t b.trackedKind name) with ⟨last, hlast⟩ | hnone
  · rw [get?_update hlast, get?_update hlast]
  · exact get?_update_of_not hnone

/-- **An update on top of a rescan of the same files** answers a name as before exactly when no
winner is passed over, and otherwise with the last changed file that declares it.  It neither adds
nor loses a name, and updating again changes nothing. -/
theorem update_rescan_exact (ht : t.WellFormed) :
    (b.update x t (b.rescan x t) = b.rescan x t ↔ ∀ name, b.Settled x t name) ∧
    (∀ name, (b.update x t (b.rescan x t)).get? name = (b.rescan x t).get? name ↔
      b.Settled x t name) ∧
    (∀ name file, IsLast (b.discovery.discover t b.changed) (x.Declares t b.trackedKind name) file →
      (b.update x t (b.rescan x t)).get? name = some file.text) ∧
    (∀ name, ((b.update x t (b.rescan x t)).get? name).isSome
      = ((b.rescan x t).get? name).isSome) ∧
    b.update x t (b.update x t (b.rescan x t)) = b.update x t (b.rescan x t) :=
  ⟨update_rescan_eq_iff ht, fun _ => get?_update_rescan_eq_iff ht, fun _ _ => get?_update,
    fun _ => isSome_get?_update_rescan ht, update_update _⟩

namespace Conflict

theorem discover_changed_eq :
    builder.discovery.discover tree.val builder.changed = [⟨"/a/b.swift"⟩] :=
  Discovery.discover_eq_of_increasing (by decide +kernel) (by decide +kernel)

/-- The file with the greater path has changed. -/
def later : IndexBuilder where
  changed := [⟨"/a.b.swift"⟩]
  fallback := [⟨"/"⟩]

theorem discover_later_changed_eq :
    later.discovery.discover tree.val later.changed = [⟨"/a.b.swift"⟩] :=
  Discovery.discover_eq_of_increasing (by decide +kernel) (by decide +kernel)

theorem discover_later_fallback_eq :
    later.discovery.discover tree.val later.fallback
      = [⟨"/a/b.swift"⟩, ⟨"/a.b.swift"⟩, ⟨"/z.swift"⟩] :=
  Discovery.discover_eq_of_increasing (by decide +kernel) (by decide +kernel)

end Conflict

/-- **An update can take a name from the later file.** -/
theorem update_rescan_conflict :
    Conflict.builder.update Conflict.extractor Conflict.tree.val
        (Conflict.builder.rescan Conflict.extractor Conflict.tree.val)
      ≠ Conflict.builder.rescan Conflict.extractor Conflict.tree.val := by
  have hrescan : Conflict.builder.rescan Conflict.extractor Conflict.tree.val
      = .ofList [("P", "/a.b.swift")] := by
    rw [rescan, build, Conflict.discover_eq]
    decide +kernel
  have hupdate : Conflict.builder.update Conflict.extractor Conflict.tree.val
      (.ofList [("P", "/a.b.swift")]) = .ofList [("P", "/a/b.swift")] := by
    rw [update, build_eq]
    simp only [roots, Option.isNone_some, Bool.false_eq_true, if_false]
    rw [Conflict.discover_changed_eq]
    decide +kernel
  rw [hrescan, hupdate]
  decide +kernel

/-- With the later file among the changed ones the index stays as it is. -/
theorem update_rescan_exact_later :
    Conflict.later.update Conflict.extractor Conflict.tree.val
        (Conflict.later.rescan Conflict.extractor Conflict.tree.val)
      = Conflict.later.rescan Conflict.extractor Conflict.tree.val := by
  refine (update_rescan_exact Conflict.tree.property).1.2 ?_
  intro name winner hwinner ⟨file, hfile, hdeclares⟩
  have ht := Conflict.tree.property
  rcases (Discovery.mem_discover_append ht).1 hwinner.mem with hchanged | hfallback
  · exact hchanged
  · have habove := hwinner.above file (mem_discover_of_changed ht hfile) hdeclares
    have hholds := declares_iff.1 hwinner.holds
    rw [Conflict.discover_later_changed_eq, List.mem_singleton] at hfile
    rw [Conflict.discover_later_fallback_eq] at hfallback
    subst hfile
    have hlater : ∀ other ∈ [(⟨"/a/b.swift"⟩ : Path), ⟨"/a.b.swift"⟩, ⟨"/z.swift"⟩],
        (compare (⟨"/a.b.swift"⟩ : Path) other).isLE →
        (Conflict.later.pairs Conflict.extractor Conflict.tree.val other).map (·.1) ≠ [] →
        other = ⟨"/a.b.swift"⟩ := by decide +kernel
    rw [hlater winner hfallback habove (List.ne_nil_of_mem hholds),
      Conflict.discover_later_changed_eq]
    exact List.mem_singleton_self _

/-! ## Something changed -/

/-- The same, without files that are known to have changed. -/
def fallbackOnly (b : IndexBuilder) : IndexBuilder := { b with changed := [] }

/-- A name that a file under the first roots and one under the second declare has these two for one
file. -/
def Compatible (b : IndexBuilder) (x : Extractor) (t : FileTree) (roots roots' : List Path) : Prop :=
  ∀ name, ∀ file ∈ b.discovery.discover t roots, ∀ other ∈ b.discovery.discover t roots',
    x.Declares t b.trackedKind name file → x.Declares t b.trackedKind name other → file = other

/-- Compatible roots, as a comparison of lists. -/
theorem compatible_iff {roots roots' : List Path} :
    b.Compatible x t roots roots' ↔ ∀ file ∈ b.discovery.discover t roots,
      ∀ other ∈ b.discovery.discover t roots', ∀ name ∈ (b.pairs x t file).map (·.1),
        name ∈ (b.pairs x t other).map (·.1) → file = other := by
  simp only [Compatible, declares_iff]
  exact ⟨fun h file hfile other hother name => h name file hfile other hother,
    fun h name file hfile other hother => h file hfile other hother name⟩

/-- Below the fallback directories every name has one file. -/
def OneFileEach (b : IndexBuilder) (x : Extractor) (t : FileTree) : Prop :=
  ∀ name, ∀ file ∈ b.discovery.discover t b.fallback,
    ∀ other ∈ b.discovery.discover t b.fallback,
      x.Declares t b.trackedKind name file → x.Declares t b.trackedKind name other → file = other

/-- Below the fallback directories some file declares the name. -/
def Declared (b : IndexBuilder) (x : Extractor) (t : FileTree) (name : String) : Prop :=
  ∃ file ∈ b.discovery.discover t b.fallback, x.Declares t b.trackedKind name file

/-- The names that the files below the fallback directories declare, as a list. -/
theorem declared_iff {name : String} :
    b.Declared x t name ↔
      name ∈ ((b.discovery.discover t b.fallback).flatMap (b.pairs x t)).map (·.1) := by
  simp only [Declared, declares_iff, List.map_flatMap, List.mem_flatMap]

/-- One file for each name, as a comparison of lists. -/
theorem oneFileEach_iff :
    b.OneFileEach x t ↔ ∀ file ∈ b.discovery.discover t b.fallback,
      ∀ other ∈ b.discovery.discover t b.fallback, ∀ name ∈ (b.pairs x t file).map (·.1),
        name ∈ (b.pairs x t other).map (·.1) → file = other := compatible_iff

/-- **A rescan answers with the one file that declares the name.** -/
theorem OneFileEach.get?_rescan (hone : b.OneFileEach x t) {name : String} {file : Path}
    (hfile : file ∈ b.discovery.discover t b.fallback)
    (hdeclares : x.Declares t b.trackedKind name file) :
    (b.fallbackOnly.rescan x t).get? name = some file.text := by
  refine IndexBuilder.get?_rescan ⟨hfile, hdeclares, fun other hother hdeclares' => ?_⟩
  obtain rfl := hone name file hfile other hother hdeclares hdeclares'
  exact ReflOrd.isLE_rfl

theorem get?_rescan_of_not_declared {name : String} (h : ¬b.Declared x t name) :
    (b.fallbackOnly.rescan x t).get? name = none :=
  get?_rescan_of_not fun file hfile hdeclares => h ⟨file, hfile, hdeclares⟩

/-- **An update answers with the one changed file that declares the name.** -/
theorem OneFileEach.get?_update (hone : b.OneFileEach x t)
    (hbelow : ∀ file ∈ b.discovery.discover t b.changed, file ∈ b.discovery.discover t b.fallback)
    {i : DeclarationIndex} {name : String} {file : Path}
    (hfile : file ∈ b.discovery.discover t b.changed)
    (hdeclares : x.Declares t b.trackedKind name file) :
    (b.update x t i).get? name = some file.text := by
  refine IndexBuilder.get?_update ⟨hfile, hdeclares, fun other hother hdeclares' => ?_⟩
  obtain rfl := hone name file (hbelow _ hfile) other (hbelow _ hother) hdeclares hdeclares'
  exact ReflOrd.isLE_rfl

/-- Every file below the fallback directories that has come or gone, or that holds something else,
is given as changed. -/
def Covers (b : IndexBuilder) (t₀ t₁ : FileTree) : Prop :=
  ∀ file, b.discovery.observe t₀ b.fallback file ≠ b.discovery.observe t₁ b.fallback file →
    file ∈ b.changed.map t₁.absolute

/-- **What a file declares now, it declared before or it is a changed file.** -/
theorem Covers.declares_before_or_changed {t₀ t₁ : FileTree} (hcovers : b.Covers t₀ t₁)
    (ht₁ : t₁.WellFormed) {name : String} {file : Path}
    (hfile : file ∈ b.discovery.discover t₁ b.fallback)
    (hdeclares : x.Declares t₁ b.trackedKind name file) :
    (file ∈ b.discovery.discover t₀ b.fallback ∧ x.Declares t₀ b.trackedKind name file) ∨
      file ∈ b.discovery.discover t₁ b.changed := by
  by_cases hsame : b.discovery.observe t₀ b.fallback file = b.discovery.observe t₁ b.fallback file
  · left
    rw [Discovery.observe, Discovery.observe, if_pos hfile] at hsame
    split at hsame
    · next hfile₀ =>
      exact ⟨hfile₀, Extractor.declares_congr (Option.some_inj.1 hsame).symm hdeclares⟩
    · simp at hsame
  · exact .inr (Discovery.mem_discover_of_mem_map ht₁ hfile (hcovers file hsame))

/-- **An update is as good as a rescan**, when names have one file each and none goes away. -/
theorem update_rescan_eq_rescan {t₀ t₁ : FileTree} (ht₁ : t₁.WellFormed)
    (hcovers : b.Covers t₀ t₁)
    (hbelow : ∀ file ∈ b.discovery.discover t₁ b.changed, file ∈ b.discovery.discover t₁ b.fallback)
    (hone₀ : b.OneFileEach x t₀) (hone₁ : b.OneFileEach x t₁)
    (hkept : ∀ name, b.Declared x t₀ name → b.Declared x t₁ name) :
    b.update x t₁ (b.fallbackOnly.rescan x t₀) = b.fallbackOnly.rescan x t₁ := by
  refine DeclarationIndex.ext fun name => ?_
  by_cases hdeclared : b.Declared x t₁ name
  · obtain ⟨file, hfile, hdeclares⟩ := hdeclared
    rw [hone₁.get?_rescan hfile hdeclares]
    by_cases hchanged : file ∈ b.discovery.discover t₁ b.changed
    · exact hone₁.get?_update hbelow hchanged hdeclares
    · -- the one file that declares the name is not scanned, so its old entry stays
      have hnone : ∀ other ∈ b.discovery.discover t₁ b.changed,
          ¬x.Declares t₁ b.trackedKind name other := by
        intro other hother hdeclares'
        obtain rfl := hone₁ name file hfile other (hbelow _ hother) hdeclares hdeclares'
        exact hchanged hother
      obtain ⟨hfile₀, hdeclares₀⟩ :=
        (hcovers.declares_before_or_changed ht₁ hfile hdeclares).resolve_right hchanged
      rw [get?_update_of_not hnone, hone₀.get?_rescan hfile₀ hdeclares₀]
  · have hnone : ∀ file ∈ b.discovery.discover t₁ b.changed,
        ¬x.Declares t₁ b.trackedKind name file := fun file hfile hdeclares =>
      hdeclared ⟨file, hbelow file hfile, hdeclares⟩
    rw [get?_update_of_not hnone, get?_rescan_of_not_declared hdeclared,
      get?_rescan_of_not_declared fun h => hdeclared (hkept name h)]

namespace Moved

/-- One name in each of three files. -/
def before : FileTree where
  entries := [(["a.swift"], .file ⟨#[80]⟩), (["b.swift"], .file ⟨#[81]⟩),
    (["d.swift"], .file ⟨#[82]⟩)]

/-- A file has gone, another has its text, and a new one has the other's. -/
def after : {t : FileTree // t.WellFormed} where
  val.entries := [(["b.swift"], .file ⟨#[80]⟩), (["c.swift"], .file ⟨#[81]⟩),
    (["d.swift"], .file ⟨#[82]⟩)]
  property := by decide +kernel

/-- All but one of the files have changed. -/
def builder : IndexBuilder where
  changed := [⟨"a.swift"⟩, ⟨"/b.swift"⟩, ⟨"./c.swift"⟩]
  fallback := [⟨"."⟩]

theorem discover_before_eq :
    builder.discovery.discover before builder.fallback
      = [⟨"/a.swift"⟩, ⟨"/b.swift"⟩, ⟨"/d.swift"⟩] :=
  Discovery.discover_eq_of_increasing (by decide +kernel) (by decide +kernel)

theorem discover_after_eq :
    builder.discovery.discover after.val builder.fallback
      = [⟨"/b.swift"⟩, ⟨"/c.swift"⟩, ⟨"/d.swift"⟩] :=
  Discovery.discover_eq_of_increasing (by decide +kernel) (by decide +kernel)

theorem discover_changed_eq :
    builder.discovery.discover after.val builder.changed = [⟨"/b.swift"⟩, ⟨"/c.swift"⟩] :=
  Discovery.discover_eq_of_increasing (by decide +kernel) (by decide +kernel)

theorem absolute_changed :
    builder.changed.map after.val.absolute = [⟨"/a.swift"⟩, ⟨"/b.swift"⟩, ⟨"/c.swift"⟩] := by
  decide +kernel

/-- The file that has not changed is what it was. -/
theorem covers : builder.Covers before after.val := by
  intro file h
  rw [Discovery.observe, Discovery.observe, discover_before_eq, discover_after_eq] at h
  rw [absolute_changed]
  by_cases hsame : file = ⟨"/d.swift"⟩
  · subst hsame
    exact absurd (by decide +kernel) h
  · by_contra hnot
    simp_all

end Moved

/-- Names that move to other files are found there. -/
theorem update_rescan_eq_rescan_moved :
    Moved.builder.update Conflict.extractor Moved.after.val
        (Moved.builder.fallbackOnly.rescan Conflict.extractor Moved.before)
      = Moved.builder.fallbackOnly.rescan Conflict.extractor Moved.after.val ∧
    (Moved.builder.fallbackOnly.rescan Conflict.extractor Moved.before).get? "P"
      = some "/a.swift" ∧
    (Moved.builder.fallbackOnly.rescan Conflict.extractor Moved.after.val).get? "P"
      = some "/b.swift" := by
  have hone₀ : Moved.builder.OneFileEach Conflict.extractor Moved.before := by
    rw [oneFileEach_iff, Moved.discover_before_eq]
    decide +kernel
  have hone₁ : Moved.builder.OneFileEach Conflict.extractor Moved.after.val := by
    rw [oneFileEach_iff, Moved.discover_after_eq]
    decide +kernel
  refine ⟨update_rescan_eq_rescan Moved.after.property Moved.covers ?_ hone₀ hone₁ ?_, ?_, ?_⟩
  · rw [Moved.discover_changed_eq, Moved.discover_after_eq]
    decide +kernel
  · intro name hname
    rw [declared_iff, Moved.discover_before_eq] at hname
    rw [declared_iff, Moved.discover_after_eq]
    have hsame : ([⟨"/a.swift"⟩, ⟨"/b.swift"⟩, ⟨"/d.swift"⟩].flatMap
          (Moved.builder.pairs Conflict.extractor Moved.before)).map (·.1)
        = ([⟨"/b.swift"⟩, ⟨"/c.swift"⟩, ⟨"/d.swift"⟩].flatMap
          (Moved.builder.pairs Conflict.extractor Moved.after.val)).map (·.1) := by decide +kernel
    rwa [← hsame]
  · have hfile : ⟨"/a.swift"⟩ ∈ Moved.builder.discovery.discover Moved.before
        Moved.builder.fallback := by
      rw [Moved.discover_before_eq]
      decide
    exact hone₀.get?_rescan hfile (declares_iff.2 (by decide +kernel))
  · have hfile : ⟨"/b.swift"⟩ ∈ Moved.builder.discovery.discover Moved.after.val
        Moved.builder.fallback := by
      rw [Moved.discover_after_eq]
      decide
    exact hone₁.get?_rescan hfile (declares_iff.2 (by decide +kernel))

end IndexBuilder

end SwiftStyle
