import Mathlib.Data.List.Induction
import SwiftStyle.Files.Tree
import SwiftStyle.Proofs.Lists
import SwiftStyle.Proofs.Paths

/-!
# Proofs/Files/Tree — what every tree of files keeps

A path leads to a directory or to a file (`isDirectory_iff`, `isFile_iff`), and to a file when there
are bytes to read (`isFile_iff_read`).  A tree is *well formed* when its places are made of names,
each place has one entry and no link beside it, and every entry lies in a directory.  Then what is
listed at a place is what is found there (`WellFormed.get?_of_mem`).  It is *plain* when besides it
has no links.
-/

namespace SwiftStyle

/-- **Steps come to an answer** when the first does and the others from there. -/
theorem bind_eq_ok_iff {ε α β : Type} {x : Except ε α} {f : α → Except ε β} {b : β} :
    x >>= f = .ok b ↔ ∃ a, x = .ok a ∧ f a = .ok b := by
  cases x <;> simp [bind, Except.bind]

@[simp] theorem throw_ne_ok {ε α : Type} {e : ε} {a : α} : (throw e : Except ε α) ≠ .ok a := by
  simp [throw, throwThe, MonadExceptOf.throw]

/-- Another wording of the error changes no success. -/
theorem mapError_eq_ok_iff {ε ε' α : Type} {f : ε → ε'} {x : Except ε α} {a : α} :
    x.mapError f = .ok a ↔ x = .ok a := by
  cases x <;> simp [Except.mapError]

namespace FileTree

/-- **What every file system keeps.** -/
structure WellFormed (t : FileTree) : Prop where
  /-- Entries have names; the root is none of them. -/
  names : ∀ e ∈ t.entries, e.1 ≠ [] ∧ ∀ name ∈ e.1, Path.IsName name
  /-- A place has one entry. -/
  distinct : (t.entries.map (·.1)).Nodup
  /-- An entry lies in a directory. -/
  parents : ∀ e ∈ t.entries, t.get? e.1.dropLast = some .directory
  /-- A link has its place for itself, in a directory. -/
  links : ∀ l ∈ t.links, t.get? l.1 = none ∧ t.get? l.1.dropLast = some .directory

instance (t : FileTree) : Decidable t.WellFormed :=
  decidable_of_iff
    ((∀ e ∈ t.entries, e.1 ≠ [] ∧ ∀ name ∈ e.1, Path.IsName name) ∧
      (t.entries.map (·.1)).Nodup ∧ (∀ e ∈ t.entries, t.get? e.1.dropLast = some .directory) ∧
      ∀ l ∈ t.links, t.get? l.1 = none ∧ t.get? l.1.dropLast = some .directory)
    ⟨fun ⟨names, distinct, parents, links⟩ => ⟨names, distinct, parents, links⟩,
      fun ⟨names, distinct, parents, links⟩ => ⟨names, distinct, parents, links⟩⟩

/-- **A file system without links.** -/
structure Plain (t : FileTree) : Prop extends t.WellFormed where
  no_links : t.links = []

instance (t : FileTree) : Decidable t.Plain :=
  decidable_of_iff (t.WellFormed ∧ t.links = [])
    ⟨fun ⟨wellFormed, links⟩ => ⟨wellFormed, links⟩, fun h => ⟨h.toWellFormed, h.no_links⟩⟩

/-! ## What a path leads to -/

section Reading

variable {t t' : FileTree} {p : Path}

theorem entry?_of_resolve {place : Place} (h : t.resolve p = .ok place) :
    t.entry? p = t.get? place := by
  unfold entry?
  rw [h]
  rfl

theorem entry?_of_not_resolve (h : ∀ place, t.resolve p ≠ .ok place) : t.entry? p = none := by
  unfold entry?
  cases hp : t.resolve p with
  | error e => rfl
  | ok place => exact absurd hp (h place)

theorem entry?_eq_some_iff {entry : Entry} : t.entry? p = some entry ↔
    ∃ place, t.resolve p = .ok place ∧ t.get? place = some entry := by
  unfold entry?
  cases t.resolve p <;> simp [Except.toOption]

/-- **A path leads to a directory.** -/
theorem isDirectory_iff : t.isDirectory p = true ↔
    ∃ place, t.resolve p = .ok place ∧ t.get? place = some .directory := by
  rw [isDirectory, beq_iff_eq, entry?_eq_some_iff]

/-- **A path leads to a file.** -/
theorem isFile_iff : t.isFile p = true ↔
    ∃ place bytes, t.resolve p = .ok place ∧ t.get? place = some (.file bytes) := by
  have hfile : t.isFile p = true ↔ ∃ bytes, t.entry? p = some (.file bytes) := by
    rw [isFile]
    split <;> simp_all
  simp only [hfile, entry?_eq_some_iff]
  exact exists_comm

/-- **The bytes that are read** are those of the file that the path leads to. -/
theorem read_eq_ok_iff {bytes : ByteArray} : t.read p = .ok bytes ↔
    ∃ place, t.resolve p = .ok place ∧ t.get? place = some (.file bytes) := by
  rw [read]
  cases t.resolve p with
  | error e => simp [bind, Except.bind]
  | ok place =>
    simp only [bind, Except.bind, Except.ok.injEq, exists_eq_left']
    cases t.get? place with
    | none => simp
    | some entry => cases entry <;> simp [pure, Except.pure]

/-- It does when there are bytes to read. -/
theorem isFile_iff_read : t.isFile p = true ↔ ∃ bytes, t.read p = .ok bytes := by
  simp only [isFile_iff, read_eq_ok_iff]
  exact exists_comm

theorem isFile_of_read_error {cause : FileError} (h : t.read p = .error cause) :
    t.isFile p = false := by
  rw [Bool.eq_false_iff, ne_eq, isFile_iff_read, h]
  simp

/-- What cannot be read has no text, for the same cause. -/
theorem readText_eq_error {cause : FileError} (h : t.read p = .error cause) :
    t.readText p = .error cause := by
  rw [readText, h]
  rfl

theorem isFile_congr (h : t'.read p = t.read p) : t'.isFile p = t.isFile p := by
  rw [Bool.eq_iff_iff, isFile_iff_read, isFile_iff_read, h]

theorem readText_congr (h : t'.read p = t.read p) : t'.readText p = t.readText p := by
  rw [readText, readText, h]

end Reading

/-! ## Entries of a well-formed tree -/

/-- **What is listed at a place is found there.** -/
theorem WellFormed.get?_of_mem {t : FileTree} (ht : t.WellFormed) {place : Place} {entry : Entry}
    (h : (place, entry) ∈ t.entries) : t.get? place = some entry := by
  rw [get?, if_neg (ht.names _ h).1, lookup_of_mem ht.distinct h]

theorem mem_of_get?_eq {t : FileTree} {place : Place} {entry : Entry} (hne : place ≠ [])
    (h : t.get? place = some entry) : (place, entry) ∈ t.entries := by
  rw [get?, if_neg hne] at h
  exact mem_of_lookup h

/-- **Above an entry there are directories only.** -/
theorem WellFormed.get?_above {t : FileTree} (ht : t.WellFormed) {place way : Place}
    {entry : Entry} (hway : way ≠ []) (h : t.get? (place ++ way) = some entry) :
    t.get? place = some .directory := by
  induction way using List.reverseRecOn generalizing entry with
  | nil => exact absurd rfl hway
  | append_singleton way name ih =>
    have hparent := ht.parents _ (mem_of_get?_eq (by simp) h)
    rw [← List.append_assoc, List.dropLast_concat] at hparent
    by_cases hnil : way = []
    · simpa [hnil] using hparent
    · exact ih hnil hparent

/-- Above a directory there is a directory. -/
theorem WellFormed.get?_dropLast {t : FileTree} (ht : t.WellFormed) {place : Place}
    (h : t.get? place = some .directory) : t.get? place.dropLast = some .directory := by
  by_cases hne : place = []
  · simp [hne]
  · exact ht.parents _ (mem_of_get?_eq hne h)

/-- The names of a place that is there can be names. -/
theorem WellFormed.isName {t : FileTree} (ht : t.WellFormed) {place : Place} {entry : Entry}
    (h : t.get? place = some entry) : ∀ name ∈ place, Path.IsName name := by
  by_cases hne : place = []
  · simp [hne]
  · exact (ht.names _ (mem_of_get?_eq hne h)).2

/-- **Nothing is at a place**, neither an entry nor a link. -/
def IsFree (t : FileTree) (place : Place) : Prop := t.get? place = none ∧ t.link? place = none

theorem ne_nil_of_not_directory {t : FileTree} {place : Place}
    (h : t.get? place ≠ some .directory) : place ≠ [] := by
  rintro rfl
  exact h t.get?_nil

theorem IsFree.ne_nil {t : FileTree} {place : Place} (h : t.IsFree place) : place ≠ [] :=
  ne_nil_of_not_directory (t := t) (by simp [h.1])

/-- Where an entry is there is no link. -/
theorem WellFormed.link?_eq_none {t : FileTree} (ht : t.WellFormed) {place : Place} {entry : Entry}
    (h : t.get? place = some entry) : t.link? place = none := by
  by_contra hlink
  obtain ⟨target, htarget⟩ := Option.ne_none_iff_exists'.1 hlink
  rw [(ht.links _ (mem_of_lookup htarget)).1] at h
  cases h

/-- **Below a place that is no directory there is nothing.** -/
theorem WellFormed.isFree_below {t : FileTree} (ht : t.WellFormed) {place way : Place}
    (hnot : t.get? place ≠ some .directory) (hway : way ≠ []) : t.IsFree (place ++ way) := by
  have hnone : t.get? (place ++ way) = none := by
    by_contra hsome
    obtain ⟨entry, hentry⟩ := Option.ne_none_iff_exists'.1 hsome
    exact hnot (ht.get?_above hway hentry)
  refine ⟨hnone, ?_⟩
  by_contra hsome
  obtain ⟨target, htarget⟩ := Option.ne_none_iff_exists'.1 hsome
  have hparent := (ht.links _ (mem_of_lookup htarget)).2
  rw [List.dropLast_append_of_ne_nil hway] at hparent
  by_cases hnil : way.dropLast = []
  · exact hnot (by simpa [hnil] using hparent)
  · exact hnot (ht.get?_above hnil hparent)

theorem link?_congr {t m : FileTree} (h : m.links = t.links) (place : Place) :
    m.link? place = t.link? place := by rw [link?, link?, h]

/-- Where no link is, none is dropped. -/
theorem filter_links {t : FileTree} {place : Place} (h : t.link? place = none) :
    t.links.filter (·.1 != place) = t.links :=
  List.filter_eq_self.2 fun l hl => by simpa [bne_comm] using List.lookup_eq_none_iff.1 h l hl

/-- In a plain tree no place has a link. -/
theorem link?_eq_none_of_links {t : FileTree} (h : t.links = []) (place : Place) :
    t.link? place = none := by rw [link?, h, List.lookup_nil]

end FileTree

end SwiftStyle
