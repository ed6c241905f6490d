import SwiftStyle.Files.Discovery
import SwiftStyle.Proofs.Files.Links

/-!
# Proofs/Files/Discovery — what is discovered, and in which form

`sorted` gives back a strictly increasing list (`increasing_sorted`), and of a list of canonical
paths it loses nothing (`mem_sorted_iff`).  In a well-formed tree every discovered path is canonical
and leads to a file, so discovery is the union of its roots (`mem_discover_iff`) and sees of each
root only its absolute form.
-/

open Std

namespace SwiftStyle

namespace Discovery

/-! ## Sorting and dropping repeats -/

/-- A path is put before others; it takes the place of the first if that names the same steps. -/
theorem dropRepeats_cons (p : Path) (l : List Path) :
    dropRepeats (p :: l) = match dropRepeats l with
      | [] => [p]
      | r :: more => if p.sameSteps r then p :: more else p :: r :: more := by
  cases l with
  | nil => rfl
  | cons q l => rfl

theorem mem_of_mem_dropRepeats {l : List Path} {p : Path} (h : p ∈ dropRepeats l) : p ∈ l := by
  induction l with
  | nil => exact h
  | cons q l ih =>
    rw [dropRepeats_cons] at h
    cases hl : dropRepeats l with
    | nil => simp_all
    | cons r more =>
      rw [hl] at h ih
      have hcons : p ∈ q :: r :: more := by
        simp only at h
        split at h
        · exact List.mem_cons.2 ((List.mem_cons.1 h).imp_right (List.mem_cons_of_mem r))
        · exact h
      exact List.mem_cons.2 ((List.mem_cons.1 hcons).imp_right ih)

/-- **Of every path some spelling is kept.** -/
theorem exists_mem_dropRepeats {l : List Path} {p : Path} (h : p ∈ l) :
    ∃ q ∈ dropRepeats l, q.components = p.components := by
  induction l with
  | nil => simp at h
  | cons q l ih =>
    rw [dropRepeats_cons]
    cases hl : dropRepeats l with
    | nil =>
      rw [hl] at ih
      rcases List.mem_cons.1 h with rfl | h
      · exact ⟨p, by simp⟩
      · simpa using ih h
    | cons r more =>
      rw [hl] at ih
      simp only
      split
      · next hsame =>
        rcases List.mem_cons.1 h with rfl | h
        · exact ⟨p, by simp⟩
        · obtain ⟨s, hs, hcomponents⟩ := ih h
          rcases List.mem_cons.1 hs with rfl | hs
          · exact ⟨q, by simp, (Path.sameSteps_iff.1 hsame).trans hcomponents⟩
          · exact ⟨s, by simp [hs], hcomponents⟩
      · rcases List.mem_cons.1 h with rfl | h
        · exact ⟨p, by simp⟩
        · obtain ⟨s, hs, hcomponents⟩ := ih h
          exact ⟨s, List.mem_cons_of_mem q hs, hcomponents⟩

/-- **Without repeats an ordered list is strictly increasing.** -/
theorem increasing_dropRepeats {l : List Path} (h : l.Pairwise fun p q => (compare p q).isLE) :
    Increasing (dropRepeats l) := by
  induction l with
  | nil => exact List.Pairwise.nil
  | cons p l ih =>
    obtain ⟨hp, hl⟩ := List.pairwise_cons.1 h
    have ih := ih hl
    have hle : ∀ q ∈ dropRepeats l, (compare p q).isLE := fun q hq =>
      hp q (mem_of_mem_dropRepeats hq)
    rw [dropRepeats_cons]
    cases hdrop : dropRepeats l with
    | nil => exact List.pairwise_singleton _ p
    | cons r more =>
      rw [hdrop] at ih hle
      obtain ⟨hr, hmore⟩ := List.pairwise_cons.1 ih
      simp only
      split
      · next hsame =>
        have heq : compare p r = .eq := Path.compare_eq_iff.2 (Path.sameSteps_iff.1 hsame)
        exact List.pairwise_cons.2 ⟨fun q hq => TransCmp.lt_of_eq_of_lt heq (hr q hq), hmore⟩
      · next hdiffer =>
        have hlt : compare p r = .lt := by
          rcases Ordering.isLE_iff_eq_lt_or_eq_eq.1 (hle r List.mem_cons_self) with hlt | heq
          · exact hlt
          · exact absurd (Path.sameSteps_iff.2 (Path.compare_eq_iff.1 heq)) hdiffer
        refine List.pairwise_cons.2 ⟨fun q hq => ?_, ih⟩
        rcases List.mem_cons.1 hq with rfl | hq
        · exact hlt
        · exact TransCmp.lt_trans hlt (hr q hq)

/-- **A strictly increasing list has no repeats.** -/
theorem dropRepeats_eq_self {l : List Path} (h : Increasing l) : dropRepeats l = l := by
  have hordered : l.Pairwise fun p q => (compare p q).isLE := h.imp fun hlt => by simp [hlt]
  refine (increasing_dropRepeats hordered).eq_of_mem_iff h fun p => ?_
  refine ⟨mem_of_mem_dropRepeats, fun hp => ?_⟩
  obtain ⟨q, hq, hcomponents⟩ := exists_mem_dropRepeats hp
  obtain rfl : q = p :=
    h.eq_of_compare (mem_of_mem_dropRepeats hq) hp (Path.compare_eq_iff.2 hcomponents)
  exact hq

/-- **Sorted paths are strictly increasing.** -/
theorem increasing_sorted (l : List Path) : Increasing (sorted l) :=
  increasing_dropRepeats (isStableSort_mergeSort l).ordered

theorem mem_of_mem_sorted {l : List Path} {p : Path} (h : p ∈ sorted l) : p ∈ l :=
  List.mem_mergeSort.1 (mem_of_mem_dropRepeats h)

/-- **Sorting loses no canonical path.** -/
theorem mem_sorted_iff {l : List Path} (hl : ∀ p ∈ l, p.IsCanonical) {p : Path} :
    p ∈ sorted l ↔ p ∈ l := by
  refine ⟨mem_of_mem_sorted, fun hp => ?_⟩
  obtain ⟨q, hq, hcomponents⟩ := exists_mem_dropRepeats (List.mem_mergeSort.2 hp)
  rwa [← (hl q (mem_of_mem_sorted hq)).ext (hl p hp) hcomponents]

/-- **Discovered paths are strictly increasing.** -/
theorem increasing_discover (d : Discovery) (t : FileTree) (roots : List Path) :
    Increasing (d.discover t roots) := increasing_sorted _

/-- Files that the roots list in order need no sorting. -/
theorem discover_eq_dropRepeats {d : Discovery} {t : FileTree} {roots l : List Path}
    (hl : roots.flatMap (d.filesOf t) = l) (hordered : l.Pairwise fun p q => (compare p q).isLE) :
    d.discover t roots = dropRepeats l := by
  rw [discover, sorted, hl, List.mergeSort_of_pairwise hordered]

/-- Files that the roots list in strictly increasing order stay as they are. -/
theorem discover_eq_of_increasing {d : Discovery} {t : FileTree} {roots l : List Path}
    (hl : roots.flatMap (d.filesOf t) = l) (hincreasing : Increasing l) :
    d.discover t roots = l := by
  have hordered : l.Pairwise fun p q => (compare p q).isLE := hincreasing.imp fun h => by simp [h]
  rw [discover_eq_dropRepeats hl hordered, dropRepeats_eq_self hincreasing]

/-! ## One root -/

theorem wayBelow?_eq_some {root place way : Place} :
    wayBelow? root place = some way ↔ place = root ++ way := by
  induction root generalizing place with
  | nil => simp [wayBelow?]
  | cons r root ih =>
    cases place with
    | nil => simp [wayBelow?]
    | cons p place =>
      by_cases hrp : r = p
      · simp [wayBelow?, hrp, ih]
      · simp [wayBelow?, hrp, Ne.symm hrp]

/-- **A walk yields the ways to files that it reaches.** -/
theorem mem_walk_iff {d : Discovery} {t : FileTree} {root way : Place} :
    way ∈ d.walk t root ↔
      (∃ bytes, (root ++ way, .file bytes) ∈ t.entries) ∧ d.reaches t root way = true := by
  rw [walk, List.mem_filterMap]
  constructor
  · rintro ⟨⟨place, entry⟩, hentry, h⟩
    cases entry with
    | directory => simp at h
    | file bytes =>
      cases hbelow : wayBelow? root place with
      | none => simp [hbelow] at h
      | some found =>
        obtain rfl := wayBelow?_eq_some.1 hbelow
        obtain ⟨hreaches, rfl⟩ : d.reaches t root found = true ∧ found = way := by
          simpa [hbelow] using h
        exact ⟨⟨bytes, hentry⟩, hreaches⟩
  · rintro ⟨⟨bytes, hentry⟩, hreaches⟩
    refine ⟨_, hentry, ?_⟩
    have hbelow : wayBelow? root (root ++ way) = some way := wayBelow?_eq_some.2 rfl
    simp [hbelow, hreaches]

theorem ne_nil_of_reaches {d : Discovery} {t : FileTree} {root way : Place}
    (h : d.reaches t root way = true) : way ≠ [] := by
  rintro rfl
  simp [reaches] at h

/-- **The files of a root**: the root itself when it is a file, the files that a walk yields when it
is a directory, and of these the accepted ones. -/
theorem mem_filesOf_iff {d : Discovery} {t : FileTree} {root p : Path} :
    p ∈ d.filesOf t root ↔ d.accepts p = true ∧ ∃ place, t.resolve (t.absolute root) = .ok place ∧
      ((∃ bytes, t.get? place = some (.file bytes)) ∧ p = t.absolute root ∨
        t.get? place = some .directory ∧
          ∃ way ∈ d.walk t place, p = (t.absolute root).join ⟨"/".intercalate way⟩) := by
  unfold filesOf
  dsimp only
  split
  · next e he =>
    rw [he]
    simp only [reduceCtorEq, false_and, exists_false, and_false, List.not_mem_nil]
  · next place hplace =>
    rw [hplace]
    simp only [Except.ok.injEq, exists_eq_left']
    split
    · next hnone => simp [hnone]
    · next bytes hfile =>
      simp only [hfile, List.mem_filter, List.mem_singleton, Option.some.injEq, Entry.file.injEq,
        exists_eq', true_and, reduceCtorEq, false_and, or_false]
      rw [and_comm]
    · next hdirectory =>
      simp only [hdirectory, List.mem_filter, List.mem_map, Option.some.injEq, reduceCtorEq,
        exists_false, false_and, true_and, false_or]
      rw [and_comm]
      simp only [eq_comm]

/-- **A root counts through its absolute form.** -/
theorem filesOf_congr {d : Discovery} {t : FileTree} {root root' : Path}
    (h : t.absolute root = t.absolute root') : d.filesOf t root = d.filesOf t root' := by
  unfold filesOf
  rw [h]

/-- **An accepted file is discovered by its own path.** -/
theorem mem_filesOf_self {d : Discovery} {t : FileTree} {root : Path} {place : Place}
    {bytes : ByteArray} (haccepts : d.accepts (t.absolute root) = true)
    (hplace : t.resolve (t.absolute root) = .ok place)
    (hfile : t.get? place = some (.file bytes)) : t.absolute root ∈ d.filesOf t root :=
  mem_filesOf_iff.2 ⟨haccepts, place, hplace, .inl ⟨⟨bytes, hfile⟩, rfl⟩⟩

section WellFormed

variable {d : Discovery} {t : FileTree} (ht : t.WellFormed)
include ht

/-- **A discovered path is canonical.** -/
theorem isCanonical_of_mem_filesOf {root p : Path} (h : p ∈ d.filesOf t root) : p.IsCanonical := by
  obtain ⟨_, place, _, ⟨_, rfl⟩ | ⟨_, way, hway, rfl⟩⟩ := mem_filesOf_iff.1 h
  · exact t.isCanonical_absolute root
  · obtain ⟨⟨bytes, hentry⟩, hreaches⟩ := mem_walk_iff.1 hway
    have hnames := (ht.names _ hentry).2
    exact (t.isCanonical_absolute root).join_names (ne_nil_of_reaches hreaches) fun name hname =>
      hnames name (List.mem_append_right place hname)

/-- **A discovered path leads to a file.** -/
theorem resolve_of_mem_filesOf {root p : Path} (h : p ∈ d.filesOf t root) :
    ∃ place bytes, t.resolve p = .ok place ∧ t.get? place = some (.file bytes) := by
  obtain ⟨_, place, hplace, ⟨⟨bytes, hfile⟩, rfl⟩ | ⟨_, way, hway, rfl⟩⟩ := mem_filesOf_iff.1 h
  · exact ⟨place, bytes, hplace, hfile⟩
  · obtain ⟨⟨bytes, hentry⟩, hreaches⟩ := mem_walk_iff.1 hway
    have hfile := ht.get?_of_mem hentry
    exact ⟨place ++ way, bytes, ht.resolve_join (t.isCanonical_absolute root)
      (ne_nil_of_reaches hreaches) hplace hfile, hfile⟩

/-! ## All roots -/

/-- **Discovery is the union of its roots.** -/
theorem mem_discover_iff {roots : List Path} {p : Path} :
    p ∈ d.discover t roots ↔ ∃ root ∈ roots, p ∈ d.filesOf t root := by
  rw [discover, mem_sorted_iff, List.mem_flatMap]
  intro q hq
  obtain ⟨root, _, hq⟩ := List.mem_flatMap.1 hq
  exact isCanonical_of_mem_filesOf ht hq

theorem isCanonical_of_mem_discover {roots : List Path} {p : Path} (h : p ∈ d.discover t roots) :
    p.IsCanonical := by
  obtain ⟨root, _, hp⟩ := (mem_discover_iff ht).1 h
  exact isCanonical_of_mem_filesOf ht hp

theorem mem_discover_append {roots roots' : List Path} {p : Path} :
    p ∈ d.discover t (roots ++ roots') ↔ p ∈ d.discover t roots ∨ p ∈ d.discover t roots' := by
  simp only [mem_discover_iff ht, List.mem_append, or_and_right, exists_or]

/-- **Discovery sees of its roots only which absolute forms they have.** -/
theorem discover_congr {roots roots' : List Path}
    (h : ∀ p, p ∈ roots.map t.absolute ↔ p ∈ roots'.map t.absolute) :
    d.discover t roots = d.discover t roots' := by
  have hsub : ∀ {roots roots' : List Path},
      (∀ p, p ∈ roots.map t.absolute → p ∈ roots'.map t.absolute) →
      ∀ p, p ∈ d.discover t roots → p ∈ d.discover t roots' := by
    intro roots roots' h p hp
    obtain ⟨root, hroot, hp⟩ := (mem_discover_iff ht).1 hp
    obtain ⟨root', hroot', heq⟩ := List.mem_map.1 (h _ (List.mem_map_of_mem hroot))
    rw [← filesOf_congr heq] at hp
    exact (mem_discover_iff ht).2 ⟨root', hroot', hp⟩
  exact (increasing_discover d t roots).eq_of_mem_iff (increasing_discover d t roots') fun p =>
    ⟨hsub (fun q => (h q).1) p, hsub (fun q => (h q).2) p⟩

theorem discover_append_comm {roots roots' : List Path} :
    d.discover t (roots ++ roots') = d.discover t (roots' ++ roots) :=
  discover_congr ht fun p => by simp only [List.map_append, List.mem_append, or_comm]

/-- **A discovered file that is given as a root is discovered again.** -/
theorem mem_discover_of_mem_map {roots changed : List Path} {p : Path}
    (hp : p ∈ d.discover t roots) (hchanged : p ∈ changed.map t.absolute) :
    p ∈ d.discover t changed := by
  obtain ⟨root, _, hp⟩ := (mem_discover_iff ht).1 hp
  obtain ⟨c, hc, rfl⟩ := List.mem_map.1 hchanged
  obtain ⟨place, bytes, hplace, hfile⟩ := resolve_of_mem_filesOf ht hp
  exact (mem_discover_iff ht).2
    ⟨c, hc, mem_filesOf_self (mem_filesOf_iff.1 hp).1 hplace hfile⟩

end WellFormed

end Discovery

end SwiftStyle
