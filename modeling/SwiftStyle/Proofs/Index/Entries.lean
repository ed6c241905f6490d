import SwiftStyle.Index.Basic
import SwiftStyle.Proofs.Lists

/-!
# Proofs/Index/Entries — an index is what it answers

Two indices that answer alike are equal (`DeclarationIndex.ext`).  Merging changes no answer for a
name without a pair (`get?_merge_of_forall_ne`), and the names of one file are answered with that
file (`get?_merge_map`).
-/

namespace SwiftStyle

namespace DeclarationIndex

theorem nodup_names (i : DeclarationIndex) : (i.entries.map (·.1)).Nodup := by
  refine List.pairwise_map.2 (i.ordered.imp fun hlt heq => ?_)
  exact String.lt_irrefl _ (heq ▸ hlt)

theorem mem_entries_iff {i : DeclarationIndex} {name path : String} :
    (name, path) ∈ i.entries ↔ i.get? name = some path :=
  ⟨lookup_of_mem i.nodup_names, mem_of_lookup⟩

/-- **Indices that answer alike are equal.** -/
theorem ext {i j : DeclarationIndex} (h : ∀ name, i.get? name = j.get? name) : i = j := by
  have hentries : i.entries = j.entries := by
    have : Std.Antisymm fun a b : String × String => a.1 < b.1 :=
      ⟨fun a b hab hba => absurd (String.lt_trans hab hba) (String.lt_irrefl a.1)⟩
    have : Std.Irrefl fun a b : String × String => a.1 < b.1 := ⟨fun a => String.lt_irrefl a.1⟩
    refine List.Pairwise.eq_of_mem_iff i.ordered j.ordered fun ⟨name, path⟩ => ?_
    rw [mem_entries_iff, mem_entries_iff, h]
  obtain ⟨entries, _⟩ := i
  obtain ⟨entries', _⟩ := j
  obtain rfl : entries = entries' := hentries
  rfl

/-! ## Merging -/

theorem merge_append (i : DeclarationIndex) (pairs pairs' : List (String × String)) :
    i.merge (pairs ++ pairs') = (i.merge pairs).merge pairs' := List.foldl_append

/-- **The last pair of a name counts**, and a name without a pair keeps its answer. -/
theorem get?_merge (i : DeclarationIndex) (pairs : List (String × String)) (name : String) :
    (i.merge pairs).get? name = (pairs.reverse.lookup name).or (i.get? name) := by
  induction pairs generalizing i with
  | nil => rfl
  | cons pair pairs ih =>
    have hcons : i.merge (pair :: pairs) = (i.insert pair.1 pair.2).merge pairs := rfl
    rw [hcons, ih, get?_insert, List.reverse_cons, List.lookup_append, lookup_cons_eq]
    by_cases hname : name = pair.1 <;> simp [hname]

/-- A name without a pair keeps its answer. -/
theorem get?_merge_of_forall_ne {i : DeclarationIndex} {pairs : List (String × String)}
    {name : String} (h : ∀ pair ∈ pairs, pair.1 ≠ name) :
    (i.merge pairs).get? name = i.get? name := by
  induction pairs generalizing i with
  | nil => rfl
  | cons pair pairs ih =>
    have hpair := h pair List.mem_cons_self
    calc (i.merge (pair :: pairs)).get? name
        = ((i.insert pair.1 pair.2).merge pairs).get? name := rfl
      _ = (i.insert pair.1 pair.2).get? name := ih fun p hp => h p (List.mem_cons_of_mem _ hp)
      _ = i.get? name := by rw [get?_insert, if_neg hpair.symm]

/-- **The names of one file are answered with that file.** -/
theorem get?_merge_map {i : DeclarationIndex} {names : List String} {name path : String}
    (h : name ∈ names) : (i.merge (names.map (·, path))).get? name = some path := by
  induction names generalizing i with
  | nil => simp at h
  | cons first names ih =>
    have hcons : i.merge ((first :: names).map (·, path))
        = (i.insert first path).merge (names.map (·, path)) := rfl
    rw [hcons]
    by_cases hin : name ∈ names
    · exact ih hin
    · have hfirst : name = first := (List.mem_cons.1 h).resolve_right hin
      rw [get?_merge_of_forall_ne, get?_insert, if_pos hfirst]
      rintro pair hpair rfl
      obtain ⟨other, hother, rfl⟩ := List.mem_map.1 hpair
      exact hin hother

end DeclarationIndex

end SwiftStyle
