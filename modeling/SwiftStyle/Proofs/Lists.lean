import Mathlib.Data.List.Pairwise
import Mathlib.Data.List.Sort

/-!
# Proofs/Lists — lists in order, and what a stable sort gives back

A strictly increasing list is determined by its elements (`Increasing.eq_of_mem_iff`) and has one
last element that satisfies a property (`Increasing.exists_isLast`, `IsLast.unique`).
`IsStableSort` says what sorting must give back; it pins the result down (`IsStableSort.unique`), so
`eq_mergeSort_iff` replaces the algorithm by its specification.
-/

open Std

namespace SwiftStyle

/-! ## Strictly increasing lists -/

/-- A list in strictly increasing order. -/
def Increasing {α : Type} [Ord α] (l : List α) : Prop := l.Pairwise fun a b => compare a b = .lt

instance {α : Type} [Ord α] (l : List α) : Decidable (Increasing l) :=
  inferInstanceAs (Decidable (l.Pairwise fun a b => compare a b = .lt))

section Increasing

variable {α : Type} [Ord α] [TransOrd α]

/-- **A strictly increasing list is determined by its elements.** -/
theorem Increasing.eq_of_mem_iff {l₁ l₂ : List α} (h₁ : Increasing l₁) (h₂ : Increasing l₂)
    (h : ∀ a, a ∈ l₁ ↔ a ∈ l₂) : l₁ = l₂ := by
  have : Antisymm fun a b : α => compare a b = .lt :=
    ⟨fun a b hab hba => absurd hba (OrientedCmp.not_lt_of_lt hab)⟩
  have : Irrefl fun a b : α => compare a b = .lt :=
    ⟨fun a ha => by simp [ReflOrd.compare_self] at ha⟩
  exact List.Pairwise.eq_of_mem_iff h₁ h₂ h

/-- The element that satisfies `P` and has no other such element above it. -/
structure IsLast (l : List α) (P : α → Prop) (a : α) : Prop where
  mem : a ∈ l
  holds : P a
  above : ∀ b ∈ l, P b → (compare b a).isLE

/-- **In a strictly increasing list the last element that satisfies `P` is the greatest.** -/
theorem Increasing.isLast_of_getLast? {l : List α} {P : α → Prop} [DecidablePred P]
    (hl : Increasing l) {a : α} (h : (l.filter P).getLast? = some a) : IsLast l P a := by
  obtain ⟨before, hbefore⟩ := List.getLast?_eq_some_iff.1 h
  have ha : a ∈ l.filter P := hbefore ▸ List.mem_append_right _ List.mem_cons_self
  refine ⟨(List.mem_filter.1 ha).1, by simpa using (List.mem_filter.1 ha).2, fun b hb hP => ?_⟩
  have hb : b ∈ before ++ [a] := hbefore ▸ List.mem_filter.2 ⟨hb, by simpa using hP⟩
  rcases List.mem_append.1 hb with hb | hb
  · have hpairs : Increasing (before ++ [a]) := hbefore ▸ hl.filter _
    rw [(List.pairwise_append.1 hpairs).2.2 b hb a List.mem_cons_self]
    rfl
  · obtain rfl := List.mem_singleton.1 hb
    exact ReflOrd.isLE_rfl

/-- **In a strictly increasing list there is a last among the elements that satisfy `P`.** -/
theorem Increasing.exists_isLast {l : List α} {P : α → Prop} (hl : Increasing l)
    (h : ∃ a ∈ l, P a) : ∃ a, IsLast l P a := by
  classical
  obtain ⟨a, ha, hP⟩ := h
  have hne : l.filter P ≠ [] := List.ne_nil_of_mem (List.mem_filter.2 ⟨ha, by simpa using hP⟩)
  cases hlast : (l.filter P).getLast? with
  | none => exact absurd (List.getLast?_eq_none_iff.1 hlast) hne
  | some b => exact ⟨b, hl.isLast_of_getLast? hlast⟩

/-- **There is a last element that satisfies `P`, or none satisfies it.** -/
theorem Increasing.isLast_or_forall_not {l : List α} (hl : Increasing l) (P : α → Prop) :
    (∃ a, IsLast l P a) ∨ ∀ a ∈ l, ¬P a := by
  by_cases h : ∃ a ∈ l, P a
  · exact .inl (hl.exists_isLast h)
  · exact .inr fun a ha hP => h ⟨a, ha, hP⟩

/-- Elements of a strictly increasing list that compare equal are equal. -/
theorem Increasing.eq_of_compare {l : List α} (hl : Increasing l) {a b : α} (ha : a ∈ l)
    (hb : b ∈ l) (h : compare a b = .eq) : a = b := by
  have : Symm fun a b : α => compare a b ≠ .eq :=
    ⟨fun _ _ hab hba => hab (OrientedCmp.eq_symm hba)⟩
  have hdistinct : l.Pairwise fun a b => compare a b ≠ .eq := hl.imp fun hab => by simp [hab]
  by_contra hne
  exact hdistinct.forall ha hb hne h

/-- **A strictly increasing list has one last element that satisfies `P`.** -/
theorem IsLast.unique {l : List α} {P : α → Prop} (hl : Increasing l) {a b : α}
    (ha : IsLast l P a) (hb : IsLast l P b) : a = b :=
  hl.eq_of_compare ha.mem hb.mem <|
    OrientedCmp.isLE_antisymm (hb.above a ha.mem ha.holds) (ha.above b hb.mem hb.holds)

end Increasing

/-! ## Looking up keys -/

/-- **With distinct keys, what is listed under a key is found there.** -/
theorem lookup_of_mem {α β : Type} [BEq α] [LawfulBEq α] {l : List (α × β)} {a : α} {b : β}
    (hl : (l.map (·.1)).Nodup) (h : (a, b) ∈ l) : l.lookup a = some b := by
  induction l with
  | nil => simp at h
  | cons x l ih =>
    obtain ⟨k, v⟩ := x
    obtain ⟨hk, hl⟩ := List.nodup_cons.1 hl
    rcases List.mem_cons.1 h with he | h
    · obtain ⟨rfl, rfl⟩ := Prod.mk.inj he
      simp
    · have hne : a ≠ k := fun he => hk (he ▸ List.mem_map.2 ⟨(a, b), h, rfl⟩)
      rw [List.lookup_cons, beq_false_of_ne hne]
      exact ih hl h

theorem mem_of_lookup {α β : Type} [BEq α] [LawfulBEq α] {l : List (α × β)} {a : α} {b : β}
    (h : l.lookup a = some b) : (a, b) ∈ l := by
  obtain ⟨before, after, rfl, _⟩ := List.lookup_eq_some_iff.1 h
  simp

/-- **The greatest of some numbers** is none below them, and none below the one to start with. -/
theorem le_foldl_max {α : Type} (f : α → Nat) (l : List α) (n : Nat) :
    n ≤ l.foldl (fun n a => max n (f a)) n ∧ ∀ a ∈ l, f a ≤ l.foldl (fun n a => max n (f a)) n := by
  induction l generalizing n with
  | nil => simp
  | cons b l ih =>
    obtain ⟨hle, hall⟩ := ih (max n (f b))
    exact ⟨(Nat.le_max_left _ _).trans hle,
      List.forall_mem_cons.2 ⟨(Nat.le_max_right _ _).trans hle, hall⟩⟩

/-! ## Lists of blocks -/

/-- **Blocks that are empty but for one come to that one.** -/
theorem flatMap_eq_of_unique {α β : Type} {l : List α} {f : α → List β} {a : α} (hl : l.Nodup)
    (ha : a ∈ l) (h : ∀ b ∈ l, b ≠ a → f b = []) : l.flatMap f = f a := by
  obtain ⟨before, after, rfl⟩ := List.append_of_mem ha
  obtain ⟨_, hafter, hbefore⟩ := List.nodup_append.1 hl
  have hnil : ∀ part : List α, (∀ b ∈ part, b ∈ before ++ a :: after ∧ b ≠ a) →
      part.flatMap f = [] := fun part hpart =>
    List.flatMap_eq_nil_iff.2 fun b hb => h b (hpart b hb).1 (hpart b hb).2
  rw [List.flatMap_append, List.flatMap_cons, hnil before, hnil after, List.nil_append,
    List.append_nil]
  · refine fun b hb => ⟨by simp [hb], ?_⟩
    rintro rfl
    exact (List.nodup_cons.1 hafter).1 hb
  · refine fun b hb => ⟨by simp [hb], fun he => ?_⟩
    exact hbefore b hb a List.mem_cons_self he

/-- Elements with empty blocks may be left out. -/
theorem flatMap_filter_of_nil {α β : Type} {l : List α} {keep : α → Bool} {f : α → List β}
    (h : ∀ a ∈ l, keep a = false → f a = []) : (l.filter keep).flatMap f = l.flatMap f := by
  induction l with
  | nil => rfl
  | cons a l ih =>
    have ih := ih fun b hb => h b (List.mem_cons_of_mem a hb)
    cases hkeep : keep a with
    | true => rw [List.filter_cons_of_pos hkeep, List.flatMap_cons, List.flatMap_cons, ih]
    | false =>
      rw [List.filter_cons_of_neg (by simp [hkeep]), List.flatMap_cons, h a List.mem_cons_self hkeep,
        List.nil_append, ih]

/-- **What is found in fewer places** is part of what is found in all. -/
theorem filterMap_sublist_filterMap {α β : Type} {l : List α} {f g : α → Option β}
    (h : ∀ a ∈ l, ∀ b, f a = some b → g a = some b) : (l.filterMap f).Sublist (l.filterMap g) := by
  induction l with
  | nil => exact .slnil
  | cons a l ih =>
    have ih := ih fun c hc => h c (List.mem_cons_of_mem a hc)
    cases hf : f a with
    | some b =>
      rw [List.filterMap_cons_some hf,
        List.filterMap_cons_some (h a List.mem_cons_self b hf)]
      exact ih.cons_cons b
    | none =>
      rw [List.filterMap_cons_none hf, List.filterMap_cons]
      split
      · exact ih
      · exact ih.cons _

/-! ## Stable sorts -/

/-- **What a stable sort gives back**: the same elements, in order, and those that compare equal as
they stood before. -/
structure IsStableSort {α : Type} (cmp : α → α → Ordering) (source sorted : List α) : Prop where
  perm : sorted.Perm source
  ordered : sorted.Pairwise fun a b => (cmp a b).isLE
  stable : ∀ a, sorted.filter (cmp a · == .eq) = source.filter (cmp a · == .eq)

section StableSort

variable {α : Type} {cmp : α → α → Ordering} [TransCmp cmp]

/-- The elements that compare equal to one of them are in order as they stand. -/
theorem pairwise_filter_eq (l : List α) (a : α) :
    (l.filter (cmp a · == .eq)).Pairwise fun b c => (cmp b c).isLE := by
  refine List.Pairwise.imp_of_mem (fun {b c} hb hc _ => ?_)
    (List.pairwise_of_forall fun _ _ => trivial)
  have hb : cmp a b = .eq := by simpa using (List.mem_filter.1 hb).2
  have hc : cmp a c = .eq := by simpa using (List.mem_filter.1 hc).2
  rw [TransCmp.eq_trans (OrientedCmp.eq_symm hb) hc]
  rfl

theorem isLE_total (a b : α) : ((cmp a b).isLE || (cmp b a).isLE) = true := by
  have hswap : cmp b a = (cmp a b).swap := OrientedCmp.eq_swap
  rw [hswap]
  cases cmp a b <;> rfl

/-- **Merge sort is a stable sort.** -/
theorem isStableSort_mergeSort (l : List α) :
    IsStableSort cmp l (l.mergeSort fun a b => (cmp a b).isLE) where
  perm := List.mergeSort_perm l _
  ordered := List.pairwise_mergeSort (fun _ _ _ => TransCmp.isLE_trans) isLE_total l
  stable a := by
    -- a class of equals is in order, so it stays a sublist; it cannot have grown
    have hsub : (l.filter (cmp a · == .eq)).Sublist (l.mergeSort fun a b => (cmp a b).isLE) :=
      List.sublist_mergeSort (fun _ _ _ => TransCmp.isLE_trans) isLE_total
        (pairwise_filter_eq l a) List.filter_sublist
    have hclass := hsub.filter (cmp a · == .eq)
    rw [List.filter_filter] at hclass
    simp only [Bool.and_self] at hclass
    have hlength := ((List.mergeSort_perm l fun a b => (cmp a b).isLE).filter
      (cmp a · == .eq)).length_eq
    exact (hclass.eq_of_length hlength.symm).symm

/-- The first elements of two ordered lists with the same classes are equal. -/
theorem compare_heads {a b : α} {l₁ l₂ : List α}
    (h₁ : (a :: l₁).Pairwise fun a b => (cmp a b).isLE)
    (h : ∀ c, (a :: l₁).filter (cmp c · == .eq) = (b :: l₂).filter (cmp c · == .eq)) :
    (cmp a b).isLE := by
  have hb : b ∈ (a :: l₁).filter (cmp b · == .eq) := by
    rw [h b]
    exact List.mem_filter.2 ⟨List.mem_cons_self, by simp [ReflCmp.compare_self]⟩
  rcases List.mem_cons.1 (List.mem_filter.1 hb).1 with rfl | hb
  · exact ReflCmp.isLE_rfl
  · exact List.rel_of_pairwise_cons h₁ hb

/-- **An ordered list is determined by its classes of equals.** -/
theorem eq_of_classes {l₁ l₂ : List α} (h₁ : l₁.Pairwise fun a b => (cmp a b).isLE)
    (h₂ : l₂.Pairwise fun a b => (cmp a b).isLE)
    (h : ∀ c, l₁.filter (cmp c · == .eq) = l₂.filter (cmp c · == .eq)) : l₁ = l₂ := by
  induction l₁ generalizing l₂ with
  | nil =>
    cases l₂ with
    | nil => rfl
    | cons b l₂ => simpa [ReflCmp.compare_self] using h b
  | cons a l₁ ih =>
    cases l₂ with
    | nil => simpa [ReflCmp.compare_self] using h a
    | cons b l₂ =>
      have hab : cmp a b = .eq :=
        OrientedCmp.isLE_antisymm (compare_heads h₁ h) (compare_heads h₂ fun c => (h c).symm)
      -- the heads stand first in their common class
      obtain rfl : a = b := by
        have hc := h a
        rw [List.filter_cons_of_pos (by simp [ReflCmp.compare_self]),
          List.filter_cons_of_pos (by simp [hab])] at hc
        exact (List.cons.inj hc).1
      refine congrArg (a :: ·) (ih h₁.of_cons h₂.of_cons fun c => ?_)
      have hc := h c
      by_cases hca : cmp c a = .eq
      · rw [List.filter_cons_of_pos (by simp [hca]), List.filter_cons_of_pos (by simp [hca])] at hc
        exact (List.cons.inj hc).2
      · rwa [List.filter_cons_of_neg (by simp [hca]), List.filter_cons_of_neg (by simp [hca])] at hc

/-- **A list has one stable sort.** -/
theorem IsStableSort.unique {l l₁ l₂ : List α} (h₁ : IsStableSort cmp l l₁)
    (h₂ : IsStableSort cmp l l₂) : l₁ = l₂ :=
  eq_of_classes h₁.ordered h₂.ordered fun c => (h₁.stable c).trans (h₂.stable c).symm

/-- **Merge sort gives the stable sort and nothing else.** -/
theorem eq_mergeSort_iff {l sorted : List α} :
    sorted = l.mergeSort (fun a b => (cmp a b).isLE) ↔ IsStableSort cmp l sorted :=
  ⟨fun h => h ▸ isStableSort_mergeSort l, fun h => h.unique (isStableSort_mergeSort l)⟩

/-- **Where distinct elements do not compare equal**, only one arrangement is in order. -/
theorem eq_mergeSort_iff_of_distinct {l sorted : List α}
    (hl : ∀ a ∈ l, ∀ b ∈ l, cmp a b = .eq → a = b) :
    sorted = l.mergeSort (fun a b => (cmp a b).isLE) ↔
      sorted.Perm l ∧ sorted.Pairwise fun a b => (cmp a b).isLE := by
  have hsort : IsStableSort cmp l _ := isStableSort_mergeSort l
  constructor
  · rintro rfl
    exact ⟨hsort.perm, hsort.ordered⟩
  · rintro ⟨hperm, hordered⟩
    refine List.Perm.eq_of_pairwise (fun a b ha hb hab hba => ?_) hordered hsort.ordered
      (hperm.trans hsort.perm.symm)
    exact hl a (hperm.mem_iff.1 ha) b (hsort.perm.mem_iff.1 hb) (OrientedCmp.isLE_antisymm hab hba)

/-- **What is sorted beforehand** is sorted again into the same order. -/
theorem mergeSort_append_left (l l' : List α) :
    (l.mergeSort (fun a b => (cmp a b).isLE) ++ l').mergeSort (fun a b => (cmp a b).isLE)
      = (l ++ l').mergeSort fun a b => (cmp a b).isLE := by
  have hsorted : IsStableSort cmp l _ := isStableSort_mergeSort l
  have hwhole : IsStableSort cmp (l.mergeSort (fun a b => (cmp a b).isLE) ++ l') _ :=
    isStableSort_mergeSort _
  refine eq_mergeSort_iff.2 ⟨hwhole.perm.trans (hsorted.perm.append_right l'), hwhole.ordered,
    fun a => ?_⟩
  rw [hwhole.stable, List.filter_append, List.filter_append, hsorted.stable]

/-- **A class of equals that stands in one block** is the same however the blocks are ordered. -/
theorem filter_flatMap_perm {β : Type} {l l' : List β} {f : β → List α} (hl : l.Nodup)
    (hperm : l'.Perm l)
    (hblock : ∀ b ∈ l, ∀ b' ∈ l, ∀ a ∈ f b, ∀ a' ∈ f b', cmp a a' = .eq → b' = b) (a : α) :
    (l'.flatMap f).filter (cmp a · == .eq) = (l.flatMap f).filter (cmp a · == .eq) := by
  rw [List.filter_flatMap, List.filter_flatMap]
  by_cases hex : ∃ b ∈ l, ∃ a' ∈ f b, cmp a a' = .eq
  · obtain ⟨b, hb, a', ha', haa'⟩ := hex
    have hother : ∀ b' ∈ l, b' ≠ b → (f b').filter (cmp a · == .eq) = [] := by
      intro b' hb' hne
      refine List.filter_eq_nil_iff.2 fun c hc hac => hne ?_
      exact hblock b hb b' hb' a' ha' c hc
        (TransCmp.eq_trans (OrientedCmp.eq_symm haa') (beq_iff_eq.1 hac))
    rw [flatMap_eq_of_unique hl hb hother, flatMap_eq_of_unique (hperm.symm.nodup hl)
      (hperm.mem_iff.2 hb) fun b' hb' => hother b' (hperm.mem_iff.1 hb')]
  · have hnone : ∀ b ∈ l, (f b).filter (cmp a · == .eq) = [] := fun b hb =>
      List.filter_eq_nil_iff.2 fun c hc hac => hex ⟨b, hb, c, hc, beq_iff_eq.1 hac⟩
    rw [List.flatMap_eq_nil_iff.2 hnone,
      List.flatMap_eq_nil_iff.2 fun b hb => hnone b (hperm.mem_iff.1 hb)]

end StableSort

end SwiftStyle
