/-!
# Index/Basic — where declarations are defined

An index maps names of declarations to paths of files. Its entries are kept in the order of their
names, each name once, so an index is determined by what `get?` answers.
-/

namespace SwiftStyle

/-- A map from names of declarations to paths, in the order of the names. -/
structure DeclarationIndex where
  entries : List (String × String) := []
  ordered : entries.Pairwise (fun a b => a.1 < b.1) := by simp
deriving DecidableEq

namespace DeclarationIndex

/-- The index without entries. -/
def empty : DeclarationIndex := {}

/-- The number of entries. -/
def size (i : DeclarationIndex) : Nat := i.entries.length

/-- Whether there is no entry. -/
def isEmpty (i : DeclarationIndex) : Bool := i.entries.isEmpty

/-- The path of a name. -/
def get? (i : DeclarationIndex) (name : String) : Option String := i.entries.lookup name

/-- Put an entry in its place among ordered ones; it replaces the one of the same name. -/
def insertEntry (name path : String) : List (String × String) → List (String × String)
  | [] => [(name, path)]
  | (n, p) :: rest =>
      if name < n then (name, path) :: (n, p) :: rest
      else if n < name then (n, p) :: insertEntry name path rest
      else (name, path) :: rest

theorem fst_of_mem_insertEntry {name path : String} {l : List (String × String)}
    {e : String × String} (h : e ∈ insertEntry name path l) : e.1 = name ∨ e ∈ l := by
  induction l with
  | nil => simp_all [insertEntry]
  | cons x rest ih =>
      obtain ⟨n, p⟩ := x
      rw [insertEntry] at h
      split at h
      · rcases List.mem_cons.1 h with rfl | h
        · exact .inl rfl
        · exact .inr h
      · split at h
        · rcases List.mem_cons.1 h with rfl | h
          · exact .inr (by simp)
          · exact (ih h).imp_right (List.mem_cons_of_mem _)
        · rcases List.mem_cons.1 h with rfl | h
          · exact .inl rfl
          · exact .inr (List.mem_cons_of_mem _ h)

theorem ordered_insertEntry {name path : String} {l : List (String × String)}
    (h : l.Pairwise (fun a b => a.1 < b.1)) :
    (insertEntry name path l).Pairwise (fun a b => a.1 < b.1) := by
  induction l with
  | nil => simp [insertEntry]
  | cons x rest ih =>
      obtain ⟨n, p⟩ := x
      obtain ⟨hx, hrest⟩ := List.pairwise_cons.1 h
      rw [insertEntry]
      split
      · next hlt =>
          refine List.pairwise_cons.2 ⟨fun e he => ?_, h⟩
          rcases List.mem_cons.1 he with rfl | he
          · exact hlt
          · exact String.lt_trans hlt (hx e he)
      · split
        · next hlt =>
            refine List.pairwise_cons.2 ⟨fun e he => ?_, ih hrest⟩
            rcases fst_of_mem_insertEntry he with he | he
            · exact he ▸ hlt
            · exact hx e he
        · next hge hle =>
            obtain rfl : name = n := by grind
            exact List.pairwise_cons.2 ⟨hx, hrest⟩

/-- **Record where a name is defined**, in place of what was recorded before. -/
def insert (i : DeclarationIndex) (name path : String) : DeclarationIndex where
  entries := insertEntry name path i.entries
  ordered := ordered_insertEntry i.ordered

/-- Record pairs of name and path one after the other. -/
def merge (i : DeclarationIndex) (pairs : List (String × String)) : DeclarationIndex :=
  pairs.foldl (fun i (name, path) => i.insert name path) i

/-- The index of pairs of name and path; the last pair of a name counts. -/
def ofList (pairs : List (String × String)) : DeclarationIndex := empty.merge pairs

/-! ## What an index answers -/

theorem lookup_cons_eq (n p other : String) (l : List (String × String)) :
    ((n, p) :: l).lookup other = if other = n then some p else l.lookup other := by
  by_cases h : other = n
  · simp [h]
  · simp [List.lookup_cons, h, beq_false_of_ne h]

theorem lookup_insertEntry (name path other : String) (l : List (String × String)) :
    (insertEntry name path l).lookup other =
      if other = name then some path else l.lookup other := by
  induction l with
  | nil => rw [insertEntry, lookup_cons_eq]
  | cons x rest ih =>
      obtain ⟨n, p⟩ := x
      rw [insertEntry]
      split
      · rw [lookup_cons_eq]
      · split
        · next hlt =>
            rw [lookup_cons_eq, lookup_cons_eq, ih]
            by_cases h : other = n
            · have hne : other ≠ name := fun he => String.lt_irrefl name (by grind)
              simp [h, h ▸ hne]
            · simp [h]
        · next hge hle =>
            obtain rfl : name = n := by grind
            by_cases h : other = name <;> simp [lookup_cons_eq, h]

@[simp] theorem get?_empty (name : String) : empty.get? name = none := rfl

/-- **Recording a name changes what is answered for that name and for no other.** -/
theorem get?_insert (i : DeclarationIndex) (name path other : String) :
    (i.insert name path).get? other = if other = name then some path else i.get? other :=
  lookup_insertEntry name path other i.entries

end DeclarationIndex

end SwiftStyle
