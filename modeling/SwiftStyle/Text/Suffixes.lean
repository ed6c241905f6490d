/-!
# Text/Suffixes — the ends of a list

`suffixes` are all ends of a list; `suffixesAfter` are those that follow an item of a kind, together
with the list itself. Patterns try them where a star stands.
-/

namespace SwiftStyle.Text

/-- All ends of a list, from the whole of it to the empty one. -/
def suffixes {α : Type} : List α → List (List α)
  | [] => [[]]
  | a :: rest => (a :: rest) :: suffixes rest

/-- The ends of a list that begin after an item that satisfies `p`. -/
def suffixesPast {α : Type} (p : α → Bool) : List α → List (List α)
  | [] => []
  | a :: rest => if p a then rest :: suffixesPast p rest else suffixesPast p rest

/-- A list, and its ends that begin after an item that satisfies `p`. -/
def suffixesAfter {α : Type} (p : α → Bool) (l : List α) : List (List α) := l :: suffixesPast p l

/-- **The ends of a list are what is left after its beginnings.** -/
theorem mem_suffixes {α : Type} {s l : List α} : s ∈ suffixes l ↔ ∃ r, l = r ++ s := by
  induction l with
  | nil =>
      simp only [suffixes, List.mem_singleton]
      constructor
      · rintro rfl; exact ⟨[], rfl⟩
      · rintro ⟨r, h⟩; simpa using (List.append_eq_nil_iff.1 h.symm).2
  | cons a rest ih =>
      simp only [suffixes, List.mem_cons, ih]
      constructor
      · rintro (rfl | ⟨r, rfl⟩)
        · exact ⟨[], rfl⟩
        · exact ⟨a :: r, rfl⟩
      · rintro ⟨r, h⟩
        cases r with
        | nil => exact Or.inl h.symm
        | cons b r => exact Or.inr ⟨r, (List.cons.inj h).2⟩

/-- **The ends that follow an item of a kind.** -/
theorem mem_suffixesPast {α : Type} {p : α → Bool} {s l : List α} :
    s ∈ suffixesPast p l ↔ ∃ r a, p a = true ∧ l = r ++ a :: s := by
  induction l with
  | nil => simp [suffixesPast]
  | cons b rest ih =>
      have later : s ∈ suffixesPast p rest ↔ ∃ r a, p a = true ∧ b :: rest = (b :: r) ++ a :: s := by
        simp [ih]
      rw [suffixesPast]
      constructor
      · intro h
        split at h
        · next hb =>
            rcases List.mem_cons.1 h with rfl | h
            · exact ⟨[], b, hb, rfl⟩
            · obtain ⟨r, a, ha, e⟩ := later.1 h
              exact ⟨b :: r, a, ha, e⟩
        · obtain ⟨r, a, ha, e⟩ := later.1 h
          exact ⟨b :: r, a, ha, e⟩
      · rintro ⟨r, a, ha, e⟩
        cases r with
        | nil =>
            obtain ⟨rfl, rfl⟩ := List.cons.inj e
            simp [ha]
        | cons c r =>
            have h := ih.2 ⟨r, a, ha, (List.cons.inj e).2⟩
            split <;> simp [h]

end SwiftStyle.Text
