/-!
# Text/Search — finding one text inside another

`dropLead?` reads a fixed text off the front; `splitFirst?` and `splitLast?` cut a text at the first
and at the last place where another one stands.
-/

namespace SwiftStyle.Text

/-- What follows `lead`, when the text begins with it. -/
def dropLead? : List Char → List Char → Option (List Char)
  | [], text => some text
  | _ :: _, [] => none
  | l :: lead, c :: text => if l = c then dropLead? lead text else none

/-- The parts before and after the first occurrence of `needle`. -/
def splitFirst? (needle : List Char) : List Char → Option (List Char × List Char)
  | [] => (dropLead? needle []).map fun after => ([], after)
  | c :: rest =>
      match dropLead? needle (c :: rest) with
      | some after => some ([], after)
      | none => (splitFirst? needle rest).map fun (before, after) => (c :: before, after)

/-- The parts before and after the last occurrence of `needle`. -/
def splitLast? (needle : List Char) : List Char → Option (List Char × List Char)
  | [] => (dropLead? needle []).map fun after => ([], after)
  | c :: rest =>
      match splitLast? needle rest with
      | some (before, after) => some (c :: before, after)
      | none => (dropLead? needle (c :: rest)).map fun after => ([], after)

/-- Whether `needle` stands somewhere in the text. -/
def contains (needle text : List Char) : Bool := (splitFirst? needle text).isSome

/-- Whether the text ends in `tail`. -/
def endsWith (tail text : List Char) : Bool := (dropLead? tail.reverse text.reverse).isSome

theorem dropLead?_eq_some {lead text rest : List Char} :
    dropLead? lead text = some rest ↔ text = lead ++ rest := by
  induction lead generalizing text with
  | nil => simp [dropLead?, eq_comm]
  | cons l lead ih =>
      cases text with
      | nil => simp [dropLead?]
      | cons c text =>
          by_cases h : l = c
          · simp [dropLead?, h, ih]
          · simp [dropLead?, h, Ne.symm h]

/-- **A first cut loses nothing.** -/
theorem append_of_splitFirst? {needle text before after : List Char}
    (h : splitFirst? needle text = some (before, after)) : text = before ++ needle ++ after := by
  induction text generalizing before with
  | nil =>
      simp only [splitFirst?, Option.map_eq_some_iff, Prod.mk.injEq] at h
      obtain ⟨rest, hrest, rfl, rfl⟩ := h
      simpa using dropLead?_eq_some.1 hrest
  | cons c rest ih =>
      rw [splitFirst?] at h
      split at h
      · next tail htail =>
          simp only [Option.some.injEq, Prod.mk.injEq] at h
          obtain ⟨rfl, rfl⟩ := h
          simpa using dropLead?_eq_some.1 htail
      · simp only [Option.map_eq_some_iff, Prod.mk.injEq, Prod.exists] at h
        obtain ⟨b, a, hba, rfl, rfl⟩ := h
        simp [ih hba]

/-- **A text is found exactly where it stands.** -/
theorem contains_iff_isInfix {needle text : List Char} :
    contains needle text = true ↔ needle <:+: text := by
  rw [contains, Option.isSome_iff_exists]
  constructor
  · rintro ⟨⟨before, after⟩, h⟩
    exact ⟨before, after, (append_of_splitFirst? h).symm⟩
  · rintro ⟨before, after, rfl⟩
    induction before with
    | nil =>
        have hlead : dropLead? needle (needle ++ after) = some after := dropLead?_eq_some.2 rfl
        refine ⟨([], after), ?_⟩
        rw [List.nil_append]
        cases h : needle ++ after with
        | nil => rw [splitFirst?, ← h, hlead]; rfl
        | cons c rest => rw [splitFirst?, ← h, hlead]
    | cons c before ih =>
        obtain ⟨cut, hcut⟩ := ih
        rw [List.cons_append, List.cons_append, splitFirst?, hcut]
        split
        · exact ⟨_, rfl⟩
        · exact ⟨_, rfl⟩

/-- **A last cut loses nothing.** -/
theorem append_of_splitLast? {needle text before after : List Char}
    (h : splitLast? needle text = some (before, after)) : text = before ++ needle ++ after := by
  induction text generalizing before with
  | nil =>
      simp only [splitLast?, Option.map_eq_some_iff, Prod.mk.injEq] at h
      obtain ⟨rest, hrest, rfl, rfl⟩ := h
      simpa using dropLead?_eq_some.1 hrest
  | cons c rest ih =>
      rw [splitLast?] at h
      split at h
      · next b a hba =>
          simp only [Option.some.injEq, Prod.mk.injEq] at h
          obtain ⟨rfl, rfl⟩ := h
          simp [ih hba]
      · simp only [Option.map_eq_some_iff, Prod.mk.injEq] at h
        obtain ⟨tail, htail, rfl, rfl⟩ := h
        simpa using dropLead?_eq_some.1 htail

end SwiftStyle.Text
