import SwiftStyle.Files.ExcludePattern

/-!
# Proofs/Files/Excluding — patterns of everything below a directory

The pattern `**/NAME/**` of a plain name is read as any steps, the name, a separator and any steps
(`parts?_below`).  On an absolute path both tests of a pattern come to the same: the path is left
out exactly when `/NAME/` stands in it (`excludes_below_iff`).
-/

namespace SwiftStyle.ExcludePattern

/-- **A plain name** holds neither a separator nor a character that a pattern reads. -/
structure IsPlain (name : List Char) : Prop where
  ne_nil : name ≠ []
  plain : ∀ c ∈ name, c ∉ ['/', '*', '?', '[', ']']

instance (name : List Char) : Decidable (IsPlain name) :=
  decidable_of_iff
    (name ≠ [] ∧ (name.all fun c => decide (c ∉ ['/', '*', '?', '[', ']'])) = true)
    ⟨fun h => ⟨h.1, by simpa using h.2⟩, fun h => ⟨h.1, by simpa using h.plain⟩⟩

/-- The pattern of everything below directories of a name. -/
def below (name : List Char) : List Char := '*' :: '*' :: '/' :: (name ++ ['/', '*', '*'])

variable {name text rest : List Char}

/-! ## Reading the pattern -/

/-- A plain character stands for itself. -/
theorem parts?_cons {c : Char} (hc : c ∉ ['/', '*', '?', '[', ']']) (fuel : Nat) (atStep : Bool) :
    parts? (fuel + 1) atStep (c :: rest) = (parts? fuel false rest).map (.literal c :: ·) := by
  simp only [List.mem_cons, List.not_mem_nil, or_false, not_or] at hc
  obtain ⟨hslash, hstar, hmark, hbracket, -⟩ := hc
  rw [parts?, if_neg (by simpa using hstar), if_neg (by simpa using hmark),
    if_neg (by simpa using hbracket), beq_false_of_ne hslash]

/-- **A plain name stands for itself.** -/
theorem parts?_append (h : IsPlain name) (fuel : Nat) (atStep : Bool) :
    parts? (fuel + name.length) atStep (name ++ rest)
      = (parts? fuel false rest).map (name.map .literal ++ ·) := by
  have hlater : ∀ l : List Char, (∀ c ∈ l, c ∉ ['/', '*', '?', '[', ']']) →
      parts? (fuel + l.length) false (l ++ rest)
        = (parts? fuel false rest).map (l.map .literal ++ ·) := by
    intro l hl
    induction l with
    | nil => simp
    | cons c l ih =>
      obtain ⟨hc, hl⟩ := List.forall_mem_cons.1 hl
      rw [List.length_cons, ← Nat.add_assoc, List.cons_append, parts?_cons hc, ih hl,
        Option.map_map]
      rfl
  obtain ⟨c, l, rfl⟩ := List.exists_cons_of_ne_nil h.ne_nil
  obtain ⟨hc, hl⟩ := List.forall_mem_cons.1 h.plain
  rw [List.length_cons, ← Nat.add_assoc, List.cons_append, parts?_cons hc, hlater l hl,
    Option.map_map]
  rfl

theorem parts?_below (h : IsPlain name) : parts? ((below name).length + 1) true (below name)
    = some (.anySteps :: (name.map .literal ++ [.literal '/', .anySteps])) := by
  have hlength : (below name).length + 1 = 6 + name.length + 1 := by
    simp only [below, List.length_cons, List.length_append, List.length_nil]
    omega
  have hend : parts? 6 false ['/', '*', '*'] = some [.literal '/', .anySteps] := rfl
  rw [hlength, below, parts?]
  simp [parts?_append h, hend]

/-! ## Matching the pattern -/

theorem matchesParts_literals {parts : List Part} :
    matchesParts (name.map .literal ++ parts) text = true ↔
      ∃ rest, text = name ++ rest ∧ matchesParts parts rest = true := by
  induction name generalizing text with
  | nil => simp
  | cons d name ih =>
    cases text with
    | nil => simp [matchesParts]
    | cons c text =>
      rw [List.map_cons, List.cons_append, matchesParts, Bool.and_eq_true, beq_iff_eq, ih]
      constructor
      · rintro ⟨rfl, rest, rfl, hrest⟩
        exact ⟨rest, rfl, hrest⟩
      · rintro ⟨rest, heq, hrest⟩
        obtain ⟨rfl, rfl⟩ := List.cons.inj heq
        exact ⟨rfl, rest, rfl, hrest⟩

/-- Any steps match the rest of a text. -/
theorem matchesParts_anySteps : matchesParts [.anySteps] text = true := by
  rw [matchesParts]
  exact List.any_eq_true.2 ⟨[], by simp [afterSteps], rfl⟩

/-- **The pattern matches an absolute path** exactly when the name stands in it between
separators. -/
theorem matchesText_below_iff (h : IsPlain name) :
    matchesText (below name) ('/' :: text) = true ↔ '/' :: (name ++ ['/']) <:+: '/' :: text := by
  have hmatches : ∀ s, matchesParts (name.map .literal ++ [.literal '/', .anySteps]) s = true ↔
      ∃ rest, s = name ++ '/' :: rest := by
    intro s
    rw [matchesParts_literals]
    constructor
    · rintro ⟨rest, rfl, hrest⟩
      cases rest with
      | nil => cases hrest
      | cons c rest =>
        rw [matchesParts, Bool.and_eq_true, beq_iff_eq] at hrest
        exact ⟨rest, by rw [hrest.1]⟩
    · rintro ⟨rest, rfl⟩
      refine ⟨'/' :: rest, rfl, ?_⟩
      rw [matchesParts, matchesParts_anySteps]
      rfl
  rw [matchesText, parts?_below h]
  simp only [matchesParts, List.any_eq_true, hmatches]
  obtain ⟨c, l, rfl⟩ := List.exists_cons_of_ne_nil h.ne_nil
  have hc : c ≠ '/' := fun heq => h.plain c List.mem_cons_self (by simp [heq])
  constructor
  · rintro ⟨s, hs, rest, rfl⟩
    simp only [afterSteps, Text.suffixesAfter, List.mem_append, List.mem_cons, List.not_mem_nil,
      or_false, Text.mem_suffixesPast, beq_iff_eq] at hs
    rcases hs with (hwhole | ⟨before, _, rfl, hbefore⟩) | hnil
    · exact absurd (List.cons.inj hwhole).1 hc
    · exact ⟨before, rest, by rw [hbefore]; simp⟩
    · cases hnil
  · rintro ⟨before, rest, heq⟩
    refine ⟨c :: l ++ '/' :: rest, ?_, rest, rfl⟩
    simp only [afterSteps, Text.suffixesAfter, List.mem_append, List.mem_cons, List.not_mem_nil,
      or_false, Text.mem_suffixesPast, beq_iff_eq]
    exact .inl (.inr ⟨before, '/', rfl, by rw [← heq]; simp⟩)

/-! ## Finding the pattern inside -/

theorem withoutSteps_append (h : ∀ c ∈ name, c ≠ '*') :
    withoutSteps (name ++ rest) = name ++ withoutSteps rest := by
  induction name with
  | nil => rfl
  | cons c name ih =>
    obtain ⟨hc, hname⟩ := List.forall_mem_cons.1 h
    rw [List.cons_append, withoutSteps, ih hname]
    · rfl
    · rintro _ rfl
      exact absurd rfl hc

theorem withoutSteps_below (h : IsPlain name) :
    withoutSteps (below name) = '/' :: (name ++ ['/']) := by
  have hstar : ∀ c ∈ '/' :: name, c ≠ '*' := by
    rintro c hc rfl
    rcases List.mem_cons.1 hc with hc | hc
    · cases hc
    · exact h.plain _ hc (by simp)
  rw [below, withoutSteps, ← List.cons_append, withoutSteps_append hstar]
  rfl

theorem standsInside_below_iff (h : IsPlain name) :
    standsInside (below name) text = true ↔ '/' :: (name ++ ['/']) <:+: text := by
  have hne : '/' :: (name ++ ['/']) ≠ ['/'] := by simp [h.ne_nil]
  rw [standsInside]
  simp only [withoutSteps_below h]
  simp [Text.contains_iff_isInfix, hne]

/-- **Everything below a directory of the name is left out**, and nothing else: on an absolute path
the two tests of the pattern agree. -/
theorem excludes_below_iff (h : IsPlain name) {pattern path : String}
    (hpattern : pattern.toList = below name) (hpath : path.toList.head? = some '/') :
    excludes pattern path = true ↔ '/' :: (name ++ ['/']) <:+: path.toList := by
  obtain ⟨text, htext⟩ := List.head?_eq_some_iff.1 hpath
  rw [excludes, hpattern, htext, Bool.or_eq_true, matchesText_below_iff h, standsInside_below_iff h,
    or_self]

end SwiftStyle.ExcludePattern
