import SwiftStyle.Json.Parser

/-!
# Proofs/Json/Reader — what the reader of JSON does in one step

White space is passed over in one place, `skipSpace_eq_cons_iff`.  A value is told by the character
it opens with (`value?_cases`), and reading fields is reading one field and then finding the closing
brace or going on after a comma (`fields?_eq_some_iff`).
-/

namespace SwiftStyle.Json

/-! ## White space -/

/-- White space only. -/
def Spaces (text : List Char) : Prop := ∀ c ∈ text, c = ' ' ∨ c = '\n' ∨ c = '\t' ∨ c = '\r'

theorem isSpace_iff {c : Char} : isSpace c ↔ c = ' ' ∨ c = '\n' ∨ c = '\t' ∨ c = '\r' := by
  simp [isSpace, or_assoc]

theorem skipSpace_append {before : List Char} (h : Spaces before) (text : List Char) :
    skipSpace (before ++ text) = skipSpace text :=
  List.dropWhile_append_of_pos fun c hc => isSpace_iff.2 (h c hc)

theorem spaces_takeWhile (text : List Char) : Spaces (text.takeWhile isSpace) :=
  fun _ hc => isSpace_iff.1 (List.all_eq_true.1 List.all_takeWhile _ hc)

theorem isEmpty_skipSpace_iff {text : List Char} : (skipSpace text).isEmpty ↔ Spaces text := by
  rw [List.isEmpty_iff]
  constructor
  · intro h
    have htext := List.takeWhile_append_dropWhile (p := isSpace) (l := text)
    rw [← htext, show text.dropWhile isSpace = [] from h, List.append_nil]
    exact spaces_takeWhile text
  · intro h
    have hskip := skipSpace_append h []
    rwa [List.append_nil] at hskip

/-- **After white space a text goes on with a character** when only white space stands before. -/
theorem skipSpace_eq_cons_iff {text rest : List Char} {c : Char} (hc : isSpace c = false) :
    skipSpace text = c :: rest ↔ ∃ before, Spaces before ∧ text = before ++ c :: rest := by
  constructor
  · intro h
    refine ⟨text.takeWhile isSpace, spaces_takeWhile text, ?_⟩
    rw [← h]
    exact List.takeWhile_append_dropWhile.symm
  · rintro ⟨before, hbefore, rfl⟩
    rw [skipSpace_append hbefore, skipSpace, List.dropWhile_cons, hc]
    rfl

/-! ## Values and fields -/

section Reading

variable {fuel depth : Nat} {text rest : List Char}

/-- A value that is no string and no object. -/
def IsOther (j : Json) : Prop := (∀ v, j ≠ string v) ∧ ∀ fields, j ≠ object fields

theorem isOther_of_unsigned? {negative : Bool} {j : Json}
    (h : unsigned? negative text = some (j, rest)) : j.IsOther := by
  obtain ⟨_, _, h⟩ := Option.bind_eq_some_iff.1 h
  obtain ⟨_, _, h⟩ := Option.bind_eq_some_iff.1 h
  obtain ⟨_, _, h⟩ := Option.bind_eq_some_iff.1 h
  simp only at h
  split at h <;> cases h <;> exact ⟨by simp, by simp⟩

theorem eq_of_literal? {word : String} {value j : Json}
    (h : literal? word value text = some (j, rest)) : j = value := by
  rw [literal?] at h
  split at h
  · cases h
    rfl
  · cases h

/-- **What a value opens with**: a string with a quote and an object with a brace. -/
theorem value?_cases {j : Json} (h : value? (fuel + 1) depth text = some (j, rest)) :
    (∃ more v, skipSpace text = '\"' :: more ∧ j = string v ∧ stringTail? more = some (v, rest)) ∨
    (∃ more inner fields, depth = inner + 1 ∧ skipSpace text = '\x7b' :: more ∧
      j = object fields ∧ (fields = [] ∧ skipSpace more = '\x7d' :: rest ∨
        fields? fuel inner more = some (fields, rest))) ∨
    j.IsOther := by
  rw [value?] at h
  split at h
  · next more hskip =>
    obtain ⟨⟨v, rest'⟩, hread, heq⟩ := Option.map_eq_some_iff.1 h
    cases heq
    exact .inl ⟨more, v, hskip, rfl, hread⟩
  · split at h
    · cases h
    · refine .inr (.inr ?_)
      split at h
      · cases h
        exact ⟨by simp, by simp⟩
      · obtain ⟨_, _, heq⟩ := Option.map_eq_some_iff.1 h
        cases heq
        exact ⟨by simp, by simp⟩
  · next more hskip =>
    split at h
    · cases h
    · next inner =>
      refine .inr (.inl ?_)
      split at h
      · next hclose =>
        cases h
        exact ⟨more, inner, [], rfl, hskip, rfl, .inl ⟨rfl, hclose⟩⟩
      · obtain ⟨⟨fields, rest'⟩, hread, heq⟩ := Option.map_eq_some_iff.1 h
        cases heq
        exact ⟨more, inner, fields, rfl, hskip, rfl, .inr hread⟩
  · exact .inr (.inr (isOther_of_unsigned? h))
  · cases eq_of_literal? h
    exact .inr (.inr ⟨by simp, by simp⟩)
  · cases eq_of_literal? h
    exact .inr (.inr ⟨by simp, by simp⟩)
  · cases eq_of_literal? h
    exact .inr (.inr ⟨by simp, by simp⟩)
  · exact .inr (.inr (isOther_of_unsigned? h))

/-- A value is a string when it opens with a quote. -/
theorem value?_eq_string_iff {v : String} :
    value? (fuel + 1) depth text = some (string v, rest) ↔
      ∃ more, skipSpace text = '\"' :: more ∧ stringTail? more = some (v, rest) := by
  constructor
  · intro h
    rcases value?_cases h with ⟨more, v', hskip, heq, hread⟩ | ⟨_, _, _, _, _, heq, _⟩ | hother
    · cases heq
      exact ⟨more, hskip, hread⟩
    · cases heq
    · exact absurd rfl (hother.1 v)
  · rintro ⟨more, hskip, hread⟩
    rw [value?, hskip]
    simp [hread]

/-- A value is an object when it opens with a brace. -/
theorem value?_eq_object_iff {fields : List (String × Json)} :
    value? (fuel + 1) (depth + 1) text = some (object fields, rest) ↔
      ∃ more, skipSpace text = '\x7b' :: more ∧
        (fields = [] ∧ skipSpace more = '\x7d' :: rest ∨
          fields? fuel depth more = some (fields, rest)) := by
  constructor
  · intro h
    rcases value?_cases h with ⟨_, _, _, heq, _⟩ | ⟨more, _, _, hdepth, hskip, heq, h⟩ | hother
    · cases heq
    · cases heq
      cases hdepth
      exact ⟨more, hskip, h⟩
    · exact absurd rfl (hother.2 fields)
  · rintro ⟨more, hskip, ⟨rfl, hclose⟩ | hread⟩
    · rw [value?, hskip]
      simp only [hclose]
    · rw [value?, hskip]
      simp only
      split
      · next hclose =>
        -- no field opens with a brace
        cases fuel <;> simp [fields?, hclose] at hread
      · rw [hread]
        rfl

/-- **A field is read** at the front of a text, and what stands behind its value is left over. -/
def ReadsField (fuel depth : Nat) (text : List Char) (field : String × Json)
    (rest : List Char) : Prop :=
  ∃ key afterKey start, skipSpace text = '\"' :: key ∧
    stringTail? key = some (field.1, afterKey) ∧ skipSpace afterKey = ':' :: start ∧
    value? fuel depth start = some (field.2, rest)

/-- **What reading fields does**: it reads one field, and then either finds the closing brace or goes
on after a comma. -/
theorem fields?_eq_some_iff {fields : List (String × Json)} :
    fields? (fuel + 1) depth text = some (fields, rest) ↔
      ∃ field after, ReadsField fuel depth text field after ∧
        (fields = [field] ∧ skipSpace after = '\x7d' :: rest ∨
          ∃ next more, fields = field :: more ∧ skipSpace after = ',' :: next ∧
            fields? fuel depth next = some (more, rest)) := by
  constructor
  · intro h
    rw [fields?] at h
    simp only [Option.bind_eq_bind, Option.pure_def] at h
    split at h
    · next key hkey =>
      obtain ⟨⟨name, afterKey⟩, hname, h⟩ := Option.bind_eq_some_iff.1 h
      simp only at h
      split at h
      · next start hcolon =>
        obtain ⟨⟨value, after⟩, hvalue, h⟩ := Option.bind_eq_some_iff.1 h
        refine ⟨(name, value), after, ⟨key, afterKey, start, hkey, hname, hcolon, hvalue⟩, ?_⟩
        simp only at h
        split at h
        · next next hcomma =>
          obtain ⟨⟨more, rest'⟩, hmore, h⟩ := Option.bind_eq_some_iff.1 h
          cases h
          exact .inr ⟨next, more, rfl, hcomma, hmore⟩
        · next hbrace =>
          cases h
          exact .inl ⟨rfl, hbrace⟩
        · cases h
      · cases h
    · cases h
  · rintro ⟨field, after, ⟨key, afterKey, start, hkey, hname, hcolon, hvalue⟩, h⟩
    rw [fields?, hkey]
    simp only [Option.bind_eq_bind, Option.pure_def, hname, Option.bind_some, hcolon, hvalue]
    obtain ⟨rfl, hbrace⟩ | ⟨next, more, rfl, hcomma, hmore⟩ := h
    · simp only [hbrace]
    · simp only [hcomma, hmore, Option.bind_some]

/-- Each field takes a step, and its value one more. -/
theorem length_lt_of_fields? {fields : List (String × Json)}
    (h : fields? fuel depth text = some (fields, rest)) : fields.length < fuel := by
  induction fuel generalizing text fields with
  | zero => simp [fields?] at h
  | succ fuel ih =>
    obtain ⟨_, _, ⟨_, _, _, _, _, _, hvalue⟩, h⟩ := fields?_eq_some_iff.1 h
    obtain ⟨rfl, -⟩ | ⟨_, more, rfl, -, hmore⟩ := h
    · cases fuel with
      | zero => simp [value?] at hvalue
      | succ fuel => simp
    · have := ih hmore
      rw [List.length_cons]
      omega

end Reading

theorem parse?_eq_some_iff {text : String} {j : Json} :
    parse? text = some j ↔ ∃ rest, value? (2 * text.toList.length + 2) depthLimit text.toList
      = some (j, rest) ∧ Spaces rest := by
  rw [parse?]
  constructor
  · intro h
    split at h
    · next value rest hvalue =>
      split at h
      · next hrest =>
        cases h
        exact ⟨rest, hvalue, isEmpty_skipSpace_iff.1 hrest⟩
      · cases h
    · cases h
  · rintro ⟨rest, hvalue, hrest⟩
    simp only [hvalue]
    rw [if_pos (isEmpty_skipSpace_iff.2 hrest)]

end SwiftStyle.Json
