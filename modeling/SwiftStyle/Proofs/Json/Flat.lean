import SwiftStyle.Proofs.Json.Reader
import SwiftStyle.Proofs.Json.Strings

/-!
# Proofs/Json/Flat — objects of strings, as they may be written

A flat object is written as fields between braces: quoted names and texts, with colons and commas
between them and white space anywhere but inside the quotes (`FlatObject`).  The reader gives back
the pairs of a flat object in their order exactly when the text is such an object
(`parse?_eq_flat_iff`), so a text is a flat object of one list of pairs at most.
-/

namespace SwiftStyle.Json

/-! ## The grammar -/

/-- A string in quotes, with white space around it. -/
inductive Quoted : List Char → String → Prop
  | mk {before body after : List Char} {v : String} (hbefore : Spaces before)
      (hbody : Spelled body v.toList) (hafter : Spaces after) :
      Quoted (before ++ '\"' :: body ++ '\"' :: after) v

/-- A pair as a field. -/
inductive Field : List Char → String × String → Prop
  | mk {key value : List Char} {name v : String} (hkey : Quoted key name)
      (hvalue : Quoted value v) : Field (key ++ ':' :: value) (name, v)

/-- Pairs as fields with commas between them. -/
inductive Fields : List Char → List (String × String) → Prop
  | last {field : List Char} {pair : String × String} (h : Field field pair) : Fields field [pair]
  | cons {field more : List Char} {pair : String × String} {pairs : List (String × String)}
      (h : Field field pair) (hmore : Fields more pairs) :
      Fields (field ++ ',' :: more) (pair :: pairs)

/-- What stands between the braces of an object. -/
inductive Content : List Char → List (String × String) → Prop
  | empty {inner : List Char} (h : Spaces inner) : Content inner []
  | fields {inner : List Char} {pairs : List (String × String)} (h : Fields inner pairs) :
      Content inner pairs

/-- **Pairs as an object**, with white space around it. -/
inductive FlatObject : List Char → List (String × String) → Prop
  | mk {before inner after : List Char} {pairs : List (String × String)} (hbefore : Spaces before)
      (hinner : Content inner pairs) (hafter : Spaces after) :
      FlatObject (before ++ '\x7b' :: inner ++ '\x7d' :: after) pairs

/-- A pair as a field with a string as its value. -/
def flatField (pair : String × String) : String × Json := (pair.1, string pair.2)

/-! ## Reading fields -/

section Reading

variable {fuel depth : Nat} {text rest : List Char}

/-- **A string is read up to a character that is no white space** when it stands before it. -/
theorem exists_quoted_iff {v : String} {c : Char} (hc : isSpace c = false) :
    (∃ more mid, skipSpace text = '\"' :: more ∧ stringTail? more = some (v, mid) ∧
        skipSpace mid = c :: rest) ↔
      ∃ token, Quoted token v ∧ text = token ++ c :: rest := by
  constructor
  · rintro ⟨more, mid, hopen, hread, hclose⟩
    obtain ⟨before, hbefore, rfl⟩ := (skipSpace_eq_cons_iff rfl).1 hopen
    obtain ⟨body, hbody, rfl⟩ := stringTail?_eq_some_iff.1 hread
    obtain ⟨after, hafter, rfl⟩ := (skipSpace_eq_cons_iff hc).1 hclose
    exact ⟨_, .mk hbefore hbody hafter, by simp⟩
  · rintro ⟨_, ⟨hbefore, hbody, hafter⟩, rfl⟩
    refine ⟨_, _, (skipSpace_eq_cons_iff rfl).2 ⟨_, hbefore, ?_⟩,
      stringTail?_eq_some_iff.2 ⟨_, hbody, rfl⟩, (skipSpace_eq_cons_iff hc).2 ⟨_, hafter, rfl⟩⟩
    simp

/-- A field is read up to the comma or the brace after it. -/
theorem exists_readsField_iff {pair : String × String} {c : Char} (hc : isSpace c = false) :
    (∃ after, ReadsField (fuel + 1) depth text (flatField pair) after ∧
        skipSpace after = c :: rest) ↔
      ∃ field, Field field pair ∧ text = field ++ c :: rest := by
  obtain ⟨name, v⟩ := pair
  have hcolon : isSpace ':' = false := rfl
  constructor
  · rintro ⟨after, ⟨key, afterKey, start, hkey, hname, hstart, hvalue⟩, hafter⟩
    obtain ⟨opening, hopen, hread⟩ := value?_eq_string_iff.1 hvalue
    obtain ⟨keyToken, hkeyToken, rfl⟩ :=
      (exists_quoted_iff hcolon).1 ⟨key, afterKey, hkey, hname, hstart⟩
    obtain ⟨valueToken, hvalueToken, rfl⟩ :=
      (exists_quoted_iff hc).1 ⟨opening, after, hopen, hread, hafter⟩
    exact ⟨_, .mk hkeyToken hvalueToken, by simp⟩
  · rintro ⟨_, ⟨hkey, hvalue⟩, rfl⟩
    rw [List.append_assoc, List.cons_append]
    obtain ⟨key, afterKey, hopen, hname, hstart⟩ := (exists_quoted_iff hcolon).2 ⟨_, hkey, rfl⟩
    obtain ⟨opening, after, hopen', hv, hafter⟩ := (exists_quoted_iff hc).2 ⟨_, hvalue, rfl⟩
    exact ⟨after, ⟨key, afterKey, _, hopen, hname, hstart,
      value?_eq_string_iff.2 ⟨opening, hopen', hv⟩⟩, hafter⟩

/-- **Reading a field with a string as its value.** -/
theorem fields?_flatField_iff {pair : String × String} {more : List (String × Json)} :
    fields? (fuel + 2) depth text = some (flatField pair :: more, rest) ↔
      ∃ field, Field field pair ∧ (more = [] ∧ text = field ++ '\x7d' :: rest ∨
        ∃ next, text = field ++ ',' :: next ∧ fields? (fuel + 1) depth next = some (more, rest)) := by
  have hbrace : isSpace '\x7d' = false := rfl
  have hcomma : isSpace ',' = false := rfl
  rw [fields?_eq_some_iff]
  constructor
  · rintro ⟨_, after, hread, ⟨heq, hafter⟩ | ⟨next, _, heq, hafter, hmore⟩⟩
    · obtain ⟨rfl, rfl⟩ := List.cons.inj heq
      obtain ⟨field, hfield, htext⟩ := (exists_readsField_iff hbrace).1 ⟨after, hread, hafter⟩
      exact ⟨field, hfield, .inl ⟨rfl, htext⟩⟩
    · obtain ⟨rfl, rfl⟩ := List.cons.inj heq
      obtain ⟨field, hfield, htext⟩ := (exists_readsField_iff hcomma).1 ⟨after, hread, hafter⟩
      exact ⟨field, hfield, .inr ⟨next, htext, hmore⟩⟩
  · rintro ⟨field, hfield, ⟨rfl, htext⟩ | ⟨next, htext, hmore⟩⟩
    · obtain ⟨after, hread, hafter⟩ := (exists_readsField_iff hbrace).2 ⟨field, hfield, htext⟩
      exact ⟨_, after, hread, .inl ⟨rfl, hafter⟩⟩
    · obtain ⟨after, hread, hafter⟩ := (exists_readsField_iff hcomma).2 ⟨field, hfield, htext⟩
      exact ⟨_, after, hread, .inr ⟨next, more, rfl, hafter, hmore⟩⟩

/-- **Fields are read exactly from their grammar**, when the fuel lasts. -/
theorem fields?_flat_iff {pairs : List (String × String)} (hfuel : pairs.length < fuel) :
    fields? fuel depth text = some (pairs.map flatField, rest) ↔
      ∃ inner, Fields inner pairs ∧ text = inner ++ '\x7d' :: rest := by
  induction pairs generalizing fuel text with
  | nil =>
    obtain ⟨fuel, rfl⟩ := Nat.exists_eq_add_one_of_ne_zero (Nat.ne_zero_of_lt hfuel)
    constructor
    · intro h
      obtain ⟨_, _, _, ⟨heq, _⟩ | ⟨_, _, heq, _⟩⟩ := fields?_eq_some_iff.1 h
      · cases heq
      · cases heq
    · rintro ⟨_, h, -⟩
      cases h
  | cons pair pairs ih =>
    obtain ⟨fuel, rfl⟩ : ∃ n, fuel = n + 2 := ⟨fuel - 2, by simp at hfuel; omega⟩
    have hmore : pairs.length < fuel + 1 := by simpa using hfuel
    rw [List.map_cons, fields?_flatField_iff]
    constructor
    · rintro ⟨field, hfield, ⟨heq, rfl⟩ | ⟨next, rfl, hnext⟩⟩
      · obtain rfl := List.map_eq_nil_iff.1 heq
        exact ⟨field, .last hfield, rfl⟩
      · obtain ⟨inner, hinner, rfl⟩ := (ih hmore).1 hnext
        exact ⟨_, .cons hfield hinner, by simp⟩
    · rintro ⟨_, h, rfl⟩
      cases h with
      | last hfield => exact ⟨_, hfield, .inl ⟨rfl, rfl⟩⟩
      | cons hfield hinner =>
        exact ⟨_, hfield, .inr ⟨_, by simp, (ih hmore).2 ⟨_, hinner, rfl⟩⟩⟩

/-- The content of an object is read up to the closing brace, when the fuel lasts. -/
theorem content_iff {pairs : List (String × String)} (hfuel : pairs.length < fuel) :
    (pairs.map flatField = [] ∧ skipSpace text = '\x7d' :: rest ∨
        fields? fuel depth text = some (pairs.map flatField, rest)) ↔
      ∃ inner, Content inner pairs ∧ text = inner ++ '\x7d' :: rest := by
  have hbrace : isSpace '\x7d' = false := rfl
  rw [fields?_flat_iff hfuel, skipSpace_eq_cons_iff hbrace, List.map_eq_nil_iff]
  constructor
  · rintro (⟨rfl, inner, hinner, htext⟩ | ⟨inner, hinner, htext⟩)
    · exact ⟨inner, .empty hinner, htext⟩
    · exact ⟨inner, .fields hinner, htext⟩
  · rintro ⟨inner, hinner | hinner, htext⟩
    · exact .inl ⟨rfl, inner, hinner, htext⟩
    · exact .inr ⟨inner, hinner, htext⟩

end Reading

/-! ## Reading objects -/

/-- Each field has a character at least. -/
theorem Content.length_le {inner : List Char} {pairs : List (String × String)}
    (h : Content inner pairs) : pairs.length ≤ inner.length := by
  have hfield : ∀ {field : List Char} {pair : String × String}, Field field pair →
      1 ≤ field.length := by
    rintro _ _ ⟨_, _⟩
    simp only [List.length_append, List.length_cons]
    omega
  rcases h with _ | h
  · exact Nat.zero_le _
  · induction h with
    | last h => exact hfield h
    | cons h _ ih =>
      have := hfield h
      simp only [List.length_cons, List.length_append]
      omega

/-- **The pairs of a flat object are read exactly from its grammar.** -/
theorem parse?_eq_flat_iff {text : String} {pairs : List (String × String)} :
    parse? text = some (object (pairs.map flatField)) ↔ FlatObject text.toList pairs := by
  have hlevel : depthLimit = 126 + 1 := rfl
  rw [parse?_eq_some_iff, hlevel]
  constructor
  · rintro ⟨after, hvalue, hafter⟩
    obtain ⟨more, hopen, h⟩ := value?_eq_object_iff.1 hvalue
    obtain ⟨before, hbefore, htext⟩ := (skipSpace_eq_cons_iff rfl).1 hopen
    have hfuel : pairs.length < 2 * text.toList.length + 1 := by
      rcases h with ⟨heq, -⟩ | hread
      · simp [List.map_eq_nil_iff.1 heq]
      · simpa using length_lt_of_fields? hread
    obtain ⟨inner, hinner, rfl⟩ := (content_iff hfuel).1 h
    rw [htext, ← List.cons_append, ← List.append_assoc]
    exact .mk hbefore hinner hafter
  · intro h
    generalize htext : text.toList = cs at h
    obtain ⟨hbefore, hinner, hafter⟩ := h
    rw [List.append_assoc, List.cons_append]
    refine ⟨_, value?_eq_object_iff.2 ⟨_, (skipSpace_eq_cons_iff rfl).2 ⟨_, hbefore, rfl⟩, ?_⟩,
      hafter⟩
    have hlength := hinner.length_le
    refine (content_iff ?_).2 ⟨_, hinner, rfl⟩
    simp only [List.length_append, List.length_cons]
    omega

theorem map_flatField_inj {pairs pairs' : List (String × String)}
    (h : pairs.map flatField = pairs'.map flatField) : pairs = pairs' := by
  refine (List.map_inj_right fun ⟨name, v⟩ ⟨name', v'⟩ hpair => ?_).1 h
  cases hpair
  rfl

/-- **A text is a flat object of one list of pairs.** -/
theorem FlatObject.unique {cs : List Char} {pairs pairs' : List (String × String)}
    (h : FlatObject cs pairs) (h' : FlatObject cs pairs') : pairs = pairs' := by
  rw [← String.toList_ofList (l := cs), ← parse?_eq_flat_iff] at h h'
  rw [h, Option.some.injEq, object.injEq] at h'
  exact map_flatField_inj h'

end SwiftStyle.Json
