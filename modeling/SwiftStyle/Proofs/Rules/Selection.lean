import Mathlib.Data.List.Induction
import Mathlib.Data.List.Nodup
import SwiftStyle.Rules.Catalog

/-!
# Proofs/Rules/Selection — the rules that names stand for

An identifier belongs to at most one built-in rule, so a list of identifiers determines a list of
rules (`Catalog.filterMap_find?_identifiers`).  Names are taken one by one; what has been chosen so
far is always what the names so far mention, each rule at its first mention.  So the selection
succeeds exactly when all names are known (`Catalog.select_eq_ok_iff`), and otherwise it stops at
the first that is not (`Catalog.select_eq_error`).
-/

namespace SwiftStyle

/-! ## First mentions -/

/-- A repeated element leaves no trace. -/
theorem eraseDups_append_cons {α : Type} [BEq α] [LawfulBEq α] {l more : List α} {a : α}
    (h : a ∈ l) : (l ++ a :: more).eraseDups = (l ++ more).eraseDups := by
  have hcontains : l.contains a = true := List.contains_iff_mem.2 h
  rw [List.eraseDups_append, List.eraseDups_append, List.cons_removeAll, hcontains]
  rfl

/-- A new element is kept at the end. -/
theorem eraseDups_append_singleton {α : Type} [BEq α] [LawfulBEq α] {l : List α} {a : α}
    (h : a ∉ l) : (l ++ [a]).eraseDups = l.eraseDups ++ [a] := by
  have hremove : [a].removeAll l = [a] := by simp [List.removeAll, h]
  rw [List.eraseDups_append, hremove]
  rfl

/-- **What is left are distinct elements.** -/
theorem nodup_eraseDups {α : Type} [BEq α] [LawfulBEq α] (l : List α) : l.eraseDups.Nodup := by
  induction l using List.reverseRecOn with
  | nil => exact List.nodup_nil
  | append_singleton l a ih =>
    by_cases h : a ∈ l
    · rwa [eraseDups_append_cons h, List.append_nil]
    · rw [eraseDups_append_singleton h]
      refine List.nodup_append.2 ⟨ih, List.nodup_singleton a, fun b hb c hc heq => h ?_⟩
      rwa [← List.mem_singleton.1 hc, ← heq, ← List.mem_eraseDups]

/-- Distinct elements stay as they are. -/
theorem eraseDups_eq_self {α : Type} [BEq α] [LawfulBEq α] {l : List α} (h : l.Nodup) :
    l.eraseDups = l := by
  induction l using List.reverseRecOn with
  | nil => rfl
  | append_singleton l a ih =>
    obtain ⟨hl, -, hne⟩ := List.nodup_append.1 h
    rw [eraseDups_append_singleton fun ha => hne a ha a List.mem_cons_self rfl, ih hl]

namespace Catalog

/-! ## Identifiers -/

theorem nodup_identifiers : identifiers.Nodup := by decide

/-- **A built-in rule is found by its identifier.** -/
theorem find?_eq_some_iff {identifier : String} {rule : Rule} :
    find? identifier = some rule ↔ rule ∈ rules ∧ rule.identifier = identifier := by
  constructor
  · intro h
    exact ⟨List.mem_of_find?_eq_some h, by simpa using List.find?_some h⟩
  · rintro ⟨hrule, rfl⟩
    cases hfind : find? rule.identifier with
    | none =>
      have hnone := List.find?_eq_none.1 hfind rule hrule
      simp at hnone
    | some found =>
      have hid : found.identifier = rule.identifier := by simpa using List.find?_some hfind
      rw [List.inj_on_of_nodup_map nodup_identifiers (List.mem_of_find?_eq_some hfind) hrule hid]

/-- Only the identifier of no built-in rule is not found. -/
theorem find?_eq_none_iff {identifier : String} :
    find? identifier = none ↔ identifier ∉ identifiers := by
  rw [find?, List.find?_eq_none, identifiers, List.mem_map]
  simp

/-- **Built-in rules are determined by their identifiers.** -/
theorem filterMap_find?_identifiers {chosen : List Rule} (h : ∀ rule ∈ chosen, rule ∈ rules) :
    (chosen.map Rule.identifier).filterMap find? = chosen := by
  rw [List.filterMap_map]
  have hfind : ∀ rule ∈ chosen, (find? ∘ Rule.identifier) rule = some rule := fun rule hrule =>
    find?_eq_some_iff.2 ⟨h rule hrule, rfl⟩
  rw [List.filterMap_congr hfind, List.filterMap_some]

/-! ## Names -/

/-- A name without the white space around it. -/
def trimmed (name : String) : String := String.ofList (Text.trim name.toList)

/-- The name of a built-in rule. -/
def IsKnown (name : String) : Prop := trimmed name ∈ identifiers

instance : DecidablePred IsKnown := fun name =>
  inferInstanceAs (Decidable (trimmed name ∈ identifiers))

/-- **All names are known, or there is a first that is not.** -/
theorem forall_isKnown_or_exists (names : List String) :
    (∀ name ∈ names, IsKnown name) ∨ ∃ before name after, names = before ++ name :: after ∧
      (∀ name ∈ before, IsKnown name) ∧ ¬IsKnown name := by
  cases hfind : names.find? fun name => !decide (IsKnown name) with
  | none => exact .inl fun name hname => by simpa using List.find?_eq_none.1 hfind name hname
  | some name =>
    obtain ⟨hname, before, after, rfl, hbefore⟩ := List.find?_eq_some_iff_append.1 hfind
    exact .inr ⟨before, name, after, rfl, by simpa using hbefore, by simpa using hname⟩

section Step

variable {chosen : List Rule} {name : String} {names : List String}

/-- A rule that has been chosen is not chosen again. -/
theorem selectFrom_cons_of_mem (h : trimmed name ∈ chosen.map Rule.identifier) :
    selectFrom chosen (name :: names) = selectFrom chosen names := by
  rw [selectFrom]
  refine if_pos ?_
  obtain ⟨rule, hrule, hid⟩ := List.mem_map.1 h
  exact List.any_eq_true.2 ⟨rule, hrule, beq_iff_eq.2 hid⟩

/-- Any other name adds the rule that is found for it, or it is an error. -/
theorem selectFrom_cons_of_not_mem (h : trimmed name ∉ chosen.map Rule.identifier) :
    selectFrom chosen (name :: names) =
      match find? (trimmed name) with
      | none => .error ⟨trimmed name⟩
      | some rule => selectFrom (chosen ++ [rule]) names := by
  rw [selectFrom]
  refine if_neg fun hany => h ?_
  obtain ⟨rule, hrule, hid⟩ := List.any_eq_true.1 hany
  exact List.mem_map.2 ⟨rule, hrule, beq_iff_eq.1 hid⟩

end Step

/-- **Known names add the rules that they mention first.** -/
theorem selectFrom_eq_ok {names : List String} {chosen : List Rule}
    (hknown : ∀ name ∈ names, IsKnown name) (hchosen : ∀ rule ∈ chosen, rule ∈ rules)
    (hdistinct : (chosen.map Rule.identifier).Nodup) :
    ∃ selected, selectFrom chosen names = .ok selected ∧ (∀ rule ∈ selected, rule ∈ rules) ∧
      selected.map Rule.identifier
        = (chosen.map Rule.identifier ++ names.map trimmed).eraseDups := by
  induction names generalizing chosen with
  | nil => exact ⟨chosen, rfl, hchosen, by rw [List.map_nil, List.append_nil,
      eraseDups_eq_self hdistinct]⟩
  | cons name names ih =>
    obtain ⟨hname, hnames⟩ := List.forall_mem_cons.1 hknown
    by_cases hmem : trimmed name ∈ chosen.map Rule.identifier
    · rw [selectFrom_cons_of_mem hmem, List.map_cons, eraseDups_append_cons hmem]
      exact ih hnames hchosen hdistinct
    · obtain ⟨rule, hrule⟩ := Option.ne_none_iff_exists'.1 fun hnone =>
        find?_eq_none_iff.1 hnone hname
      obtain ⟨hbuiltin, hid⟩ := find?_eq_some_iff.1 hrule
      have hmap : (chosen ++ [rule]).map Rule.identifier
          = chosen.map Rule.identifier ++ [trimmed name] := by
        rw [List.map_append, List.map_singleton, hid]
      rw [selectFrom_cons_of_not_mem hmem, hrule, List.map_cons, List.append_cons, ← hmap]
      refine ih hnames (List.forall_mem_append.2 ⟨hchosen, List.forall_mem_singleton.2 hbuiltin⟩) ?_
      rw [hmap]
      exact List.nodup_append.2 ⟨hdistinct, List.nodup_singleton _, fun a ha b hb heq =>
        hmem (List.mem_singleton.1 hb ▸ heq ▸ ha)⟩

/-- **The first unknown name is the error**, whatever follows it. -/
theorem selectFrom_eq_error {before after : List String} {name : String} {chosen : List Rule}
    (hbefore : ∀ name ∈ before, IsKnown name) (hname : ¬IsKnown name)
    (hchosen : ∀ rule ∈ chosen, rule ∈ rules) :
    selectFrom chosen (before ++ name :: after) = .error ⟨trimmed name⟩ := by
  induction before generalizing chosen with
  | nil =>
    have hmem : trimmed name ∉ chosen.map Rule.identifier := fun hmem => by
      obtain ⟨rule, hrule, hid⟩ := List.mem_map.1 hmem
      rw [IsKnown, ← hid] at hname
      exact hname (List.mem_map_of_mem (hchosen rule hrule))
    rw [List.nil_append, selectFrom_cons_of_not_mem hmem, find?_eq_none_iff.2 hname]
  | cons first before ih =>
    obtain ⟨hfirst, hbefore⟩ := List.forall_mem_cons.1 hbefore
    rw [List.cons_append]
    by_cases hmem : trimmed first ∈ chosen.map Rule.identifier
    · rw [selectFrom_cons_of_mem hmem]
      exact ih hbefore hchosen
    · obtain ⟨rule, hrule⟩ := Option.ne_none_iff_exists'.1 fun hnone =>
        find?_eq_none_iff.1 hnone hfirst
      rw [selectFrom_cons_of_not_mem hmem, hrule]
      exact ih hbefore (List.forall_mem_append.2
        ⟨hchosen, List.forall_mem_singleton.2 (find?_eq_some_iff.1 hrule).1⟩)

/-! ## The selection -/

theorem select_eq_error {before after : List String} {name : String}
    (hbefore : ∀ name ∈ before, IsKnown name) (hname : ¬IsKnown name) :
    select (before ++ name :: after) = .error ⟨trimmed name⟩ :=
  selectFrom_eq_error hbefore hname (by simp)

/-- **Known names select the rules that they mention**, each at its first mention. -/
theorem exists_select_eq_ok {names : List String} (hknown : ∀ name ∈ names, IsKnown name) :
    ∃ selected, select names = .ok selected ∧ (∀ rule ∈ selected, rule ∈ rules) ∧
      selected.map Rule.identifier = (names.map trimmed).eraseDups :=
  selectFrom_eq_ok hknown (by simp) List.nodup_nil

/-- **The selection succeeds exactly when all names are known**, and then it gives the rules named,
each at its first mention. -/
theorem select_eq_ok_iff {names : List String} {chosen : List Rule} :
    select names = .ok chosen ↔ (∀ name ∈ names, IsKnown name) ∧ (∀ rule ∈ chosen, rule ∈ rules) ∧
      chosen.map Rule.identifier = (names.map trimmed).eraseDups := by
  constructor
  · intro h
    have hknown : ∀ name ∈ names, IsKnown name := by
      refine (forall_isKnown_or_exists names).resolve_right ?_
      rintro ⟨before, name, after, rfl, hbefore, hname⟩
      rw [select_eq_error hbefore hname] at h
      cases h
    obtain ⟨selected, hselected, hrules, hids⟩ := exists_select_eq_ok hknown
    obtain rfl : selected = chosen := Except.ok.inj (hselected.symm.trans h)
    exact ⟨hknown, hrules, hids⟩
  · rintro ⟨hknown, hrules, hids⟩
    obtain ⟨selected, hselected, hselectedRules, hselectedIds⟩ := exists_select_eq_ok hknown
    rw [hselected, ← filterMap_find?_identifiers hselectedRules, hselectedIds, ← hids,
      filterMap_find?_identifiers hrules]

end Catalog

end SwiftStyle
