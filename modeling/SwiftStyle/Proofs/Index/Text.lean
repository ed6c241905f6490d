import SwiftStyle.Index.Json
import SwiftStyle.Proofs.Index.Entries
import SwiftStyle.Proofs.Json.Flat
import SwiftStyle.Proofs.Json.RoundTrip
import SwiftStyle.Proofs.Text.Bytes

/-!
# Proofs/Index/Text — an index is read back from its text

An index is an object of strings (`ofJson?_eq_some_iff`), so its text is read back as that object
(`Json.parse?_pretty`), and the entries of the object in their order make the index again
(`ofList_entries`).  What a path is loaded as is a matter of the bytes it leads to alone.
-/

namespace SwiftStyle

namespace DeclarationIndex

/-- **A pair is answered** when it is the only one of its name. -/
theorem get?_merge_of_mem {i : DeclarationIndex} {pairs : List (String × String)}
    {name path : String} (hnodup : (pairs.map (·.1)).Nodup) (h : (name, path) ∈ pairs) :
    (i.merge pairs).get? name = some path := by
  obtain ⟨before, after, rfl⟩ := List.append_of_mem h
  have hafter : ∀ pair ∈ after, pair.1 ≠ name := by
    intro pair hpair heq
    rw [List.map_append, List.nodup_append] at hnodup
    exact (List.nodup_cons.1 hnodup.2.1).1 (List.mem_map.2 ⟨pair, hpair, heq⟩)
  have hcons : i.merge (before ++ (name, path) :: after)
      = ((i.merge before).insert name path).merge after := merge_append i before _
  rw [hcons, get?_merge_of_forall_ne hafter, get?_insert, if_pos rfl]

/-- **The entries of an index make that index.** -/
theorem ofList_entries (i : DeclarationIndex) : ofList i.entries = i := by
  refine ext fun name => ?_
  cases hget : i.get? name with
  | none =>
    have hne : ∀ pair ∈ i.entries, pair.1 ≠ name := by
      rintro ⟨n, path⟩ hpair rfl
      simp [mem_entries_iff.1 hpair] at hget
    rw [ofList, get?_merge_of_forall_ne hne, get?_empty]
  | some path => exact get?_merge_of_mem i.nodup_names (mem_entries_iff.2 hget)

theorem readable_toJson (i : DeclarationIndex) : Json.Readable Json.depthLimit i.toJson := by
  refine .object fun field hfield => ?_
  obtain ⟨entry, _, rfl⟩ := List.mem_map.1 hfield
  exact .string entry.2

theorem asString?_eq_some_iff {j : Json} {v : String} : j.asString? = some v ↔ j = .string v := by
  cases j <;> simp [Json.asString?]

theorem mapM_asString?_eq_some_iff {fields : List (String × Json)}
    {pairs : List (String × String)} :
    fields.mapM (fun field : String × Json => field.2.asString?.map (field.1, ·)) = some pairs ↔
      fields = pairs.map Json.flatField := by
  induction fields generalizing pairs with
  | nil => cases pairs <;> simp
  | cons field fields ih =>
    simp only [List.mapM_cons, Option.bind_eq_bind, Option.bind_eq_some_iff,
      Option.map_eq_some_iff, asString?_eq_some_iff, Option.pure_def, Option.some.injEq, ih]
    constructor
    · rintro ⟨_, ⟨v, hv, rfl⟩, pairs, rfl, rfl⟩
      rw [List.map_cons, Json.flatField, ← hv]
    · intro h
      cases pairs with
      | nil => cases h
      | cons pair pairs =>
        obtain ⟨rfl, rfl⟩ := List.cons.inj h
        exact ⟨pair, ⟨pair.2, rfl, rfl⟩, pairs, rfl, rfl⟩

/-- **An object is an index** when its values are strings. -/
theorem ofJson?_eq_some_iff {j : Json} {i : DeclarationIndex} :
    ofJson? j = some i ↔ ∃ pairs, j = .object (pairs.map Json.flatField) ∧ ofList pairs = i := by
  cases j with
  | object fields => simp [ofJson?, mapM_asString?_eq_some_iff]
  | _ => simp [ofJson?]

/-- **An index is read back from its object.** -/
theorem ofJson?_toJson (i : DeclarationIndex) : ofJson? i.toJson = some i :=
  ofJson?_eq_some_iff.2 ⟨i.entries, rfl, ofList_entries i⟩

/-- **An index is read back from its text.** -/
theorem parse?_text (i : DeclarationIndex) : parse? i.text = some i := by
  rw [parse?, text, (Json.parse?_pretty i.readable_toJson).2, Option.bind_some, ofJson?_toJson]

/-! ## Loading -/

/-- The index that an entry holds. -/
def readFrom? : Entry → Option DeclarationIndex
  | .directory => none
  | .file bytes => (String.fromUTF8? bytes).bind parse?

theorem readFrom?_text (i : DeclarationIndex) : readFrom? (.file i.text.toUTF8) = some i := by
  rw [readFrom?, fromUTF8?_toUTF8, Option.bind_some, parse?_text]

/-- **What is loaded is a matter of what the path leads to.** -/
theorem index?_load (t : FileTree) (path : Path) :
    (load t path).index? = (t.entry? path).bind readFrom? := by
  rw [load, FileTree.readText, FileTree.read, FileTree.entry?]
  cases t.resolve path with
  | error e => cases e <;> rfl
  | ok place =>
    simp only [bind, Except.bind, Except.toOption, Option.bind_some]
    cases t.get? place with
    | none => rfl
    | some entry =>
      cases entry with
      | directory => rfl
      | file bytes =>
        simp only [pure, Except.pure, Option.bind_some, readFrom?]
        cases String.fromUTF8? bytes with
        | none => rfl
        | some text =>
          simp only [Option.bind_some]
          cases parse? text <;> rfl

/-- **An index that was written is loaded.** -/
theorem load_eq_loaded_iff {t : FileTree} {path : Path} {i : DeclarationIndex} :
    load t path = .loaded i ↔ (t.entry? path).bind readFrom? = some i := by
  rw [← index?_load]
  cases load t path <;> simp [Loaded.index?]

end DeclarationIndex

end SwiftStyle
