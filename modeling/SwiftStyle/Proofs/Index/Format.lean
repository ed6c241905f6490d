import SwiftStyle.Proofs.Index.Text
import SwiftStyle.Proofs.Json.Flat
import SwiftStyle.Proofs.Text.Bytes

/-!
# Proofs/Index/Format — the text of an index is its normal form

A text is read as an index exactly when it is a flat object, in whatever way it is written; the
index answers with the last pair of each name (`parse?_eq_some_iff`).  Of all the texts that are
read as one index, `text` writes one that depends on the answers of the index alone
(`text_eq_iff`), holds its entries and nothing else (`flatObject_text_iff`) and has its names in the
order of their bytes.  `text_roundTrip` puts these together.
-/

namespace SwiftStyle

namespace DeclarationIndex

/-! ## What is read as an index -/

theorem get?_ofList (pairs : List (String × String)) (name : String) :
    (ofList pairs).get? name = pairs.reverse.lookup name := by
  rw [ofList, get?_merge, get?_empty, Option.or_none]

/-- **A text is read as an index** when it is a flat object, and the index answers with the last
pair of each name. -/
theorem parse?_eq_some_iff {s : String} {i : DeclarationIndex} :
    parse? s = some i ↔ ∃ pairs, Json.FlatObject s.toList pairs ∧
      ∀ name, i.get? name = pairs.reverse.lookup name := by
  constructor
  · intro h
    obtain ⟨j, hj, hi⟩ := Option.bind_eq_some_iff.1 h
    obtain ⟨pairs, rfl, rfl⟩ := ofJson?_eq_some_iff.1 hi
    exact ⟨pairs, Json.parse?_eq_flat_iff.1 hj, get?_ofList pairs⟩
  · rintro ⟨pairs, hs, hi⟩
    have hofList : ofList pairs = i := ext fun name => (get?_ofList pairs name).trans (hi name).symm
    exact Option.bind_eq_some_iff.2
      ⟨_, Json.parse?_eq_flat_iff.2 hs, ofJson?_eq_some_iff.2 ⟨pairs, rfl, hofList⟩⟩

/-! ## What is written -/

/-- **The text of an index depends on its answers alone.** -/
theorem text_eq_iff {i j : DeclarationIndex} :
    i.text = j.text ↔ ∀ name, i.get? name = j.get? name := by
  constructor
  · intro h name
    have hread := parse?_text i
    rw [h, parse?_text j, Option.some.injEq] at hread
    rw [hread]
  · intro h
    rw [ext h]

/-- **The text of an index is the object of its entries** in their order. -/
theorem flatObject_text_iff {i : DeclarationIndex} {pairs : List (String × String)} :
    Json.FlatObject i.text.toList pairs ↔ pairs = i.entries := by
  have htext : Json.FlatObject i.text.toList i.entries :=
    Json.parse?_eq_flat_iff.1 (Json.parse?_pretty i.readable_toJson).2
  constructor
  · exact fun h => h.unique htext
  · rintro rfl
    exact htext

/-- **The format of an index, there and back.** -/
theorem text_roundTrip :
    -- an index is read back from its text
    (∀ i : DeclarationIndex, parse? i.text = some i) ∧
    -- what is read is any flat object, and the last pair of a name counts
    (∀ s i, parse? s = some i ↔ ∃ pairs, Json.FlatObject s.toList pairs ∧
      ∀ name, i.get? name = pairs.reverse.lookup name) ∧
    -- however an index was written, its text depends on its answers alone
    (∀ s s' i i', parse? s = some i → parse? s' = some i' →
      (i.text = i'.text ↔ ∀ name, i.get? name = i'.get? name)) ∧
    -- that text is read as an index with the same answers and the same text
    (∀ s i, parse? s = some i → ∃ j, parse? i.text = some j ∧
      (∀ name, j.get? name = i.get? name) ∧ j.text.toUTF8 = i.text.toUTF8) ∧
    -- it holds the entries, whose names are in the order of their bytes
    (∀ i : DeclarationIndex, ∀ pairs, Json.FlatObject i.text.toList pairs ↔ pairs = i.entries) ∧
    ∀ i : DeclarationIndex, i.entries.Pairwise fun a b => utf8 a.1 < utf8 b.1 :=
  ⟨parse?_text, fun _ _ => parse?_eq_some_iff, fun _ _ _ _ _ _ => text_eq_iff,
    fun _ i _ => ⟨i, parse?_text i, fun _ => rfl, rfl⟩, fun _ _ => flatObject_text_iff,
    fun i => i.ordered.imp utf8_lt_utf8_iff.2⟩

/-- An object with white space, escapes, names out of order and one of them twice. -/
def untidy : String :=
  "\t\x7b\"b\":\"1\" , \"\\u0061\"\r\n: \"\\ud83d\\uDE00\\/\\n\",\n\"b\":\"\\u00e9\"\x7d "

/-- The untidy object is read, and written again in its normal form. -/
theorem text_roundTrip_untidy :
    ∃ i j pairs, parse? untidy = some i ∧ i.entries = [("a", "😀/\n"), ("b", "é")] ∧
      Json.FlatObject untidy.toList pairs ∧ pairs.reverse.lookup "b" = some "é" ∧
      i.text = "\x7b\n  \"a\": \"😀/\\n\",\n  \"b\": \"é\"\n\x7d\n" ∧
      parse? i.text = some j ∧ j.text.toUTF8 = i.text.toUTF8 := by
  have hread : parse? untidy = some ⟨[("a", "😀/\n"), ("b", "é")], by decide⟩ := by
    decide +kernel
  obtain ⟨_, hparse, _, hagain, _⟩ := text_roundTrip
  obtain ⟨pairs, hpairs, hlast⟩ := (hparse untidy _).1 hread
  obtain ⟨j, hj, _, hbytes⟩ := hagain untidy _ hread
  exact ⟨_, j, pairs, hread, rfl, hpairs, (hlast "b").symm, by decide +kernel, hj, hbytes⟩

end DeclarationIndex

end SwiftStyle
