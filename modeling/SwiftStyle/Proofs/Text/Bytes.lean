/-!
# Proofs/Text/Bytes — texts and their bytes

Texts are ordered by the numbers of their characters.  In UTF-8 a character with a greater number
has greater bytes, already in the first place where the bytes differ
(`utf8EncodeChar_append_lt`), so the bytes of texts are in the same order as the texts
(`utf8_lt_utf8_iff`).  The byte of a newline stands for a newline and is no part of any other
character (`count_newline_utf8EncodeChar`).
-/

namespace SwiftStyle

/-- The bytes of a text. -/
def utf8 (text : String) : List UInt8 := text.toUTF8.data.toList

theorem utf8_eq (text : String) : utf8 text = text.toList.flatMap String.utf8EncodeChar := by
  have hbytes : text.toUTF8 = text.toList.utf8Encode := String.utf8Encode_toList.symm
  rw [utf8, hbytes, List.utf8Encode, List.toList_data_toByteArray]

/-- **A text is read back from its bytes.** -/
theorem fromUTF8?_toUTF8 (text : String) : String.fromUTF8? text.toUTF8 = some text :=
  dif_pos text.isValidUTF8

/-! ## Order -/

/-- **Greater characters have greater bytes**, whatever follows them. -/
theorem utf8EncodeChar_append_lt {c d : Char} (h : c < d) (u v : List UInt8) :
    String.utf8EncodeChar c ++ u < String.utf8EncodeChar d ++ v := by
  have hlt : c.val.toNat < d.val.toNat := h
  have hlast : d.val.toNat < 0x110000 := by
    have hvalid : d.val.toNat < 0xD800 ∨ 0xDFFF < d.val.toNat ∧ d.val.toNat < 0x110000 := d.valid
    omega
  unfold String.utf8EncodeChar
  simp only
  -- one case for each number of bytes: the first bytes tell different numbers apart, and with as
  -- many bytes the digits in base 64 do
  repeat' split
  all_goals
    simp only [List.cons_append, List.nil_append, List.cons_lt_cons_iff, UInt8.lt_iff_toNat_lt,
      ← UInt8.toNat_inj, UInt8.toNat_ofNat']
    simp (disch := omega) only [Nat.mod_eq_of_lt]
    omega

theorem flatMap_utf8EncodeChar_lt {l m : List Char} (h : l < m) :
    l.flatMap String.utf8EncodeChar < m.flatMap String.utf8EncodeChar := by
  induction h with
  | @nil d m =>
    have hne : String.utf8EncodeChar d ≠ [] := by
      intro hnil
      have hsize := String.length_utf8EncodeChar d
      rw [hnil] at hsize
      have := d.utf8Size_pos
      simp at hsize
      omega
    obtain ⟨b, bs, hbytes⟩ := List.exists_cons_of_ne_nil hne
    rw [List.flatMap_cons, hbytes]
    exact List.nil_lt_cons ..
  | rel h => exact utf8EncodeChar_append_lt h _ _
  | cons _ ih => exact List.append_left_lt ih

/-- **Texts are ordered as their bytes are.** -/
theorem utf8_lt_utf8_iff {a b : String} : utf8 a < utf8 b ↔ a < b := by
  have hmono : ∀ {a b : String}, a < b → utf8 a < utf8 b := by
    intro a b h
    rw [utf8_eq, utf8_eq]
    exact flatMap_utf8EncodeChar_lt h
  constructor
  · intro h
    refine Decidable.of_not_not fun hge => ?_
    by_cases hgt : b < a
    · exact List.lt_asymm h (hmono hgt)
    · obtain rfl : a = b := String.le_antisymm (String.not_lt.1 hgt) (String.not_lt.1 hge)
      exact List.lt_irrefl _ h
  · exact hmono

/-! ## Newlines -/

theorem newline_not_mem_utf8EncodeChar {c : Char} (h : c ≠ '\n') :
    '\n'.toUInt8 ∉ String.utf8EncodeChar c := by
  have hbyte : '\n'.toUInt8.toNat = 10 := rfl
  have hc : c.val.toNat ≠ 10 := fun hn => h (Char.ext (UInt32.toNat_inj.1 hn))
  unfold String.utf8EncodeChar
  simp only
  repeat' split
  all_goals
    simp only [List.mem_cons, List.not_mem_nil, or_false, ← UInt8.toNat_inj, UInt8.toNat_ofNat',
      hbyte]
    omega

/-- **The byte of a newline stands for a newline**, however many bytes of a character are taken. -/
theorem count_newline_utf8EncodeChar (c : Char) (bytes : Nat) :
    ((String.utf8EncodeChar c).take (bytes + 1)).count '\n'.toUInt8 = if c = '\n' then 1 else 0 := by
  split
  · next hc =>
    subst hc
    have hbytes : String.utf8EncodeChar '\n' = ['\n'.toUInt8] := rfl
    rw [hbytes, List.take_succ_cons, List.take_nil]
    rfl
  · next hc =>
    exact List.count_eq_zero.2 fun hmem =>
      newline_not_mem_utf8EncodeChar hc (List.mem_of_mem_take hmem)

end SwiftStyle
