import SwiftStyle.Json.Parser

/-!
# Proofs/Json/Strings — how a string may be written

A character stands in a string as itself, as a letter after a backslash, as its number in four
digits of base 16, or, beyond the basic plane, as two such numbers: its halves (`Spells`).  The
reader accepts these spellings one after the other up to the closing quote, and nothing else
(`stringTail?_eq_some_iff`).

The reader works in two passes, so both directions go through the pieces between them: what a
spelling adds to the pieces and what these pieces are joined to (`Spells.exists_pieces`), and back,
which spelling a piece was read from (`pieces?_cases`).
-/

namespace SwiftStyle.Json

/-! ## Spellings -/

/-- A digit of base 16, and its value. -/
def Digit (c : Char) (n : Nat) : Prop :=
  "0123456789abcdef".toList[n]? = some c ∨ "0123456789ABCDEF".toList[n]? = some c

instance (c : Char) (n : Nat) : Decidable (Digit c n) := inferInstanceAs (Decidable (_ ∨ _))

/-- Four digits of base 16, and the number they stand for. -/
inductive Numeral : List Char → Nat → Prop
  | mk {a b c d : Char} {w x y z : Nat} (ha : Digit a w) (hb : Digit b x) (hc : Digit c y)
      (hd : Digit d z) : Numeral [a, b, c, d] (((w * 16 + x) * 16 + y) * 16 + z)

/-- The letters that stand for a character after a backslash. -/
def letterEscapes : List (Char × Char) :=
  [('\"', '\"'), ('\\', '\\'), ('/', '/'), ('b', '\x08'), ('f', '\x0c'), ('n', '\n'), ('r', '\r'),
    ('t', '\t')]

/-- **What a character may be written as** inside a string. -/
inductive Spells : List Char → Char → Prop
  | plain {c : Char} (hcontrol : ¬ c.toNat < 0x20) (hquote : c ≠ '\"') (hback : c ≠ '\\') :
      Spells [c] c
  | letter {e c : Char} (h : (e, c) ∈ letterEscapes) : Spells ['\\', e] c
  | number {ds : List Char} {c : Char} (h : Numeral ds c.toNat) : Spells ('\\' :: 'u' :: ds) c
  | halves {high low : List Char} {c : Char} (hplane : 0x10000 ≤ c.toNat)
      (hhigh : Numeral high (0xD800 + (c.toNat - 0x10000) / 0x400))
      (hlow : Numeral low (0xDC00 + (c.toNat - 0x10000) % 0x400)) :
      Spells ('\\' :: 'u' :: high ++ '\\' :: 'u' :: low) c

/-- **What characters may be written as** inside a string: spellings one after the other. -/
inductive Spelled : List Char → List Char → Prop
  | nil : Spelled [] []
  | cons {s body cs : List Char} {c : Char} (h : Spells s c) (hmore : Spelled body cs) :
      Spelled (s ++ body) (c :: cs)

/-! ## Numbers of characters -/

theorem Digit.lt {c : Char} {n : Nat} (h : Digit c n) : n < 16 := by
  rcases h with h | h
  · exact (List.getElem?_eq_some_iff.1 h).1
  · exact (List.getElem?_eq_some_iff.1 h).1

theorem Numeral.lt {ds : List Char} {n : Nat} (h : Numeral ds n) : n < 0x10000 := by
  obtain ⟨ha, hb, hc, hd⟩ := h
  have := ha.lt
  have := hb.lt
  have := hc.lt
  have := hd.lt
  omega

/-- A character is no half of one, and there are no characters past the last plane. -/
theorem toNat_cases (c : Char) : c.toNat < 0xD800 ∨ 0xDFFF < c.toNat ∧ c.toNat < 0x110000 := c.valid

/-- A number that is no half is the number of a character. -/
theorem toNat_ofNat {n : Nat} (hlt : n < 0x110000) (hhalf : ¬ (0xD800 ≤ n ∧ n < 0xE000)) :
    (Char.ofNat n).toNat = n := by
  have hvalid : n.isValidChar := by
    unfold Nat.isValidChar
    omega
  rw [Char.ofNat, dif_pos hvalid]
  rfl

/-! ## Reading a spelling -/

/-- **The reader knows the digits** of base 16. -/
theorem hexValue?_eq_some_iff {c : Char} {n : Nat} : hexValue? c = some n ↔ Digit c n := by
  constructor
  · intro h
    have hlast : c.toNat ≤ 'f'.toNat := by
      have hle : ∀ {a b : Char}, a ≤ b ↔ a.toNat ≤ b.toNat := Iff.rfl
      simp only [hexValue?, Bool.and_eq_true, decide_eq_true_eq, hle, Char.reduceToNat] at h ⊢
      split at h
      · omega
      · split at h
        · omega
        · split at h
          · omega
          · cases h
    have hall : ∀ k ≤ 'f'.toNat, ∀ n ∈ hexValue? (Char.ofNat k), Digit (Char.ofNat k) n := by decide
    exact Char.ofNat_toNat c ▸ hall c.toNat hlast n ((Char.ofNat_toNat c).symm ▸ h)
  · intro h
    have hlower : ∀ n < 16, "0123456789abcdef".toList[n]?.bind hexValue? = some n := by decide
    have hupper : ∀ n < 16, "0123456789ABCDEF".toList[n]?.bind hexValue? = some n := by decide
    have hn := h.lt
    rcases h with h | h
    · have hread := hlower n hn
      rwa [h] at hread
    · have hread := hupper n hn
      rwa [h] at hread

/-- **The reader knows the letters.** -/
theorem simpleEscape?_eq_some_iff {e c : Char} :
    simpleEscape? e = some c ↔ (e, c) ∈ letterEscapes := by
  constructor
  · intro h
    unfold simpleEscape? at h
    split at h <;> cases h <;> decide
  · intro h
    have hall : ∀ entry ∈ letterEscapes, simpleEscape? entry.1 = some entry.2 := by decide
    exact hall _ h

/-- A character that is not escaped. -/
theorem pieces?_cons {c : Char} (hcontrol : ¬ c.toNat < 0x20) (hquote : c ≠ '\"')
    (hback : c ≠ '\\') (rest : List Char) :
    pieces? (c :: rest) = (pieces? rest).map fun (more, after) => (.character c :: more, after) := by
  rw [pieces?]
  · rw [if_neg (by simp [hcontrol, hback])]
    cases pieces? rest <;> rfl
  · exact hquote
  · rintro _ _ _ _ _ rfl -
    exact hback rfl
  · rintro _ _ rfl -
    exact hback rfl

/-- A character that is escaped by one letter. -/
theorem pieces?_letter {e c : Char} (he : simpleEscape? e = some c) (rest : List Char) :
    pieces? ('\\' :: e :: rest)
      = (pieces? rest).map fun (more, after) => (.character c :: more, after) := by
  rw [pieces?]
  · rw [he]
    cases pieces? rest <;> rfl
  · rintro _ _ _ _ _ rfl -
    cases he

/-- A number. -/
theorem pieces?_number {ds : List Char} {n : Nat} (h : Numeral ds n) (rest : List Char) :
    pieces? ('\\' :: 'u' :: ds ++ rest)
      = (pieces? rest).map fun (more, after) => (.unit n :: more, after) := by
  obtain ⟨ha, hb, hc, hd⟩ := h
  simp only [List.cons_append, List.nil_append, pieces?, hexValue?_eq_some_iff.2 ha,
    hexValue?_eq_some_iff.2 hb, hexValue?_eq_some_iff.2 hc, hexValue?_eq_some_iff.2 hd]
  cases pieces? rest <;> rfl

/-- A number that is no half stands for its character. -/
theorem joinPieces?_unit {n : Nat} (h : ¬ (0xD800 ≤ n ∧ n < 0xE000)) (rest : List Piece) :
    joinPieces? (.unit n :: rest) = (joinPieces? rest).map (Char.ofNat n :: ·) := by
  have hhigh : ¬ (0xD800 ≤ n ∧ n < 0xDC00) := by omega
  have hlow : ¬ (0xDC00 ≤ n ∧ n < 0xE000) := by omega
  rcases rest with _ | ⟨_ | _, rest⟩ <;>
    simp only [joinPieces?, Bool.and_eq_true, decide_eq_true_eq, if_neg h, if_neg hhigh,
      if_neg hlow]

/-- **What a spelling adds to the pieces**, and what these pieces are joined to. -/
theorem Spells.exists_pieces {s : List Char} {c : Char} (h : Spells s c) :
    ∃ ps, (∀ rest, pieces? (s ++ rest)
        = (pieces? rest).map fun (more, after) => (ps ++ more, after)) ∧
      ∀ more, joinPieces? (ps ++ more) = (joinPieces? more).map (c :: ·) := by
  cases h with
  | plain hcontrol hquote hback =>
    exact ⟨[.character c], pieces?_cons hcontrol hquote hback, fun more => rfl⟩
  | letter h => exact ⟨[.character c], pieces?_letter (simpleEscape?_eq_some_iff.2 h), fun more => rfl⟩
  | number h =>
    refine ⟨[.unit c.toNat], pieces?_number h, fun more => ?_⟩
    have hhalf : ¬ (0xD800 ≤ c.toNat ∧ c.toNat < 0xE000) := by have := toNat_cases c; omega
    exact (joinPieces?_unit hhalf more).trans (by rw [Char.ofNat_toNat])
  | halves hplane hhigh hlow =>
    have hlast := toNat_cases c
    refine ⟨[.unit (0xD800 + (c.toNat - 0x10000) / 0x400),
      .unit (0xDC00 + (c.toNat - 0x10000) % 0x400)], fun rest => ?_, fun more => ?_⟩
    · rw [List.append_assoc, pieces?_number hhigh, pieces?_number hlow, Option.map_map]
      rfl
    · have hsum : 0x10000 + (0xD800 + (c.toNat - 0x10000) / 0x400 - 0xD800) * 0x400
          + (0xDC00 + (c.toNat - 0x10000) % 0x400 - 0xDC00) = c.toNat := by omega
      rw [List.cons_append, List.cons_append, List.nil_append, joinPieces?, if_pos, if_pos, hsum,
        Char.ofNat_toNat]
      · simp only [Bool.and_eq_true, decide_eq_true_eq]
        omega
      · simp only [Bool.and_eq_true, decide_eq_true_eq]
        omega

/-! ## Which spelling was read -/

/-- A spelling that a piece is read from. -/
inductive Piece.ReadFrom : Piece → List Char → Prop
  | character {s : List Char} {c : Char} (h : Spells s c) : ReadFrom (.character c) s
  | unit {ds : List Char} {n : Nat} (h : Numeral ds n) : ReadFrom (.unit n) ('\\' :: 'u' :: ds)

/-- **What the reader finds**: the closing quote, or a spelling that it takes for one piece. -/
theorem pieces?_cases {text rest : List Char} {ps : List Piece}
    (h : pieces? text = some (ps, rest)) :
    (ps = [] ∧ text = '\"' :: rest) ∨ ∃ p ps' s more, ps = p :: ps' ∧ p.ReadFrom s ∧
      text = s ++ more ∧ pieces? more = some (ps', rest) := by
  rw [pieces?.eq_def] at h
  simp only [Option.bind_eq_bind, Option.pure_def] at h
  split at h
  · cases h
  · cases h
    exact .inl ⟨rfl, rfl⟩
  · next a b c d more =>
    simp only [Option.bind_eq_some_iff, hexValue?_eq_some_iff] at h
    obtain ⟨w, hw, x, hx, y, hy, z, hz, ⟨ps', rest'⟩, hread, h⟩ := h
    cases h
    exact .inr ⟨_, ps', _, more, rfl, .unit (.mk hw hx hy hz), rfl, hread⟩
  · next e more _ =>
    simp only [Option.bind_eq_some_iff, simpleEscape?_eq_some_iff] at h
    obtain ⟨c, hc, ⟨ps', rest'⟩, hread, h⟩ := h
    cases h
    exact .inr ⟨_, ps', _, more, rfl, .character (.letter hc), rfl, hread⟩
  · next c more hquote _ _ =>
    split at h
    · cases h
    · next hplain =>
      simp only [Bool.or_eq_true, decide_eq_true_eq, beq_iff_eq, not_or] at hplain
      simp only [Option.bind_eq_some_iff] at h
      obtain ⟨⟨ps', rest'⟩, hread, h⟩ := h
      cases h
      exact .inr ⟨_, ps', _, more, rfl, .character (.plain hplain.1 hquote hplain.2), rfl, hread⟩

theorem eq_of_pieces?_nil {text rest : List Char} (h : pieces? text = some ([], rest)) :
    text = '\"' :: rest := by
  obtain ⟨-, htext⟩ | ⟨_, _, _, _, heq, _⟩ := pieces?_cases h
  · exact htext
  · cases heq

/-- A piece was read from a spelling at the front of the text. -/
theorem append_of_pieces?_cons {text rest : List Char} {p : Piece} {ps : List Piece}
    (h : pieces? text = some (p :: ps, rest)) :
    ∃ s more, p.ReadFrom s ∧ text = s ++ more ∧ pieces? more = some (ps, rest) := by
  obtain ⟨heq, -⟩ | ⟨_, _, s, more, heq, hs, htext, hmore⟩ := pieces?_cases h
  · cases heq
  · cases heq
    exact ⟨s, more, hs, htext, hmore⟩

/-- A number that is no half spells its character. -/
theorem Numeral.spells {ds : List Char} {n : Nat} (h : Numeral ds n)
    (hhalf : ¬ (0xD800 ≤ n ∧ n < 0xE000)) : Spells ('\\' :: 'u' :: ds) (Char.ofNat n) := by
  have hlt := h.lt
  refine .number ?_
  rwa [toNat_ofNat (by omega) hhalf]

/-- Two halves spell the character that they are halves of. -/
theorem Numeral.spells_halves {ds ds' : List Char} {high low : Nat} (h : Numeral ds high)
    (h' : Numeral ds' low) (hhigh : 0xD800 ≤ high ∧ high < 0xDC00)
    (hlow : 0xDC00 ≤ low ∧ low < 0xE000) :
    Spells ('\\' :: 'u' :: ds ++ '\\' :: 'u' :: ds')
      (Char.ofNat (0x10000 + (high - 0xD800) * 0x400 + (low - 0xDC00))) := by
  have hnumber := toNat_ofNat (n := 0x10000 + (high - 0xD800) * 0x400 + (low - 0xDC00)) (by omega)
    (by omega)
  refine .halves (by omega) ?_ ?_
  · have hfirst : 0xD800 + (0x10000 + (high - 0xD800) * 0x400 + (low - 0xDC00) - 0x10000) / 0x400
        = high := by omega
    rwa [hnumber, hfirst]
  · have hsecond : 0xDC00 + (0x10000 + (high - 0xD800) * 0x400 + (low - 0xDC00) - 0x10000) % 0x400
        = low := by omega
    rwa [hnumber, hsecond]

theorem exists_spelled_cons {s more rest cs : List Char} {c : Char} (hs : Spells s c)
    (h : ∃ body, Spelled body cs ∧ more = body ++ '\"' :: rest) :
    ∃ body, Spelled body (c :: cs) ∧ s ++ more = body ++ '\"' :: rest := by
  obtain ⟨body, hbody, rfl⟩ := h
  exact ⟨s ++ body, .cons hs hbody, (List.append_assoc ..).symm⟩

/-- **Pieces that can be joined were read from spellings** of what they are joined to. -/
theorem exists_spelled {text rest : List Char} {ps : List Piece} {cs : List Char}
    (h : pieces? text = some (ps, rest)) (hjoin : joinPieces? ps = some cs) :
    ∃ body, Spelled body cs ∧ text = body ++ '\"' :: rest := by
  fun_induction joinPieces? ps generalizing text cs with
  | case1 =>
    cases hjoin
    exact ⟨[], .nil, eq_of_pieces?_nil h⟩
  | case2 c ps ih =>
    obtain ⟨cs, hcs, rfl⟩ := Option.map_eq_some_iff.1 hjoin
    obtain ⟨s, more, ⟨hs⟩, rfl, hmore⟩ := append_of_pieces?_cons h
    exact exists_spelled_cons hs (ih hmore hcs)
  | case3 high low ps hhigh hlow ih =>
    obtain ⟨cs, hcs, rfl⟩ := Option.map_eq_some_iff.1 hjoin
    obtain ⟨s, more, _ | hs, rfl, hmore⟩ := append_of_pieces?_cons h
    obtain ⟨s', more', _ | hs', rfl, hmore'⟩ := append_of_pieces?_cons hmore
    simp only [Bool.and_eq_true, decide_eq_true_eq] at hhigh hlow
    rw [← List.append_assoc]
    exact exists_spelled_cons (hs.spells_halves hs' hhigh hlow) (ih hmore' hcs)
  | case4 => cases hjoin
  | case5 => cases hjoin
  | case6 high low ps hhigh hlow ih =>
    obtain ⟨cs, hcs, rfl⟩ := Option.map_eq_some_iff.1 hjoin
    obtain ⟨s, more, _ | hs, rfl, hmore⟩ := append_of_pieces?_cons h
    simp only [Bool.and_eq_true, decide_eq_true_eq] at hhigh hlow
    exact exists_spelled_cons (hs.spells (by omega)) (ih hmore hcs)
  | case7 => cases hjoin
  | case8 n ps _ hhalf ih =>
    obtain ⟨cs, hcs, rfl⟩ := Option.map_eq_some_iff.1 hjoin
    obtain ⟨s, more, _ | hs, rfl, hmore⟩ := append_of_pieces?_cons h
    simp only [Bool.and_eq_true, decide_eq_true_eq] at hhalf
    exact exists_spelled_cons (hs.spells hhalf) (ih hmore hcs)

/-! ## Strings -/

/-- **Spellings are read** up to the closing quote. -/
theorem Spelled.exists_pieces {body cs : List Char} (h : Spelled body cs) (rest : List Char) :
    ∃ ps, pieces? (body ++ '\"' :: rest) = some (ps, rest) ∧ joinPieces? ps = some cs := by
  induction h with
  | nil => exact ⟨[], by rw [List.nil_append, pieces?], rfl⟩
  | cons hs _ ih =>
    obtain ⟨first, hread, hjoin⟩ := hs.exists_pieces
    obtain ⟨ps, hps, hcs⟩ := ih
    refine ⟨first ++ ps, ?_, ?_⟩
    · rw [List.append_assoc, hread, hps]
      rfl
    · rw [hjoin, hcs]
      rfl

/-- **A string is read exactly from the spellings of its characters** and a closing quote. -/
theorem stringTail?_eq_some_iff {text rest : List Char} {v : String} :
    stringTail? text = some (v, rest) ↔
      ∃ body, Spelled body v.toList ∧ text = body ++ '\"' :: rest := by
  constructor
  · intro h
    simp only [stringTail?, Option.bind_eq_bind, Option.bind_eq_some_iff, Option.pure_def,
      Option.some.injEq, Prod.mk.injEq] at h
    obtain ⟨⟨ps, rest'⟩, hread, cs, hjoin, rfl, rfl⟩ := h
    rw [String.toList_ofList]
    exact exists_spelled hread hjoin
  · rintro ⟨body, hbody, rfl⟩
    obtain ⟨ps, hread, hjoin⟩ := hbody.exists_pieces rest
    rw [stringTail?, hread]
    simp [hjoin]

end SwiftStyle.Json
