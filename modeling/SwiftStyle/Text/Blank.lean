/-!
# Text/Blank — white space, trimming and words

White space is the Unicode property White_Space. Trimming and word splitting work on lists of
characters, so that each is one library function with its usual lemmas.
-/

namespace SwiftStyle.Text

/-- The characters of the Unicode property White_Space. -/
def isBlank (c : Char) : Bool :=
  let n := c.toNat
  (0x9 ≤ n && n ≤ 0xD) || n == 0x20 || n == 0x85 || n == 0xA0 || n == 0x1680
    || (0x2000 ≤ n && n ≤ 0x200A) || n == 0x2028 || n == 0x2029 || n == 0x202F || n == 0x205F
    || n == 0x3000

/-- Cut leading white space. -/
def trimStart (text : List Char) : List Char := text.dropWhile isBlank

/-- Cut the trailing characters that satisfy `p`. -/
def trimEndWhile (p : Char → Bool) (text : List Char) : List Char :=
  (text.reverse.dropWhile p).reverse

/-- Cut trailing white space. -/
def trimEnd (text : List Char) : List Char := trimEndWhile isBlank text

/-- Cut white space on both sides. -/
def trim (text : List Char) : List Char := trimEnd (trimStart text)

/-- The pieces between the characters that satisfy `p`, empty pieces included: one more than there
are such characters. -/
def splitAt (p : Char → Bool) : List Char → List (List Char)
  | [] => [[]]
  | c :: rest =>
      if p c then [] :: splitAt p rest
      else
        match splitAt p rest with
        | [] => [[c]]
        | piece :: pieces => (c :: piece) :: pieces

/-- The non-empty pieces between the characters that satisfy `p`. -/
def words (p : Char → Bool) (text : List Char) : List (List Char) :=
  (splitAt p text).filter (fun piece => !piece.isEmpty)

theorem splitAt_ne_nil (p : Char → Bool) : ∀ text : List Char, splitAt p text ≠ []
  | [] => by simp [splitAt]
  | c :: rest => by
      rw [splitAt]
      split
      · simp
      · split <;> simp

/-- **A separator cuts a text in two**: the pieces before it and the pieces after it. -/
theorem splitAt_append_cons {p : Char → Bool} {c : Char} (hc : p c = true)
    (before after : List Char) :
    splitAt p (before ++ c :: after) = splitAt p before ++ splitAt p after := by
  induction before with
  | nil => simp [splitAt, hc]
  | cons b before ih =>
    rw [List.cons_append, splitAt, splitAt, ih]
    split
    · rfl
    · cases h : splitAt p before with
      | nil => exact absurd h (splitAt_ne_nil p before)
      | cons piece pieces => rfl

/-- A text without separators is one piece. -/
theorem splitAt_eq_singleton {p : Char → Bool} {text : List Char} (h : ∀ c ∈ text, p c = false) :
    splitAt p text = [text] := by
  induction text with
  | nil => rfl
  | cons c text ih =>
    rw [splitAt, ih fun d hd => h d (List.mem_cons_of_mem _ hd)]
    simp [h c List.mem_cons_self]

/-- **Pieces without separators come apart as they were joined.** -/
theorem splitAt_intercalate {p : Char → Bool} {c : Char} (hc : p c = true)
    {pieces : List (List Char)} (hne : pieces ≠ [])
    (h : ∀ piece ∈ pieces, ∀ c ∈ piece, p c = false) :
    splitAt p ([c].intercalate pieces) = pieces := by
  induction pieces with
  | nil => exact absurd rfl hne
  | cons piece pieces ih =>
    have hpiece := splitAt_eq_singleton (h piece List.mem_cons_self)
    by_cases hnil : pieces = []
    · subst hnil
      simpa using hpiece
    · rw [List.intercalate_cons_of_ne_nil hnil, List.append_assoc, List.singleton_append,
        splitAt_append_cons hc, hpiece,
        ih hnil fun q hq => h q (List.mem_cons_of_mem _ hq), List.singleton_append]

/-- No piece has a separator in it. -/
theorem not_separator_of_mem_splitAt {p : Char → Bool} {text piece : List Char}
    (h : piece ∈ splitAt p text) : ∀ c ∈ piece, p c = false := by
  induction text generalizing piece with
  | nil => simp_all [splitAt]
  | cons c text ih =>
    rw [splitAt] at h
    split at h
    · rcases List.mem_cons.1 h with rfl | h
      · simp
      · exact ih h
    · next hc =>
      cases hsplit : splitAt p text with
      | nil => exact absurd hsplit (splitAt_ne_nil p text)
      | cons first pieces =>
        rw [hsplit] at h ih
        rcases List.mem_cons.1 h with rfl | h
        · simpa [hc] using ih List.mem_cons_self
        · exact ih (List.mem_cons_of_mem _ h)

/-- No piece is longer than the text. -/
theorem length_le_of_mem_splitAt {p : Char → Bool} {text piece : List Char}
    (h : piece ∈ splitAt p text) : piece.length ≤ text.length := by
  induction text generalizing piece with
  | nil => simp_all [splitAt]
  | cons c text ih =>
    rw [splitAt] at h
    split at h
    · rcases List.mem_cons.1 h with rfl | h
      · simp
      · exact Nat.le_succ_of_le (ih h)
    · cases hsplit : splitAt p text with
      | nil => exact absurd hsplit (splitAt_ne_nil p text)
      | cons first pieces =>
        rw [hsplit] at h ih
        rcases List.mem_cons.1 h with rfl | h
        · exact Nat.succ_le_succ (ih List.mem_cons_self)
        · exact Nat.le_succ_of_le (ih (List.mem_cons_of_mem _ h))

/-- The last piece is empty only after a separator. -/
theorem getLast?_of_getLast?_splitAt {p : Char → Bool} {text : List Char}
    (h : (splitAt p text).getLast? = some []) : text = [] ∨ ∃ c, text.getLast? = some c ∧ p c := by
  induction text with
  | nil => exact .inl rfl
  | cons c text ih =>
    obtain ⟨first, pieces, hsplit⟩ := List.exists_cons_of_ne_nil (splitAt_ne_nil p text)
    rw [splitAt, hsplit] at h
    rw [hsplit] at ih
    split at h
    · next hc =>
      rcases ih (by simpa using h) with rfl | ⟨d, hd, hp⟩
      · exact .inr ⟨c, rfl, hc⟩
      · exact .inr ⟨d, by simp [List.getLast?_cons, hd], hp⟩
    · cases pieces with
      | nil => simp at h
      | cons second pieces =>
        rcases ih (by simpa using h) with rfl | ⟨d, hd, hp⟩
        · simp [splitAt] at hsplit
        · exact .inr ⟨d, by simp [List.getLast?_cons, hd], hp⟩

end SwiftStyle.Text
