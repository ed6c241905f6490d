import Mathlib.Data.List.Basic
import Mathlib.Data.List.TakeWhile
import SwiftStyle.Text.Blank
import SwiftStyle.Text.Search

/-!
# Proofs/Text/Words — words, last places and trimmed ends

`IsWord` says of a piece of a text that it is a word: not empty, without separators, and cut off by
separators or the ends of the text.  Splitting finds these and no others (`mem_words_iff`), since a
separator between two texts keeps their words apart (`words_append`).  `splitLast?` cuts at the last
place where a text stands (`splitLast?_eq_some_iff`), and trimming takes off what is blank and
nothing else.
-/

namespace SwiftStyle.Text

/-! ## Words -/

section Words

variable {p : Char → Bool} {a b text word : List Char}

/-- **A word of a text**: a piece that is not empty, without separators, and cut off on both sides by
a separator or the end of the text. -/
structure IsWord (p : Char → Bool) (text word : List Char) : Prop where
  ne_nil : word ≠ []
  plain : ∀ c ∈ word, p c = false
  cutOff : ∃ before after, text = before ++ (word ++ after) ∧
    (∀ c, before.getLast? = some c → p c = true) ∧ ∀ c, after.head? = some c → p c = true

/-- What ends in a separator may be put in front. -/
theorem IsWord.append_left (h : IsWord p b word) (ha : ∀ c, a.getLast? = some c → p c = true) :
    IsWord p (a ++ b) word := by
  obtain ⟨before, after, rfl, hbefore, hafter⟩ := h.cutOff
  refine ⟨h.ne_nil, h.plain, a ++ before, after, (List.append_assoc ..).symm, fun c hc => ?_,
    hafter⟩
  rw [List.getLast?_append, Option.or_eq_some_iff] at hc
  rcases hc with hc | ⟨-, hc⟩
  · exact hbefore c hc
  · exact ha c hc

theorem words_nil (p : Char → Bool) : words p [] = [] := rfl

/-- A text without separators is its only word. -/
theorem words_eq_singleton (hne : text ≠ []) (h : ∀ c ∈ text, p c = false) :
    words p text = [text] := by
  rw [words, splitAt_eq_singleton h]
  simp [hne]

/-- A separator belongs to no word. -/
theorem words_append_cons {c : Char} (hc : p c = true) (a b : List Char) :
    words p (a ++ c :: b) = words p a ++ words p b := by
  rw [words, splitAt_append_cons hc, List.filter_append, words, words]

/-- **A separator between two texts keeps their words apart.** -/
theorem words_append
    (h : (∀ c, a.getLast? = some c → p c = true) ∨ ∀ c, b.head? = some c → p c = true) :
    words p (a ++ b) = words p a ++ words p b := by
  rcases h with h | h
  · rcases List.eq_nil_or_concat' a with rfl | ⟨front, c, rfl⟩
    · rfl
    · have hc : p c = true := h c (by simp)
      rw [List.append_assoc, List.singleton_append, words_append_cons hc, words_append_cons hc,
        words_nil, List.append_nil]
  · cases b with
    | nil => rw [List.append_nil, words_nil, List.append_nil]
    | cons c rest =>
      have hc : p c = true := h c rfl
      have hfront := words_append_cons hc [] rest
      rw [words_nil, List.nil_append, List.nil_append] at hfront
      rw [words_append_cons hc, hfront]

/-- A text has no separator, or a first one. -/
theorem forall_plain_or_exists (p : Char → Bool) (text : List Char) :
    (∀ c ∈ text, p c = false) ∨
      ∃ front c rest, text = front ++ c :: rest ∧ (∀ d ∈ front, p d = false) ∧ p c = true := by
  induction text with
  | nil => exact .inl (List.forall_mem_nil _)
  | cons c text ih =>
    cases hc : p c with
    | true => exact .inr ⟨[], c, text, rfl, List.forall_mem_nil _, hc⟩
    | false =>
      rcases ih with hplain | ⟨front, d, rest, rfl, hfront, hd⟩
      · exact .inl (List.forall_mem_cons.2 ⟨hc, hplain⟩)
      · exact .inr ⟨c :: front, d, rest, rfl, List.forall_mem_cons.2 ⟨hc, hfront⟩, hd⟩

/-- **A plain text stands on one side of a separator.** -/
theorem isInfix_or_isInfix_of_plain (hplain : ∀ c ∈ word, p c = false)
    (hb : ∀ c, b.head? = some c → p c = true) (h : word <:+: a ++ b) : word <:+: a ∨ word <:+: b := by
  obtain ⟨before, after, htext⟩ := h
  rcases List.append_eq_append_iff.1 htext with ⟨more, rfl, -⟩ | ⟨more, hfront, rfl⟩
  · exact .inl ⟨before, more, rfl⟩
  · rcases List.append_eq_append_iff.1 hfront with ⟨start, rfl, rfl⟩ | ⟨front, -, rfl⟩
    · -- what stands behind the separator would begin with it
      cases more with
      | nil => exact .inl ⟨before, [], by simp⟩
      | cons c more => simpa [hb c rfl] using hplain c (by simp)
    · exact .inr ⟨front, after, rfl⟩

/-- **The word at the front of a text** is determined, and so is what is left. -/
theorem append_inj_of_plain {first further first' further' : List Char}
    (h : first ++ further = first' ++ further') (hplain : ∀ c ∈ first, p c = false)
    (hcutOff : ∀ c, further.head? = some c → p c = true) (hplain' : ∀ c ∈ first', p c = false)
    (hcutOff' : ∀ c, further'.head? = some c → p c = true) :
    first = first' ∧ further = further' := by
  -- what one word has more than the other would begin with a separator
  rcases List.append_eq_append_iff.1 h with ⟨more, rfl, rfl⟩ | ⟨more, rfl, rfl⟩
  · cases more with
    | nil => simp
    | cons c more => simpa [hcutOff c rfl] using hplain' c (by simp)
  · cases more with
    | nil => simp
    | cons c more => simpa [hcutOff' c rfl] using hplain c (by simp)

/-- **Splitting finds the words of a text** and nothing else. -/
theorem mem_words_iff : word ∈ words p text ↔ IsWord p text word := by
  constructor
  · intro h
    have hne : word ≠ [] := by simpa using (List.mem_filter.1 h).2
    induction hlength : text.length using Nat.strongRecOn generalizing text with
    | ind n ih =>
      subst hlength
      rcases forall_plain_or_exists p text with hplain | ⟨front, c, rest, rfl, hfront, hc⟩
      · obtain rfl : word = text := by
          rw [words, splitAt_eq_singleton hplain] at h
          exact List.mem_singleton.1 (List.mem_filter.1 h).1
        exact ⟨hne, hplain, [], [], by simp, by simp, by simp⟩
      · rw [words_append_cons hc] at h
        rcases List.mem_append.1 h with h | h
        · obtain rfl : word = front := by
            rw [words, splitAt_eq_singleton hfront] at h
            exact List.mem_singleton.1 (List.mem_filter.1 h).1
          refine ⟨hne, hfront, [], c :: rest, rfl, by simp, fun d hd => ?_⟩
          obtain rfl := Option.some.inj hd
          exact hc
        · have hword := ih rest.length (by simp; omega) h rfl
          rw [List.append_cons]
          refine hword.append_left fun d hd => ?_
          rw [List.getLast?_concat] at hd
          obtain rfl := Option.some.inj hd
          exact hc
  · intro h
    obtain ⟨before, after, rfl, hbefore, hafter⟩ := h.cutOff
    rw [words_append (.inl hbefore), words_append (.inr hafter),
      words_eq_singleton h.ne_nil h.plain]
    simp

end Words

/-! ## Pieces between separators -/

section Pieces

variable {c : Char} {pieces : List (List Char)} {name : List Char}

/-- A piece stands between separators in the text that is joined from it and others. -/
theorem isInfix_of_mem_dropLast (h : name ∈ pieces.dropLast) :
    c :: (name ++ [c]) <:+: c :: [c].intercalate pieces := by
  induction pieces with
  | nil => cases h
  | cons piece pieces ih =>
    by_cases hnil : pieces = []
    · simp [hnil] at h
    · rw [List.dropLast_cons_of_ne_nil hnil] at h
      rw [List.intercalate_cons_of_ne_nil hnil, List.append_assoc, List.singleton_append]
      rcases List.mem_cons.1 h with rfl | h
      · exact ⟨[], [c].intercalate pieces, by simp⟩
      · exact (ih h).trans (List.suffix_append (c :: piece) _).isInfix

/-- **What stands between two separators is a piece**, and not the last one. -/
theorem isInfix_intercalate_iff (hne : pieces ≠ []) (hpieces : ∀ piece ∈ pieces, c ∉ piece)
    (hname : c ∉ name) :
    c :: (name ++ [c]) <:+: c :: [c].intercalate pieces ↔ name ∈ pieces.dropLast := by
  refine ⟨fun ⟨before, after, htext⟩ => ?_, isInfix_of_mem_dropLast⟩
  have hplain : ∀ {text : List Char}, c ∉ text → ∀ d ∈ text, (d == c) = false :=
    fun h d hd => beq_false_of_ne fun he => h (he ▸ hd)
  have hcut : ∀ front back : List Char,
      splitAt (· == c) (front ++ c :: back) = splitAt (· == c) front ++ splitAt (· == c) back :=
    splitAt_append_cons (beq_self_eq_true c)
  have htext : before ++ c :: (name ++ c :: after) = [] ++ c :: [c].intercalate pieces := by
    simpa using htext
  -- the pieces of both sides, cut at the separators
  have hsplit := congrArg (splitAt (· == c)) htext
  rw [hcut, hcut, hcut, splitAt_eq_singleton (hplain hname),
    splitAt_intercalate (p := (· == c)) (beq_self_eq_true c) hne
      fun piece hpiece => hplain (hpieces piece hpiece)] at hsplit
  obtain ⟨first, more, hbefore⟩ := List.exists_cons_of_ne_nil (splitAt_ne_nil (· == c) before)
  rw [hbefore, List.cons_append, splitAt, List.singleton_append, List.singleton_append,
    List.cons.injEq] at hsplit
  obtain ⟨-, rfl⟩ := hsplit
  rw [List.dropLast_append_of_ne_nil (by simp),
    List.dropLast_cons_of_ne_nil (splitAt_ne_nil _ after)]
  simp

end Pieces

/-! ## The last place of a text -/

section LastPlace

variable {needle text before after : List Char}

theorem exists_splitLast? (needle before after : List Char) :
    ∃ cut, splitLast? needle (before ++ (needle ++ after)) = some cut := by
  induction before with
  | nil =>
    have hlead : dropLead? needle (needle ++ after) = some after := dropLead?_eq_some.2 rfl
    rw [List.nil_append]
    cases htext : needle ++ after with
    | nil => exact ⟨_, by rw [splitLast?, ← htext, hlead, Option.map_some]⟩
    | cons c rest =>
      rw [splitLast?]
      cases splitLast? needle rest with
      | none => exact ⟨_, by rw [← htext, hlead, Option.map_some]⟩
      | some cut => exact ⟨_, rfl⟩
  | cons c before ih =>
    obtain ⟨cut, hcut⟩ := ih
    rw [List.cons_append, splitLast?, hcut]
    exact ⟨_, rfl⟩

/-- No other place comes after the last one. -/
theorem length_le_of_splitLast? (h : splitLast? needle text = some (before, after))
    {front back : List Char} (htext : text = front ++ (needle ++ back)) :
    front.length ≤ before.length := by
  induction text generalizing before front with
  | nil =>
    obtain ⟨rfl, -⟩ := List.append_eq_nil_iff.1 htext.symm
    exact Nat.zero_le _
  | cons c rest ih =>
    cases front with
    | nil => exact Nat.zero_le _
    | cons d front =>
      rw [List.cons_append, List.cons.injEq] at htext
      obtain ⟨rfl, rfl⟩ := htext
      obtain ⟨cut, hcut⟩ := exists_splitLast? needle front back
      rw [splitLast?, hcut] at h
      obtain ⟨rfl, rfl⟩ := Prod.mk.inj (Option.some.inj h)
      exact Nat.succ_le_succ (ih hcut rfl)

/-- **A text is cut at the last place where the other one stands.** -/
theorem splitLast?_eq_some_iff :
    splitLast? needle text = some (before, after) ↔
      text = before ++ (needle ++ after) ∧
        ∀ front back, text = front ++ (needle ++ back) → front.length ≤ before.length := by
  constructor
  · intro h
    exact ⟨by rw [append_of_splitLast? h, List.append_assoc],
      fun front back => length_le_of_splitLast? h⟩
  · rintro ⟨rfl, hlast⟩
    obtain ⟨⟨front, back⟩, hcut⟩ := exists_splitLast? needle before after
    have htext := append_of_splitLast? hcut
    rw [List.append_assoc] at htext
    have hlength := Nat.le_antisymm (hlast front back htext) (length_le_of_splitLast? hcut rfl)
    obtain ⟨rfl, hrest⟩ := List.append_inj htext hlength.symm
    obtain rfl := List.append_cancel_left hrest
    exact hcut

end LastPlace

/-! ## Ends -/

theorem isSome_dropLead?_iff {lead text : List Char} :
    (dropLead? lead text).isSome = true ↔ lead <+: text := by
  rw [Option.isSome_iff_exists]
  exact exists_congr fun rest => dropLead?_eq_some.trans eq_comm

theorem endsWith_iff {tail text : List Char} : endsWith tail text = true ↔ tail <:+ text := by
  rw [endsWith, isSome_dropLead?_iff, List.reverse_prefix]

section Trimming

variable {p : Char → Bool} {a b : List Char}

/-- What is trimmed are characters of the kind. -/
theorem exists_trimEndWhile (p : Char → Bool) (text : List Char) :
    ∃ cut, text = trimEndWhile p text ++ cut ∧ ∀ c ∈ cut, p c = true := by
  refine ⟨(text.reverse.takeWhile p).reverse, ?_, fun c hc => ?_⟩
  · rw [trimEndWhile, ← List.reverse_append, List.takeWhile_append_dropWhile, List.reverse_reverse]
  · exact List.all_eq_true.1 List.all_takeWhile c (List.mem_reverse.1 hc)

/-- Trimming stops at a character that is not of the kind. -/
theorem trimEndWhile_append (ha : ∀ c, a.getLast? = some c → p c = false) :
    trimEndWhile p (a ++ b) = a ++ trimEndWhile p b := by
  have hkept : a.reverse.dropWhile p = a.reverse := by
    rcases List.eq_nil_or_concat' a with rfl | ⟨front, c, rfl⟩
    · rfl
    · rw [List.reverse_append, List.reverse_singleton, List.singleton_append,
        List.dropWhile_cons_of_neg (by simp [ha c])]
  rw [trimEndWhile, List.reverse_append, List.dropWhile_append, trimEndWhile]
  split
  · next hnil => rw [hkept, List.isEmpty_iff.1 hnil, List.reverse_reverse]; simp
  · rw [List.reverse_append, List.reverse_reverse]

theorem trimEndWhile_eq_nil (h : ∀ c ∈ b, p c = true) : trimEndWhile p b = [] := by
  rw [trimEndWhile, List.reverse_eq_nil_iff, List.dropWhile_eq_nil_iff]
  exact fun c hc => h c (List.mem_reverse.1 hc)

end Trimming

end SwiftStyle.Text
