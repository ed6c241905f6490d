import Mathlib.Data.Nat.Digits.Defs
import SwiftStyle.Json.Printer
import SwiftStyle.Proofs.Json.Strings

/-!
# Proofs/Json/Tokens — strings and integers are read back

The printer writes a character as one of its spellings (`spells_escape`), so a quoted text is read
back (`stringTail?_quote`).  An integer is written by its digits, and what may follow it is none of
what a number goes on with (`Ends`).
-/

namespace SwiftStyle.Json

/-! ## Strings -/

theorem digit_hexDigit {n : Nat} (h : n < 16) : Digit (hexDigit n) n := by
  have hall : ∀ n < 16, Digit (hexDigit n) n := by decide
  exact hall n h

/-- A control character is written by its number. -/
theorem numeral_hexDigit {n : Nat} (h : n < 0x20) :
    Numeral ['0', '0', hexDigit (n / 16), hexDigit (n % 16)] n := by
  have hzero : Digit '0' 0 := .inl rfl
  have hnumeral := Numeral.mk hzero hzero (digit_hexDigit (n := n / 16) (by omega))
    (digit_hexDigit (n := n % 16) (by omega))
  have hn : ((0 * 16 + 0) * 16 + n / 16) * 16 + n % 16 = n := by omega
  rwa [hn] at hnumeral

/-- **A character is written as a spelling of itself.** -/
theorem spells_escape (c : Char) : Spells (escape c) c := by
  have hc : ∀ {n : Nat}, c.toNat = n → c = Char.ofNat n := fun h => by rw [← h, Char.ofNat_toNat]
  unfold escape
  split
  · next h => exact .letter (by rw [hc h]; decide)
  · next h => exact .letter (by rw [hc h]; decide)
  · next h => exact .letter (by rw [hc h]; decide)
  · next h => exact .letter (by rw [hc h]; decide)
  · next h => exact .letter (by rw [hc h]; decide)
  · next h => exact .letter (by rw [hc h]; decide)
  · next h => exact .letter (by rw [hc h]; decide)
  · next hquote hback _ _ _ _ _ =>
    split
    · next hcontrol => exact .number (numeral_hexDigit hcontrol)
    · next hcontrol =>
      exact .plain hcontrol (fun h => hquote (h ▸ rfl)) (fun h => hback (h ▸ rfl))

theorem spelled_flatMap_escape (cs : List Char) : Spelled (cs.flatMap escape) cs := by
  induction cs with
  | nil => exact .nil
  | cons c cs ih => exact .cons (spells_escape c) ih

/-- **A quoted text is read back**, and what follows it is left over. -/
theorem stringTail?_quote (text : String) (rest : List Char) :
    stringTail? (text.toList.flatMap escape ++ '\"' :: rest) = some (text, rest) :=
  stringTail?_eq_some_iff.2 ⟨_, spelled_flatMap_escape text.toList, rfl⟩

/-! ## Integers -/

/-- What follows a value: it does not go on as a number does. -/
def Ends (rest : List Char) : Prop := ∀ c ∈ rest.head?, c = ',' ∨ c = '\n'

theorem ends_nil : Ends [] := by simp [Ends]

section Ends

variable {rest : List Char} (h : Ends rest)
include h

theorem digits_append {ds : List Char} (hds : ∀ d ∈ ds, d.isDigit) :
    digits (ds ++ rest) = (ds, rest) := by
  have hrest : rest.takeWhile Char.isDigit = [] ∧ rest.dropWhile Char.isDigit = rest := by
    cases rest with
    | nil => simp
    | cons c rest => rcases h c rfl with rfl | rfl <;> simp
  rw [digits, List.takeWhile_append_of_pos hds, List.dropWhile_append_of_pos hds, hrest.1, hrest.2,
    List.append_nil]

theorem fraction?_of_ends : fraction? rest = some ([], rest) := by
  cases rest with
  | nil => rfl
  | cons c rest => rcases h c rfl with rfl | rfl <;> rfl

theorem exponent?_of_ends : exponent? rest = some ([], rest) := by
  cases rest with
  | nil => rfl
  | cons c rest => rcases h c rfl with rfl | rfl <;> rfl

end Ends

theorem digitsValue_toDigits (n : Nat) : digitsValue (Nat.toDigits 10 n) = n := by
  have hfold := Nat.ofDigitChars_ten_toDigits (n := n)
  rw [Nat.ofDigitChars_eq_foldl] at hfold
  simpa [digitsValue, Nat.mul_comm] using hfold

theorem isDigit_of_mem_toDigits {n : Nat} {d : Char} (h : d ∈ Nat.toDigits 10 n) : d.isDigit :=
  Nat.isDigit_of_mem_toDigits (by decide) (by decide) h

/-- **No number but zero begins with a zero.** -/
theorem head?_toDigits {n : Nat} (h : n ≠ 0) : (Nat.toDigits 10 n).head? ≠ some '0' := by
  induction n using Nat.strongRecOn with
  | _ n ih =>
    rw [Nat.toDigits_eq_if (by decide)]
    split
    · next hn =>
      have hall : ∀ n < 10, n ≠ 0 → n.digitChar ≠ '0' := by decide
      simpa using hall n hn h
    · next hn =>
      obtain ⟨d, ds, hds⟩ := List.exists_cons_of_ne_nil (Nat.toDigits_ne_nil (n := n / 10) (b := 10))
      have hfirst := ih (n / 10) (by omega) (by omega)
      rw [hds] at hfirst ⊢
      exact hfirst

/-- **An integer is read back from its digits.** -/
theorem unsigned?_toDigits {rest : List Char} (h : Ends rest) {negative : Bool} {n : Nat}
    (hn : negative = true → n ≠ 0) :
    unsigned? negative (Nat.toDigits 10 n ++ rest)
      = some (integer (if negative then -(n : Int) else n), rest) := by
  have hne : Nat.toDigits 10 n ≠ [] := Nat.toDigits_ne_nil
  have hlead : (Nat.toDigits 10 n).head? ≠ some '0' ∨ (Nat.toDigits 10 n).length = 1 := by
    by_cases hzero : n = 0
    · exact .inr (by rw [hzero]; rfl)
    · exact .inl (head?_toDigits hzero)
  have hsign : (negative && n == 0) = false := by
    cases negative
    · rfl
    · simpa using hn rfl
  rw [unsigned?, digits_append h fun d => isDigit_of_mem_toDigits]
  unfold guard
  simp [hne, hlead, fraction?_of_ends h, exponent?_of_ends h, digitsValue_toDigits, hsign]

end SwiftStyle.Json
