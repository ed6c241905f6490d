import SwiftStyle.Proofs.Json.Reader
import SwiftStyle.Proofs.Json.Tokens

/-!
# Proofs/Json/RoundTrip — a printed value is read back

The text of a value without decimals gives that value again (`parse?_pretty`), as long as it does
not nest too deeply for the reader.  The induction is on the value: what its items are read back as
is known, so a list of items is read one after the other (`items?_print`), and a list of fields
likewise (`fields?_print`).  A value has at least as many characters as it takes steps to read, so
the fuel lasts.
-/

namespace SwiftStyle.Json

/-- **A value that can be read back**: its numbers are integers, and it nests up to a depth. -/
inductive Readable : Nat → Json → Prop
  | null {depth : Nat} : Readable depth null
  | boolean {depth : Nat} (b : Bool) : Readable depth (boolean b)
  | integer {depth : Nat} (i : Int) : Readable depth (integer i)
  | string {depth : Nat} (text : String) : Readable depth (string text)
  | array {depth : Nat} {items : List Json} (h : ∀ item ∈ items, Readable depth item) :
      Readable (depth + 1) (array items)
  | object {depth : Nat} {fields : List (String × Json)}
      (h : ∀ field ∈ fields, Readable depth field.2) : Readable (depth + 1) (object fields)

/-! ## Between values -/

theorem spaces_newLine (level : Nat) : Spaces (newLine level) := by
  intro c hc
  rcases List.mem_cons.1 hc with rfl | hc
  · exact .inr (.inl rfl)
  · exact .inl (List.mem_replicate.1 hc).2

theorem skipSpace_newLine (level : Nat) (text : List Char) :
    skipSpace (newLine level ++ text) = skipSpace text := skipSpace_append (spaces_newLine level) text

theorem ends_newLine (level : Nat) (text : List Char) : Ends (newLine level ++ text) :=
  fun c hc => .inr (by simpa [newLine, eq_comm] using hc)

theorem ends_printItems (level outer : Nat) (items : List Json) (text : List Char) :
    Ends (printItems level items ++ (newLine outer ++ text)) := by
  cases items with
  | nil => exact ends_newLine outer text
  | cons item items => exact fun c hc => .inl (by simpa [printItems, eq_comm] using hc)

theorem ends_printFields (level outer : Nat) (fields : List (String × Json)) (text : List Char) :
    Ends (printFields level fields ++ (newLine outer ++ text)) := by
  cases fields with
  | nil => exact ends_newLine outer text
  | cons field fields => exact fun c hc => .inl (by simpa [printFields, eq_comm] using hc)

/-- A digit opens nothing but a number. -/
theorem ne_of_isDigit {c : Char} (h : c.isDigit) :
    isSpace c = false ∧ c ≠ ']' ∧ c ≠ '\"' ∧ c ≠ '[' ∧ c ≠ '\x7b' ∧ c ≠ '-' ∧ c ≠ 't' ∧ c ≠ 'f' ∧
      c ≠ 'n' := by
  rw [Char.isDigit_iff_toNat] at h
  refine ⟨?_, ?_, ?_, ?_, ?_, ?_, ?_, ?_, ?_⟩
  · simp only [isSpace, Bool.or_eq_false_iff, beq_eq_false_iff_ne]
    refine ⟨⟨⟨?_, ?_⟩, ?_⟩, ?_⟩ <;> rintro rfl <;> simp at h
  all_goals rintro rfl; simp at h

/-- The digits of an integer. -/
theorem print_integer (level : Nat) (i : Int) :
    print level (integer i) = if i < 0 then '-' :: Nat.toDigits 10 i.natAbs
      else Nat.toDigits 10 i.natAbs := by
  cases i with
  | ofNat n =>
    have hn : ¬ Int.ofNat n < 0 := by simp
    rw [if_neg hn]
    exact (congrArg String.toList Nat.toString_eq_ofList_toDigits).trans String.toList_ofList
  | negSucc n =>
    rw [if_pos (Int.negSucc_lt_zero n)]
    have htext : toString (Int.negSucc n) = "-" ++ toString (n + 1) := rfl
    rw [print, htext, Nat.toString_eq_ofList_toDigits]
    simp

/-- **A value opens with neither white space nor a closing bracket.** -/
theorem Readable.exists_cons {depth : Nat} {j : Json} (h : Readable depth j) (level : Nat) :
    ∃ c more, print level j = c :: more ∧ isSpace c = false ∧ c ≠ ']' := by
  cases h with
  | null => exact ⟨'n', _, rfl, rfl, by decide⟩
  | boolean b => cases b <;> exact ⟨_, _, rfl, rfl, by decide⟩
  | integer i =>
    rw [print_integer]
    split
    · exact ⟨'-', _, rfl, rfl, by decide⟩
    · obtain ⟨d, ds, hds⟩ :=
        List.exists_cons_of_ne_nil (Nat.toDigits_ne_nil (n := i.natAbs) (b := 10))
      have hd := ne_of_isDigit (isDigit_of_mem_toDigits (hds ▸ List.mem_cons_self))
      exact ⟨d, ds, hds, hd.1, hd.2.1⟩
  | string text => exact ⟨'\"', _, rfl, rfl, by decide⟩
  | @array _ items h =>
    cases items <;> exact ⟨'[', _, rfl, rfl, by decide⟩
  | @object _ fields h =>
    cases fields <;> exact ⟨'\x7b', _, rfl, rfl, by decide⟩

theorem Readable.skipSpace_print {depth : Nat} {j : Json} (h : Readable depth j) (level : Nat)
    (text : List Char) : skipSpace (print level j ++ text) = print level j ++ text := by
  obtain ⟨c, more, hprint, hspace, _⟩ := h.exists_cons level
  rw [hprint]
  simp [skipSpace, hspace]

/-! ## Values -/

/-- **A value is read back from its text** at every level, with fuel for every character. -/
def ReadsBack (depth : Nat) (j : Json) : Prop :=
  ∀ ⦃fuel level : Nat⦄ ⦃text rest : List Char⦄, skipSpace text = print level j ++ rest → Ends rest →
    (print level j).length ≤ fuel → value? fuel depth text = some (j, rest)

section Lists

variable {depth level outer fuel : Nat} {text rest after : List Char}

/-- One item, and what follows it. -/
theorem items?_succ {item : Json} (h : ReadsBack depth item)
    (htext : skipSpace text = print level item ++ rest) (hrest : Ends rest)
    (hfuel : (print level item).length ≤ fuel) :
    items? (fuel + 1) depth text = match skipSpace rest with
      | ',' :: rest => (items? fuel depth rest).map fun (items, after) => (item :: items, after)
      | ']' :: after => some ([item], after)
      | _ => none := by
  rw [items?, h htext hrest hfuel]
  simp only [Option.bind_eq_bind, Option.bind_some]
  split <;> simp_all [Option.map_eq_bind]

/-- **Items are read back** one after the other, when each of them is. -/
theorem items?_print {item : Json} {items : List Json}
    (hreadable : ∀ j ∈ item :: items, Readable depth j)
    (hitems : ∀ j ∈ item :: items, ReadsBack depth j)
    (htext : skipSpace text = print level item
      ++ (printItems level items ++ (newLine outer ++ ']' :: after)))
    (hfuel : (print level item ++ printItems level items).length < fuel) :
    items? fuel depth text = some (item :: items, after) := by
  obtain ⟨fuel, rfl⟩ := Nat.exists_eq_add_one_of_ne_zero (Nat.ne_zero_of_lt hfuel)
  induction items generalizing item fuel text with
  | nil =>
    have hclose : skipSpace (newLine outer ++ ']' :: after) = ']' :: after := skipSpace_newLine _ _
    rw [items?_succ (hitems item (by simp)) htext (ends_newLine _ _) (by simp at hfuel; omega)]
    simp [printItems, hclose]
  | cons next items ih =>
    -- after the comma the other items follow
    let others := newLine level ++ (print level next
      ++ (printItems level items ++ (newLine outer ++ ']' :: after)))
    have hcomma : skipSpace (printItems level (next :: items) ++ (newLine outer ++ ']' :: after))
        = ',' :: others := by simp [printItems, others, skipSpace, isSpace]
    have hothers : skipSpace others
        = print level next ++ (printItems level items ++ (newLine outer ++ ']' :: after)) :=
      (skipSpace_newLine _ _).trans ((hreadable next (by simp)).skipSpace_print level _)
    have hlength : (print level next ++ printItems level items).length < fuel := by
      simp only [printItems, List.length_append, List.length_cons, newLine] at hfuel ⊢
      omega
    obtain ⟨fuel, rfl⟩ := Nat.exists_eq_add_one_of_ne_zero (Nat.ne_zero_of_lt hlength)
    have hrest := ih (fun j hj => hreadable j (List.mem_cons_of_mem _ hj))
      (fun j hj => hitems j (List.mem_cons_of_mem _ hj)) hothers fuel hlength
    rw [items?_succ (hitems item (by simp)) htext (ends_printItems _ _ _ _)
      (by rw [List.length_append] at hfuel; omega), hcomma]
    simp [hrest]

/-- A field is read back when its value is. -/
theorem readsField_print {field : String × Json} (hreadable : Readable depth field.2)
    (h : ReadsBack depth field.2)
    (htext : skipSpace text = quote field.1 ++ (':' :: ' ' :: print level field.2 ++ rest))
    (hrest : Ends rest) (hfuel : (print level field.2).length ≤ fuel) :
    ReadsField fuel depth text field rest := by
  have hcolon : skipSpace (':' :: ' ' :: (print level field.2 ++ rest))
      = ':' :: ' ' :: (print level field.2 ++ rest) := rfl
  refine ⟨_, _, _, htext.trans ?_, stringTail?_quote field.1 _, hcolon,
    h (hreadable.skipSpace_print level rest) hrest hfuel⟩
  simp [quote]

/-- **Fields are read back** one after the other, when each of their values is. -/
theorem fields?_print {field : String × Json} {fields : List (String × Json)}
    (hreadable : ∀ f ∈ field :: fields, Readable depth f.2)
    (hfields : ∀ f ∈ field :: fields, ReadsBack depth f.2)
    (htext : skipSpace text = quote field.1 ++ (':' :: ' ' :: print level field.2
      ++ (printFields level fields ++ (newLine outer ++ '\x7d' :: after))))
    (hfuel : (print level field.2 ++ printFields level fields).length < fuel) :
    fields? fuel depth text = some (field :: fields, after) := by
  obtain ⟨fuel, rfl⟩ := Nat.exists_eq_add_one_of_ne_zero (Nat.ne_zero_of_lt hfuel)
  have hvalue : (print level field.2).length ≤ fuel := by
    rw [List.length_append] at hfuel
    omega
  induction fields generalizing field fuel text with
  | nil =>
    have hclose : skipSpace (newLine outer ++ '\x7d' :: after) = '\x7d' :: after :=
      skipSpace_newLine _ _
    have hfield := readsField_print (hreadable field (by simp)) (hfields field (by simp)) htext
      (ends_newLine _ _) hvalue
    exact fields?_eq_some_iff.2 ⟨field, _, hfield, .inl ⟨rfl, hclose⟩⟩
  | cons next fields ih =>
    -- after the comma the other fields follow
    let others := newLine level ++ (quote next.1 ++ (':' :: ' ' :: print level next.2
      ++ (printFields level fields ++ (newLine outer ++ '\x7d' :: after))))
    have hcomma : skipSpace (printFields level (next :: fields) ++ (newLine outer ++ '\x7d' :: after))
        = ',' :: others := by simp [printFields, others, skipSpace, isSpace]
    have hothers : skipSpace others = quote next.1 ++ (':' :: ' ' :: print level next.2
        ++ (printFields level fields ++ (newLine outer ++ '\x7d' :: after))) :=
      skipSpace_newLine _ _
    have hlength : (print level next.2 ++ printFields level fields).length < fuel := by
      simp only [printFields, List.length_append, List.length_cons, newLine] at hfuel ⊢
      omega
    obtain ⟨fuel, rfl⟩ := Nat.exists_eq_add_one_of_ne_zero (Nat.ne_zero_of_lt hlength)
    have hrest := ih (fun f hf => hreadable f (List.mem_cons_of_mem _ hf))
      (fun f hf => hfields f (List.mem_cons_of_mem _ hf)) hothers fuel hlength
      (by rw [List.length_append] at hlength; omega)
    have hfield := readsField_print (hreadable field (by simp)) (hfields field (by simp)) htext
      (ends_printFields _ _ _ _) hvalue
    exact fields?_eq_some_iff.2
      ⟨field, _, hfield, .inr ⟨others, next :: fields, rfl, hcomma, hrest⟩⟩

/-- A digit opens a number. -/
theorem value?_of_isDigit {c : Char} {more : List Char} (h : c.isDigit)
    (htext : skipSpace text = c :: more) :
    value? (fuel + 1) depth text = unsigned? false (c :: more) := by
  obtain ⟨-, -, hquote, harray, hobject, hminus, ht, hf, hn⟩ := ne_of_isDigit h
  rw [value?, htext]
  split <;> simp_all

/-- An integer is read back. -/
theorem value?_integer (i : Int) (htext : skipSpace text = print level (integer i) ++ rest)
    (hrest : Ends rest) : value? (fuel + 1) depth text = some (integer i, rest) := by
  rw [print_integer] at htext
  split at htext
  · next hneg =>
    have hvalue : (if true then -(i.natAbs : Int) else i.natAbs) = i := by rw [if_pos rfl]; omega
    have hread := @unsigned?_toDigits _ hrest true i.natAbs fun _ => by omega
    rw [hvalue] at hread
    rw [value?, htext]
    exact hread
  · next hneg =>
    have hvalue : (if false then -(i.natAbs : Int) else i.natAbs) = i := by
      rw [if_neg (by simp)]; omega
    have hread := @unsigned?_toDigits _ hrest false i.natAbs (by simp)
    obtain ⟨d, ds, hds⟩ :=
      List.exists_cons_of_ne_nil (Nat.toDigits_ne_nil (n := i.natAbs) (b := 10))
    rw [hvalue, hds] at hread
    rw [hds] at htext
    rw [value?_of_isDigit (isDigit_of_mem_toDigits (hds ▸ List.mem_cons_self)) htext]
    exact hread

/-- An array is read back when its items are. -/
theorem value?_array {items : List Json} (hreadable : ∀ j ∈ items, Readable depth j)
    (hitems : ∀ j ∈ items, ReadsBack depth j)
    (htext : skipSpace text = print level (array items) ++ rest)
    (hfuel : (print level (array items)).length ≤ fuel + 1) :
    value? (fuel + 1) (depth + 1) text = some (array items, rest) := by
  cases items with
  | nil =>
    rw [value?, htext]
    rfl
  | cons item items =>
    let content := newLine (level + 1) ++ (print (level + 1) item
      ++ (printItems (level + 1) items ++ (newLine level ++ ']' :: rest)))
    have hopen : print level (array (item :: items)) ++ rest = '[' :: content := by
      simp [print, content]
    have hitem := hreadable item (by simp)
    have hcontent : skipSpace content = print (level + 1) item
        ++ (printItems (level + 1) items ++ (newLine level ++ ']' :: rest)) :=
      (skipSpace_newLine _ _).trans (hitem.skipSpace_print _ _)
    have hread : items? fuel depth content = some (item :: items, rest) :=
      items?_print hreadable hitems hcontent (by
        simp only [print, List.length_append, List.length_cons, newLine] at hfuel ⊢
        omega)
    obtain ⟨c, more, hprint, -, hne⟩ := hitem.exists_cons (level + 1)
    rw [value?, htext, hopen]
    simp only
    rw [hcontent, hprint]
    simp [hne, hread]

/-- An object is read back when the values of its fields are. -/
theorem value?_object {fields : List (String × Json)}
    (hreadable : ∀ f ∈ fields, Readable depth f.2) (hfields : ∀ f ∈ fields, ReadsBack depth f.2)
    (htext : skipSpace text = print level (object fields) ++ rest)
    (hfuel : (print level (object fields)).length ≤ fuel + 1) :
    value? (fuel + 1) (depth + 1) text = some (object fields, rest) := by
  cases fields with
  | nil =>
    rw [value?, htext]
    rfl
  | cons field fields =>
    let content := newLine (level + 1) ++ (quote field.1 ++ (':' :: ' ' ::
      print (level + 1) field.2
        ++ (printFields (level + 1) fields ++ (newLine level ++ '\x7d' :: rest))))
    have hopen : print level (object (field :: fields)) ++ rest = '\x7b' :: content := by
      simp [print, content]
    have hcontent : skipSpace content = quote field.1 ++ (':' :: ' ' ::
        print (level + 1) field.2
          ++ (printFields (level + 1) fields ++ (newLine level ++ '\x7d' :: rest))) :=
      skipSpace_newLine _ _
    have hread : fields? fuel depth content = some (field :: fields, rest) :=
      fields?_print hreadable hfields hcontent (by
        simp only [print, List.length_append, List.length_cons, newLine] at hfuel ⊢
        omega)
    exact value?_eq_object_iff.2 ⟨content, htext.trans hopen, .inr hread⟩

end Lists

/-- A value takes a step at least. -/
theorem Readable.readsBack_of_succ {depth : Nat} {j : Json} (h : Readable depth j)
    (hsucc : ∀ ⦃fuel level : Nat⦄ ⦃text rest : List Char⦄,
      skipSpace text = print level j ++ rest → Ends rest → (print level j).length ≤ fuel + 1 →
      value? (fuel + 1) depth text = some (j, rest)) : ReadsBack depth j := by
  intro fuel level text rest htext hrest hfuel
  cases fuel with
  | zero =>
    obtain ⟨c, more, hprint, _⟩ := h.exists_cons level
    simp [hprint] at hfuel
  | succ fuel => exact hsucc htext hrest hfuel

/-- **A readable value is read back.** -/
theorem Readable.readsBack {depth : Nat} {j : Json} (h : Readable depth j) : ReadsBack depth j := by
  induction h with
  | null =>
    refine Readable.null.readsBack_of_succ fun fuel level text rest htext _ _ => ?_
    rw [value?, htext]
    rfl
  | boolean b =>
    refine (Readable.boolean b).readsBack_of_succ fun fuel level text rest htext _ _ => ?_
    cases b <;> rw [value?, htext] <;> rfl
  | integer i =>
    exact (Readable.integer i).readsBack_of_succ fun _ _ _ _ htext hrest _ =>
      value?_integer i htext hrest
  | string content =>
    refine (Readable.string content).readsBack_of_succ fun fuel level text rest htext _ _ =>
      value?_eq_string_iff.2 ⟨_, htext.trans ?_, stringTail?_quote content rest⟩
    simp [print, quote]
  | array hitems ih =>
    exact (Readable.array hitems).readsBack_of_succ fun _ _ _ _ htext _ hfuel =>
      value?_array hitems ih htext hfuel
  | object hfields ih =>
    exact (Readable.object hfields).readsBack_of_succ fun _ _ _ _ htext _ hfuel =>
      value?_object hfields ih htext hfuel

/-- **The text of a readable value is read back**, also with a line break at its end. -/
theorem parse?_pretty {j : Json} (h : Readable depthLimit j) :
    parse? j.pretty = some j ∧ parse? (j.pretty ++ "\n") = some j := by
  have hread : ∀ rest, Ends rest → Spaces rest →
      parse? (String.ofList (print 0 j ++ rest)) = some j := by
    intro rest hrest hspaces
    refine parse?_eq_some_iff.2 ⟨rest, ?_, hspaces⟩
    rw [String.toList_ofList]
    exact h.readsBack (h.skipSpace_print 0 rest) hrest (by rw [List.length_append]; omega)
  refine ⟨?_, ?_⟩
  · have htext : j.pretty = String.ofList (print 0 j ++ []) := by
      rw [List.append_nil]
      rfl
    exact htext ▸ hread [] ends_nil (by simp [Spaces])
  · have hbreak : Ends ['\n'] := ends_newLine 0 []
    have htext : j.pretty ++ "\n" = String.ofList (print 0 j ++ ['\n']) := by
      rw [String.ofList_append]
      rfl
    exact htext ▸ hread ['\n'] hbreak (spaces_newLine 0)

end SwiftStyle.Json
