import Mathlib.Data.Option.Basic
import SwiftStyle.Proofs.Suppression
import SwiftStyle.Proofs.Text.Words

/-!
# Proofs/Directive — which lines are directives

`Directive.Opens` reads a line up to the word right behind its last marker.  A well-formed directive
(`Directive.Written`) has a scope for that word and names the rules that follow it; every one of
these is read as it is meant.  But a scope is only looked for at the front of the word, so a longer
word that begins with a scope is taken for that scope and one more rule.  These are the lines, and
the only ones, that are read as directives without being one (`Directive.conforms_iff`).
-/

namespace SwiftStyle.Directive

/-- The word of a scope. -/
def Scope.word : Scope → List Char
  | .thisLine => "this-line".toList
  | .nextLine => "next-line".toList

/-- **The word behind the last marker of a comment.**  Before the marker stands `//`, up to white
space; `first` reaches from the marker to the next separator or the end of the line, and `further`
is what is left of the line. -/
structure Opens (line first further : List Char) : Prop where
  marked : ∃ opening blanks,
    line = opening ++ "//".toList ++ blanks ++ (marker ++ (first ++ further)) ∧
    (∀ c ∈ blanks, Text.isBlank c = true) ∧
    ∀ front back, line = front ++ (marker ++ back) →
      front.length ≤ (opening ++ "//".toList ++ blanks).length
  plain : ∀ c ∈ first, isSeparator c = false
  cutOff : ∀ c, further.head? = some c → isSeparator c = true

/-- **A well-formed directive**: the word behind the marker is a scope, and the words after it, at
least one, are the rules. -/
def Written (line : List Char) (d : Directive) : Prop :=
  ∃ further, Opens line d.scope.word further ∧ d.rules ≠ [] ∧
    ∀ rule, rule ∈ d.rules ↔ Text.IsWord isSeparator further rule.toList

/-- **A line is read as it is meant**: as a directive if it is a well-formed one, and then with its
scope and its rules, and otherwise not at all. -/
structure Conforms (line : List Char) : Prop where
  written : ∀ d, parse? line = some d → Written line d
  read : ∀ d, Written line d →
    ∃ d', parse? line = some d' ∧ d'.scope = d.scope ∧ ∀ rule, rule ∈ d'.rules ↔ rule ∈ d.rules

/-! ## Reading a directive -/

theorem isSeparator_of_isBlank {c : Char} (h : Text.isBlank c = true) : isSeparator c = true := by
  rw [isSeparator, h, Bool.or_true]

theorem Scope.plain_word (scope : Scope) : ∀ c ∈ scope.word, isSeparator c = false := by
  have hall : scope.word.all (!isSeparator ·) = true := by cases scope <;> decide
  simpa only [Bool.not_eq_eq_eq_not, Bool.not_true] using List.all_eq_true.1 hall

/-- **A scope is looked for at the front of a text.** -/
theorem scopeOf?_eq_some_iff {text rest : List Char} {scope : Scope} :
    scopeOf? text = some (scope, rest) ↔ text = scope.word ++ rest := by
  have hnextWord : "next-line".toList = Scope.nextLine.word := rfl
  have hthisWord : "this-line".toList = Scope.thisLine.word := rfl
  rw [scopeOf?, hnextWord, hthisWord, ← Text.dropLead?_eq_some]
  cases hnext : Text.dropLead? Scope.nextLine.word text with
  | none => cases scope <;> simp [hnext]
  | some after =>
    -- no text begins with both words
    have hthis : Text.dropLead? Scope.thisLine.word text = none := by
      rw [Text.dropLead?_eq_some.1 hnext]
      rfl
    cases scope <;> simp [hnext, hthis]

/-- Before the marker stands `//`, up to white space. -/
theorem endsWith_trimEnd_iff {before : List Char} :
    Text.endsWith "//".toList (Text.trimEnd before) = true ↔
      ∃ opening blanks, before = opening ++ "//".toList ++ blanks ∧
        ∀ c ∈ blanks, Text.isBlank c = true := by
  rw [Text.endsWith_iff]
  constructor
  · rintro ⟨opening, hopening⟩
    obtain ⟨blanks, hbefore, hblanks⟩ := Text.exists_trimEndWhile Text.isBlank before
    exact ⟨opening, blanks, by rw [hopening]; exact hbefore, hblanks⟩
  · rintro ⟨opening, blanks, rfl, hblanks⟩
    have hslash : ∀ c, (opening ++ "//".toList).getLast? = some c → Text.isBlank c = false := by
      intro c hc
      have hlast : (opening ++ "//".toList).getLast? = some '/' := by simp
      obtain rfl := Option.some.inj (hlast.symm.trans hc)
      decide
    rw [Text.trimEnd, Text.trimEndWhile_append hslash, Text.trimEndWhile_eq_nil hblanks,
      List.append_nil]
    exact List.suffix_append _ _

/-- White space at the end belongs to no word. -/
theorem words_append_blanks (text : List Char) {blanks : List Char}
    (h : ∀ c ∈ blanks, Text.isBlank c = true) :
    Text.words isSeparator (text ++ blanks) = Text.words isSeparator text := by
  have hnone : Text.words isSeparator blanks = [] := by
    refine List.eq_nil_iff_forall_not_mem.2 fun word hword => ?_
    have hword := Text.mem_words_iff.1 hword
    obtain ⟨before, after, rfl, -, -⟩ := hword.cutOff
    obtain ⟨c, rest, rfl⟩ := List.exists_cons_of_ne_nil hword.ne_nil
    have hblank := isSeparator_of_isBlank (h c (by simp))
    rw [hword.plain c List.mem_cons_self] at hblank
    cases hblank
  rw [Text.words_append (.inr fun c hc => isSeparator_of_isBlank (h c (List.mem_of_mem_head? hc))),
    hnone, List.append_nil]

/-- **What is read of a directive**: behind the last marker, a scope and the words after it. -/
theorem parse?_eq_some_iff {line : List Char} {d : Directive} :
    parse? line = some d ↔
      ∃ before rest, Text.splitLast? marker line = some (before, d.scope.word ++ rest) ∧
        Text.endsWith "//".toList (Text.trimEnd before) = true ∧
        d.rules = (Text.words isSeparator rest).map String.ofList ∧ d.rules ≠ [] := by
  constructor
  · intro h
    obtain ⟨⟨before, after⟩, hcut, h⟩ := Option.bind_eq_some_iff.1 h
    obtain ⟨_, hguard, h⟩ := Option.bind_eq_some_iff.1 h
    obtain ⟨⟨scope, rest⟩, hscope, h⟩ := Option.bind_eq_some_iff.1 h
    obtain ⟨_, hrules, h⟩ := Option.bind_eq_some_iff.1 h
    obtain rfl := Option.some.inj h
    obtain ⟨blanks, hafter, hblanks⟩ := Text.exists_trimEndWhile Text.isBlank after
    have hword : after = scope.word ++ (rest ++ blanks) := by
      rw [hafter, ← List.append_assoc, ← scopeOf?_eq_some_iff.1 hscope]
      rfl
    exact ⟨before, rest ++ blanks, hword ▸ hcut, (Option.guard_eq_some' _).1 hguard,
      by rw [words_append_blanks rest hblanks], (Option.guard_eq_some' _).1 hrules⟩
  · rintro ⟨before, rest, hcut, hends, hrules, hne⟩
    obtain ⟨blanks, hrest, hblanks⟩ := Text.exists_trimEndWhile Text.isBlank rest
    have hafter : Text.trimEnd (d.scope.word ++ rest) = d.scope.word ++ Text.trimEnd rest := by
      refine Text.trimEndWhile_append fun c hc => ?_
      cases hscope : d.scope <;> rw [hscope] at hc <;> cases hc <;> decide
    have hwords : Text.words isSeparator (Text.trimEnd rest) = Text.words isSeparator rest := by
      rw [← words_append_blanks (Text.trimEnd rest) hblanks]
      exact congrArg _ hrest.symm
    refine Option.bind_eq_some_iff.2 ⟨_, hcut, Option.bind_eq_some_iff.2
      ⟨(), (Option.guard_eq_some' _).2 hends, Option.bind_eq_some_iff.2
        ⟨_, scopeOf?_eq_some_iff.2 hafter, Option.bind_eq_some_iff.2
          ⟨(), (Option.guard_eq_some' _).2 ?_, ?_⟩⟩⟩⟩
    · rwa [hwords, ← hrules]
    · rw [hwords, ← hrules]
      rfl

/-! ## The word behind the marker -/

theorem opens_iff {line first further : List Char} :
    Opens line first further ↔
      (∃ before, Text.splitLast? marker line = some (before, first ++ further) ∧
        Text.endsWith "//".toList (Text.trimEnd before) = true) ∧
      (∀ c ∈ first, isSeparator c = false) ∧
        ∀ c, further.head? = some c → isSeparator c = true := by
  constructor
  · rintro ⟨⟨opening, blanks, hline, hblanks, hlast⟩, hplain, hcutOff⟩
    exact ⟨⟨_, Text.splitLast?_eq_some_iff.2 ⟨hline, hlast⟩,
      endsWith_trimEnd_iff.2 ⟨opening, blanks, rfl, hblanks⟩⟩, hplain, hcutOff⟩
  · rintro ⟨⟨before, hcut, hends⟩, hplain, hcutOff⟩
    obtain ⟨opening, blanks, rfl, hblanks⟩ := endsWith_trimEnd_iff.1 hends
    obtain ⟨hline, hlast⟩ := Text.splitLast?_eq_some_iff.1 hcut
    exact ⟨⟨opening, blanks, hline, hblanks, hlast⟩, hplain, hcutOff⟩

/-- The word behind the marker is determined. -/
theorem Opens.unique {line first further first' further' : List Char}
    (h : Opens line first further) (h' : Opens line first' further') :
    first = first' ∧ further = further' := by
  obtain ⟨⟨before, hcut, _⟩, hplain, hcutOff⟩ := opens_iff.1 h
  obtain ⟨⟨before', hcut', _⟩, hplain', hcutOff'⟩ := opens_iff.1 h'
  have hafter := (Prod.mk.inj (Option.some.inj (hcut.symm.trans hcut'))).2
  exact Text.append_inj_of_plain hafter hplain hcutOff hplain' hcutOff'

/-- **A line that is read as a directive** has behind its marker a word that begins with the
scope. -/
theorem exists_opens_of_parse? {line : List Char} {d : Directive} (h : parse? line = some d) :
    ∃ tail further, Opens line (d.scope.word ++ tail) further := by
  obtain ⟨before, rest, hcut, hends, -⟩ := parse?_eq_some_iff.1 h
  obtain ⟨tail, further, rfl, hplain, hcutOff⟩ : ∃ tail further, rest = tail ++ further ∧
      (∀ c ∈ tail, isSeparator c = false) ∧ ∀ c, further.head? = some c → isSeparator c = true := by
    rcases Text.forall_plain_or_exists isSeparator rest with
      hplain | ⟨tail, c, more, rfl, hplain, hc⟩
    · exact ⟨rest, [], (List.append_nil rest).symm, hplain, by simp⟩
    · refine ⟨tail, c :: more, rfl, hplain, fun d hd => ?_⟩
      obtain rfl := Option.some.inj hd
      exact hc
  rw [← List.append_assoc] at hcut
  refine ⟨tail, further, opens_iff.2 ⟨⟨before, hcut, hends⟩, fun c hc => ?_, hcutOff⟩⟩
  rcases List.mem_append.1 hc with hc | hc
  · exact d.scope.plain_word c hc
  · exact hplain c hc

/-- **How a word that begins with a scope is read**: what it has more than the scope is the first
rule. -/
theorem Opens.parse?_eq_some_iff {line tail further : List Char} {scope : Scope}
    (h : Opens line (scope.word ++ tail) further) {d : Directive} :
    parse? line = some d ↔ d.scope = scope ∧
      d.rules = (Text.words isSeparator tail ++ Text.words isSeparator further).map String.ofList ∧
      d.rules ≠ [] := by
  obtain ⟨⟨before, hcut, hends⟩, -, hcutOff⟩ := opens_iff.1 h
  rw [List.append_assoc] at hcut
  rw [Directive.parse?_eq_some_iff, ← Text.words_append (.inr hcutOff)]
  constructor
  · rintro ⟨before', rest, hcut', -, hrules, hne⟩
    have hafter := (Prod.mk.inj (Option.some.inj (hcut'.symm.trans hcut))).2
    -- both are the scope that is found at the front
    have hscope := (scopeOf?_eq_some_iff.2 hafter).symm.trans (scopeOf?_eq_some_iff.2 rfl)
    obtain ⟨hd, rfl⟩ := Prod.mk.inj (Option.some.inj hscope)
    exact ⟨hd.symm, hrules, hne⟩
  · rintro ⟨rfl, hrules, hne⟩
    exact ⟨before, tail ++ further, hcut, hends, hrules, hne⟩

theorem mem_map_ofList_iff {rule : String} {words : List (List Char)} :
    rule ∈ words.map String.ofList ↔ rule.toList ∈ words := by
  constructor
  · rintro h
    obtain ⟨word, hword, rfl⟩ := List.mem_map.1 h
    rwa [String.toList_ofList]
  · exact fun h => List.mem_map.2 ⟨rule.toList, h, String.ofList_toList⟩

/-! ## Well-formed directives -/

/-- **A longer word is read as the scope that it begins with**, and its rest as a rule. -/
theorem Opens.exists_parse? {line tail further : List Char} {scope : Scope} (hne : tail ≠ [])
    (h : Opens line (scope.word ++ tail) further) :
    ∃ d, parse? line = some d ∧ d.scope = scope ∧
      ∀ rule, rule ∈ d.rules ↔
        rule.toList = tail ∨ Text.IsWord isSeparator further rule.toList := by
  have htail : Text.words isSeparator tail = [tail] :=
    Text.words_eq_singleton hne fun c hc => h.plain c (List.mem_append_right _ hc)
  refine ⟨⟨scope, (Text.words isSeparator tail ++ Text.words isSeparator further).map
    String.ofList⟩, h.parse?_eq_some_iff.2 ⟨rfl, rfl, ?_⟩, rfl, fun rule => ?_⟩
  · simp [htail]
  · rw [mem_map_ofList_iff, htail, List.singleton_append, List.mem_cons, Text.mem_words_iff]

/-- A line with a scope behind its marker is read as it is meant. -/
theorem conforms_of_not_longer {line : List Char}
    (h : ¬∃ scope tail further, tail ≠ [] ∧ Opens line (Scope.word scope ++ tail) further) :
    Conforms line := by
  have hrules : ∀ {scope : Scope} {further : List Char} {d : Directive},
      Opens line scope.word further → (parse? line = some d ↔ d.scope = scope ∧
        d.rules = (Text.words isSeparator further).map String.ofList ∧ d.rules ≠ []) := by
    intro scope further d hopens
    rw [← List.append_nil scope.word] at hopens
    exact hopens.parse?_eq_some_iff
  constructor
  · intro d hd
    obtain ⟨tail, further, hopens⟩ := exists_opens_of_parse? hd
    obtain rfl : tail = [] := by
      by_contra hne
      exact h ⟨d.scope, tail, further, hne, hopens⟩
    rw [List.append_nil] at hopens
    obtain ⟨-, heq, hne⟩ := (hrules hopens).1 hd
    refine ⟨further, hopens, hne, fun rule => ?_⟩
    rw [heq, mem_map_ofList_iff, Text.mem_words_iff]
  · rintro d ⟨further, hopens, hne, hwords⟩
    have hmem : ∀ rule, rule ∈ (Text.words isSeparator further).map String.ofList ↔
        rule ∈ d.rules := by
      intro rule
      rw [mem_map_ofList_iff, Text.mem_words_iff, hwords]
    refine ⟨⟨d.scope, (Text.words isSeparator further).map String.ofList⟩,
      (hrules hopens).2 ⟨rfl, rfl, ?_⟩, rfl, hmem⟩
    obtain ⟨rule, hrule⟩ := List.exists_mem_of_ne_nil _ hne
    exact List.ne_nil_of_mem ((hmem rule).2 hrule)

/-- **Only well-formed directives suppress, but for longer words.**  A line is read as it is meant
just when the word behind its marker is not a longer one that begins with a scope; such a line is
read as a directive with that scope, for the rest of the word and the words after it. -/
theorem conforms_iff (line : List Char) :
    (Conforms line ↔
      ¬∃ scope tail further, tail ≠ [] ∧ Opens line (Scope.word scope ++ tail) further) ∧
    ∀ scope tail further, tail ≠ [] → Opens line (Scope.word scope ++ tail) further →
      ∃ d, parse? line = some d ∧ d.scope = scope ∧
        ∀ rule, rule ∈ d.rules ↔
          rule.toList = tail ∨ Text.IsWord isSeparator further rule.toList := by
  refine ⟨⟨?_, conforms_of_not_longer⟩, fun scope tail further hne h => h.exists_parse? hne⟩
  rintro hconforms ⟨scope, tail, further, hne, hopens⟩
  obtain ⟨d, hd, rfl, -⟩ := hopens.exists_parse? hne
  obtain ⟨further', hopens', -⟩ := hconforms.written d hd
  have hword := (hopens.unique hopens').1
  exact hne (List.append_right_eq_self.1 hword)

namespace Misspelt

/-- A directive whose scope has a letter too many. -/
def line : List Char := "// tidemark:disable:next-lines all".toList

/-- A file with this directive above its first declaration. -/
def unit : SourceUnit := .ofContents "// tidemark:disable:next-lines all\nlet a = 1\n"

theorem opens_line : Opens line (Scope.nextLine.word ++ ['s']) " all".toList :=
  opens_iff.2 ⟨⟨"// ".toList, by decide +kernel, by decide +kernel⟩,
    List.forall_mem_append.2 ⟨Scope.nextLine.plain_word, List.forall_mem_singleton.2 (by decide)⟩,
    fun c hc => by obtain rfl := Option.some.inj hc; decide⟩

end Misspelt

/-- The letter too many is read as a rule, and so is the word after it. -/
theorem conforms_iff_misspelt :
    ∃ d, parse? Misspelt.line = some d ∧ d.scope = .nextLine ∧ "s" ∈ d.rules := by
  obtain ⟨d, hd, hscope, hrules⟩ :=
    (conforms_iff Misspelt.line).2 .nextLine ['s'] _ (by simp) Misspelt.opens_line
  exact ⟨d, hd, hscope, (hrules "s").2 (.inl (by decide))⟩

/-- **A misspelt scope silences a line**: the directive is not well-formed, but every rule is
silenced on the line below. -/
theorem not_conforms_misspelt :
    ¬Conforms Misspelt.line ∧
      (Suppressions.collect Misspelt.unit).isSuppressed 2 "line_length" = true := by
  refine ⟨fun h => ?_, by decide +kernel⟩
  obtain ⟨d, hd, hscope, -⟩ := Misspelt.opens_line.exists_parse? (by simp)
  obtain ⟨further, hopens, -⟩ := h.written d hd
  have hword := (Misspelt.opens_line.unique hopens).1
  rw [hscope] at hword
  exact absurd hword (by decide)

end SwiftStyle.Directive
