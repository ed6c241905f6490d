import SwiftStyle.Proofs.Text.Words
import SwiftStyle.Rules.LineLength

/-!
# Proofs/Rules/Links — a text without its links

The links of a text are cut out one after the other, each from the first scheme on up to white space
or the end (`CutsUrls`).  This determines what is kept (`cutsUrls_iff`), so what is kept can be read
off the cuts: all white space, no scheme, and nothing in another order.  No scheme arises where two
kept pieces meet, because behind a link there is white space or nothing.
-/

namespace SwiftStyle.LineLength

/-- The beginnings of links. -/
def schemes : List (List Char) := ["http://".toList, "https://".toList]

/-- **A text without links**: no scheme stands in it. -/
def HoldsNoUrl (text : List Char) : Prop := ∀ scheme ∈ schemes, ¬scheme <:+: text

/-- **A link in front of the rest of a text**: it begins with a scheme and reaches up to white space
or the end. -/
structure IsUrl (url after : List Char) : Prop where
  begins : ∃ scheme ∈ schemes, scheme <+: url
  solid : ∀ c ∈ url, Text.isBlank c = false
  ends : ∀ c, after.head? = some c → Text.isBlank c = true

/-- **What is kept of a text** when its links are cut out, one after the other. -/
inductive CutsUrls : List Char → List Char → Prop
  | done {text : List Char} (h : HoldsNoUrl text) : CutsUrls text text
  | cut {before url after kept : List Char} (hbefore : HoldsNoUrl before) (hurl : IsUrl url after)
      (h : CutsUrls after kept) : CutsUrls (before ++ (url ++ after)) (before ++ kept)

variable {text kept before url after : List Char}

/-! ## Schemes -/

theorem startsUrl_iff : startsUrl text = true ↔ ∃ scheme ∈ schemes, scheme <+: text := by
  rw [startsUrl, Bool.or_eq_true, Text.isSome_dropLead?_iff, Text.isSome_dropLead?_iff]
  simp only [schemes, List.mem_cons, List.not_mem_nil, or_false, exists_eq_or_imp, exists_eq_left]

theorem startsUrl_mono (h : startsUrl before = true) (hleads : before <+: text) :
    startsUrl text = true := by
  obtain ⟨scheme, hscheme, hbefore⟩ := startsUrl_iff.1 h
  exact startsUrl_iff.2 ⟨scheme, hscheme, hbefore.trans hleads⟩

/-- A scheme begins with an `h` and has no other. -/
theorem eq_cons_of_mem_schemes {scheme : List Char} (h : scheme ∈ schemes) :
    ∃ rest, scheme = 'h' :: rest ∧ 'h' ∉ rest := by
  simp only [schemes, List.mem_cons, List.not_mem_nil, or_false] at h
  rcases h with rfl | rfl
  · exact ⟨"ttp://".toList, by decide, by decide⟩
  · exact ⟨"ttps://".toList, by decide, by decide⟩

/-- There is no white space in a scheme. -/
theorem solid_of_mem_schemes : ∀ scheme ∈ schemes, ∀ c ∈ scheme, Text.isBlank c = false := by
  have hall : (schemes.all fun scheme => scheme.all fun c => !Text.isBlank c) = true := by decide
  simpa only [List.all_eq_true, Bool.not_eq_true'] using hall

theorem IsUrl.eq_cons (h : IsUrl url after) : ∃ rest, url = 'h' :: rest := by
  obtain ⟨scheme, hscheme, more, rfl⟩ := h.begins
  obtain ⟨rest, rfl, -⟩ := eq_cons_of_mem_schemes hscheme
  exact ⟨rest ++ more, rfl⟩

theorem holdsNoUrl_nil : HoldsNoUrl [] := by
  intro scheme hscheme hinfix
  obtain ⟨rest, rfl, -⟩ := eq_cons_of_mem_schemes hscheme
  cases List.infix_nil.1 hinfix

/-- **A text without links** does not begin with one, nor does any of its ends. -/
theorem holdsNoUrl_cons_iff {c : Char} :
    HoldsNoUrl (c :: text) ↔ startsUrl (c :: text) = false ∧ HoldsNoUrl text := by
  rw [← Bool.not_eq_true, startsUrl_iff]
  simp only [HoldsNoUrl, List.infix_cons_iff, not_or, not_exists, not_and, imp_and, forall_and]

/-- **The first link is where the first scheme is**: no scheme begins before it. -/
theorem startsUrl_cons_append {c : Char} (hbefore : HoldsNoUrl (c :: before))
    (hurl : IsUrl url after) : startsUrl (c :: before ++ (url ++ after)) = false := by
  rw [Bool.eq_false_iff, Ne, startsUrl_iff]
  rintro ⟨scheme, hscheme, more, htext⟩
  rcases List.append_eq_append_iff.1 htext with ⟨tail, htail, -⟩ | ⟨tail, rfl, htail⟩
  · exact hbefore scheme hscheme (htail ▸ (List.prefix_append scheme tail).isInfix)
  · cases tail with
    | nil => exact hbefore _ hscheme (by simp)
    | cons d tail =>
      -- the scheme would have an `h` inside
      obtain ⟨rest, rfl⟩ := hurl.eq_cons
      obtain ⟨rfl, -⟩ := List.cons.inj htail
      obtain ⟨scheme, heq, hnot⟩ := eq_cons_of_mem_schemes hscheme
      obtain ⟨-, rfl⟩ := List.cons.inj heq
      exact hnot (by simp)

/-! ## Cutting -/

/-- Inside a link everything is dropped up to white space. -/
theorem cutUrls_true (text : List Char) :
    cutUrls true text = cutUrls false (text.dropWhile fun c => !Text.isBlank c) := by
  induction text with
  | nil => rfl
  | cons c text ih =>
    cases hc : Text.isBlank c with
    | false => rw [cutUrls, List.dropWhile_cons_of_pos (by simp [hc]), ← ih]; simp [hc]
    | true => rw [cutUrls, List.dropWhile_cons_of_neg (by simp [hc]), cutUrls]; simp [hc]

/-- **A text without links stays as it is.** -/
theorem withoutUrls_eq_self (h : HoldsNoUrl text) : withoutUrls text = text := by
  rw [withoutUrls]
  induction text with
  | nil => rfl
  | cons c text ih =>
    obtain ⟨hstarts, htext⟩ := holdsNoUrl_cons_iff.1 h
    rw [cutUrls, hstarts, ih htext]
    rfl

/-- A link at the front is dropped. -/
theorem withoutUrls_url_append (hurl : IsUrl url after) :
    withoutUrls (url ++ after) = withoutUrls after := by
  have hstarts : startsUrl (url ++ after) = true :=
    startsUrl_mono (startsUrl_iff.2 hurl.begins) (List.prefix_append url after)
  obtain ⟨rest, rfl⟩ := hurl.eq_cons
  have hrest : (rest ++ after).dropWhile (fun c => !Text.isBlank c) = after := by
    rw [List.dropWhile_append_of_pos fun c hc => by simp [hurl.solid c (by simp [hc])]]
    cases after with
    | nil => rfl
    | cons c after => rw [List.dropWhile_cons_of_neg (by simp [hurl.ends c rfl])]
  rw [withoutUrls, withoutUrls, List.cons_append, cutUrls, ← List.cons_append, hstarts,
    cutUrls_true, hrest]
  rfl

/-- **The first link is cut out**, and the rest is treated in the same way. -/
theorem withoutUrls_append (hbefore : HoldsNoUrl before) (hurl : IsUrl url after) :
    withoutUrls (before ++ (url ++ after)) = before ++ withoutUrls after := by
  induction before with
  | nil => exact withoutUrls_url_append hurl
  | cons c before ih =>
    have hstarts := startsUrl_cons_append hbefore hurl
    rw [List.cons_append] at hstarts ⊢
    rw [withoutUrls, cutUrls, hstarts, ← withoutUrls, ih (holdsNoUrl_cons_iff.1 hbefore).2]
    rfl

/-- **A link reaches up to white space or the end.** -/
theorem isUrl_of_startsUrl (h : startsUrl text = true) :
    IsUrl (text.takeWhile fun c => !Text.isBlank c) (text.dropWhile fun c => !Text.isBlank c) := by
  obtain ⟨scheme, hscheme, hleads⟩ := startsUrl_iff.1 h
  refine ⟨⟨scheme, hscheme, ?_⟩, fun c hc => ?_, fun c hc => ?_⟩
  · obtain ⟨more, rfl⟩ := hleads
    rw [List.takeWhile_append_of_pos fun c hc => by simp [solid_of_mem_schemes scheme hscheme c hc]]
    exact List.prefix_append _ _
  · simpa using List.mem_takeWhile_imp hc
  · have := List.head?_dropWhile_not (fun c => !Text.isBlank c) text
    rw [hc] at this
    simpa using this

/-- **A text has no link, or a first one.** -/
theorem exists_url (h : ¬HoldsNoUrl text) : ∃ before url after,
    text = before ++ (url ++ after) ∧ HoldsNoUrl before ∧ IsUrl url after := by
  induction text with
  | nil => exact absurd holdsNoUrl_nil h
  | cons c text ih =>
    cases hstarts : startsUrl (c :: text) with
    | true =>
      exact ⟨[], _, _, List.takeWhile_append_dropWhile.symm, holdsNoUrl_nil,
        isUrl_of_startsUrl hstarts⟩
    | false =>
      obtain ⟨before, url, after, rfl, hbefore, hurl⟩ := ih fun htext =>
        h (holdsNoUrl_cons_iff.2 ⟨hstarts, htext⟩)
      have hfront : startsUrl (c :: before) = false :=
        Bool.eq_false_iff.2 fun hfront => Bool.false_ne_true
          (hstarts.symm.trans (startsUrl_mono hfront (List.prefix_append _ _)))
      exact ⟨c :: before, url, after, rfl, holdsNoUrl_cons_iff.2 ⟨hfront, hbefore⟩, hurl⟩

/-- **What is kept is determined by the cuts.** -/
theorem cutsUrls_iff : CutsUrls text kept ↔ withoutUrls text = kept := by
  constructor
  · intro h
    induction h with
    | done h => exact withoutUrls_eq_self h
    | cut hbefore hurl _ ih => rw [withoutUrls_append hbefore hurl, ih]
  · rintro rfl
    induction hlength : text.length using Nat.strongRecOn generalizing text with
    | ind n ih =>
      subst hlength
      by_cases h : HoldsNoUrl text
      · rw [withoutUrls_eq_self h]
        exact .done h
      · obtain ⟨before, url, after, rfl, hbefore, hurl⟩ := exists_url h
        rw [withoutUrls_append hbefore hurl]
        refine .cut hbefore hurl (ih after.length ?_ rfl)
        obtain ⟨rest, rfl⟩ := hurl.eq_cons
        simp
        omega

/-! ## What is kept -/

namespace CutsUrls

/-- **Nothing changes its place.** -/
theorem sublist (h : CutsUrls text kept) : kept.Sublist text := by
  induction h with
  | done => exact .refl _
  | @cut before url after kept _ _ _ ih =>
    exact (List.Sublist.refl before).append (ih.trans (List.sublist_append_right url after))

/-- **All white space is kept.** -/
theorem filter_isBlank (h : CutsUrls text kept) :
    kept.filter Text.isBlank = text.filter Text.isBlank := by
  induction h with
  | done => rfl
  | @cut before url after kept _ hurl _ ih =>
    have hsolid : url.filter Text.isBlank = [] :=
      List.filter_eq_nil_iff.2 fun c hc => by simp [hurl.solid c hc]
    rw [List.filter_append, List.filter_append, List.filter_append, ih, hsolid, List.nil_append]

/-- White space at the front stays there. -/
theorem isBlank_head (h : CutsUrls text kept)
    (htext : ∀ c, text.head? = some c → Text.isBlank c = true) :
    ∀ c, kept.head? = some c → Text.isBlank c = true := by
  cases h with
  | done => exact htext
  | @cut before url after kept _ hurl _ =>
    cases before with
    | nil =>
      obtain ⟨rest, rfl⟩ := hurl.eq_cons
      exact absurd (htext 'h' rfl) (by decide)
    | cons c before => exact htext

/-- **No scheme is left.** -/
theorem holdsNoUrl (h : CutsUrls text kept) : HoldsNoUrl kept := by
  induction h with
  | done h => exact h
  | cut hbefore hurl h ih =>
    intro scheme hscheme hinfix
    rcases Text.isInfix_or_isInfix_of_plain (solid_of_mem_schemes scheme hscheme)
      (h.isBlank_head hurl.ends) hinfix with hinfix | hinfix
    · exact hbefore scheme hscheme hinfix
    · exact ih scheme hscheme hinfix

end CutsUrls

/-- **Cutting out links is sound.**  No scheme is left.  What is kept comes from cutting out one
link after the other, each from its scheme up to white space or the end, and from nothing else; so
all white space is kept, and everything in its order.  A text stays as it is just when it holds no
scheme, and nothing is left to cut a second time. -/
theorem withoutUrls_sound (text : List Char) :
    HoldsNoUrl (withoutUrls text) ∧
    (∀ kept, CutsUrls text kept ↔ withoutUrls text = kept) ∧
    (withoutUrls text).filter Text.isBlank = text.filter Text.isBlank ∧
    (withoutUrls text).Sublist text ∧
    (withoutUrls text = text ↔ HoldsNoUrl text) ∧
    withoutUrls (withoutUrls text) = withoutUrls text := by
  have hcuts : CutsUrls text (withoutUrls text) := cutsUrls_iff.2 rfl
  exact ⟨hcuts.holdsNoUrl, fun _ => cutsUrls_iff, hcuts.filter_isBlank, hcuts.sublist,
    ⟨fun h => h ▸ hcuts.holdsNoUrl, withoutUrls_eq_self⟩, withoutUrls_eq_self hcuts.holdsNoUrl⟩

/-- The ends of a cut make no scheme together: there is white space between them. -/
example : withoutUrls "hthttp://a tp://b".toList = "ht tp://b".toList := by decide

end SwiftStyle.LineLength
