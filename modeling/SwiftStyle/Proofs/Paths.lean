import Mathlib.Data.List.Basic
import SwiftStyle.Proofs.Order

/-!
# Proofs/Paths — absolute paths have one spelling

`Path.steps` is what a path says once separators and `.` are gone.  The absolute form of a path
depends on nothing else (`absolute_eq_of_steps`), so it does not see how the path is spelled; and it
is *canonical*: no two canonical paths have the same components (`IsCanonical.ext`).
-/

namespace SwiftStyle

namespace Path

theorem eq_of_text : ∀ {p q : Path}, p.text = q.text → p = q
  | ⟨_⟩, ⟨_⟩, rfl => rfl

/-! ## Names and steps -/

/-- A text that an entry of a directory can have as its name. -/
def IsName (name : String) : Prop := name ≠ "" ∧ name ≠ "." ∧ name ≠ ".." ∧ '/' ∉ name.toList

instance : DecidablePred IsName := fun name =>
  inferInstanceAs (Decidable (name ≠ "" ∧ name ≠ "." ∧ name ≠ ".." ∧ '/' ∉ name.toList))

theorem toList_ne {a b : String} (h : a ≠ b) : a.toList ≠ b.toList := fun he =>
  h (String.toList_inj.1 he)

namespace Component

/-- A component that may follow the root: a name or the way up. -/
def IsStep : Component → Prop
  | parent => True
  | name text => IsName text
  | root | current => False

/-- What a piece without separators is read as is a step. -/
theorem isStep_of_ofPiece? {piece : List Char} {c : Component} (hpiece : '/' ∉ piece)
    (h : ofPiece? piece = some c) : c.IsStep := by
  rw [ofPiece?] at h
  split at h
  · exact absurd h (by simp)
  · next hdot =>
    split at h
    · obtain rfl := Option.some.inj h
      trivial
    · next hdots =>
      obtain rfl := Option.some.inj h
      simp only [not_or] at hdot
      refine ⟨fun he => hdot.1 ?_, fun he => hdot.2 ?_, fun he => hdots ?_, by simpa using hpiece⟩
      all_goals simpa using congrArg String.toList he

/-- What a piece is read as is written as the piece. -/
theorem toList_text {piece : List Char} {c : Component} (h : ofPiece? piece = some c) :
    c.text.toList = piece := by
  rw [ofPiece?] at h
  split at h
  · exact absurd h (by simp)
  · split at h
    · next hdots =>
      obtain rfl := Option.some.inj h
      rw [hdots]
      decide
    · obtain rfl := Option.some.inj h
      exact String.toList_ofList

/-- A piece is a name unless it is empty, `.` or `..`. -/
theorem ofPiece?_eq_name_iff {piece : List Char} {name : String} :
    ofPiece? piece = some (.name name) ↔
      piece ≠ [] ∧ piece ≠ ['.'] ∧ piece ≠ ['.', '.'] ∧ String.ofList piece = name := by
  rw [ofPiece?]
  split
  · next hdot => rcases hdot with rfl | rfl <;> simp
  · next hdot =>
    rw [not_or] at hdot
    split
    · next hdots => simp [hdots]
    · next hdots => simp [hdot, hdots]

/-- **A step is read as it is written.** -/
theorem ofPiece?_text {c : Component} (h : c.IsStep) : ofPiece? c.text.toList = some c := by
  match c, h with
  | parent, _ => rfl
  | name text, ⟨hne, hdot, hdots, _⟩ =>
    have h₁ : text.toList ≠ [] := toList_ne (b := "") hne
    have h₂ : text.toList ≠ ['.'] := toList_ne (b := ".") hdot
    have h₃ : text.toList ≠ ['.', '.'] := toList_ne (b := "..") hdots
    simp [ofPiece?, Component.text, h₁, h₂, h₃]

theorem not_mem_text {c : Component} (h : c.IsStep) : '/' ∉ c.text.toList := by
  match c, h with
  | parent, _ => decide
  | name _, ⟨_, _, _, hslash⟩ => exact hslash

theorem text_ne_nil {c : Component} (h : c.IsStep) : c.text.toList ≠ [] := by
  match c, h with
  | parent, _ => decide
  | name _, ⟨hne, _⟩ => exact toList_ne (b := "") hne

theorem text_ne_dot {c : Component} (h : c.IsStep) : c.text.toList ≠ ['.'] := by
  intro he
  have hread := ofPiece?_text h
  rw [he] at hread
  exact absurd hread (by simp [ofPiece?])

end Component

/-- The steps of a path, without its root and without any `.`. -/
def steps (p : Path) : List Component := p.pieces.filterMap Component.ofPiece?

theorem not_slash_of_mem_pieces {p : Path} {piece : List Char} (h : piece ∈ p.pieces) :
    '/' ∉ piece := fun hslash => by
  simpa using Text.not_separator_of_mem_splitAt h '/' hslash

theorem isStep_of_mem_steps {p : Path} {c : Component} (h : c ∈ p.steps) : c.IsStep := by
  obtain ⟨piece, hpiece, hc⟩ := List.mem_filterMap.1 h
  exact Component.isStep_of_ofPiece? (not_slash_of_mem_pieces hpiece) hc

theorem components_of_isAbsolute {p : Path} (h : p.isAbsolute = true) :
    p.components = .root :: p.steps := by rw [components, if_pos h]; rfl

/-! ## Putting paths together -/

theorem pieces_append (a b : String) : pieces ⟨a ++ "/" ++ b⟩ = pieces ⟨a⟩ ++ pieces ⟨b⟩ := by
  have h := Text.splitAt_append_cons (p := (· == '/')) (c := '/') rfl a.toList b.toList
  simpa [pieces] using h

theorem steps_append (a b : String) : steps ⟨a ++ "/" ++ b⟩ = steps ⟨a⟩ ++ steps ⟨b⟩ := by
  rw [steps, pieces_append, List.filterMap_append]
  rfl

theorem steps_empty : steps ⟨""⟩ = [] := by decide

theorem steps_current : steps ⟨"."⟩ = [] := by decide

/-- A separator at the end adds no step. -/
theorem exists_of_getLast?_eq {d : Path} (h : d.text.toList.getLast? = some '/') :
    ∃ a, d = ⟨a ++ "/"⟩ := by
  obtain ⟨before, hbefore⟩ := List.getLast?_eq_some_iff.1 h
  refine ⟨String.ofList before, ?_⟩
  obtain ⟨text⟩ := d
  refine congrArg Path.mk (String.toList_inj.1 ?_)
  simpa using hbefore

/-- **Joining puts the steps together**, unless the second path stands for itself. -/
theorem steps_join (d p : Path) :
    (d.join p).steps = if p.isAbsolute then p.steps else d.steps ++ p.steps := by
  rw [join]
  split
  · rfl
  · split
    · next hend =>
      rcases Bool.or_eq_true_iff.1 hend with hempty | hslash
      · obtain ⟨text⟩ := d
        obtain rfl : text = "" := by simpa using hempty
        simp [steps_empty]
      · obtain ⟨a, rfl⟩ := exists_of_getLast?_eq (by simpa using hslash)
        have hd : steps ⟨a ++ "/"⟩ = steps ⟨a⟩ := by
          simpa [steps_empty] using steps_append a ""
        rw [steps_append, hd]
    · exact steps_append d.text p.text

theorem isAbsolute_append {a : String} (h : isAbsolute ⟨a⟩ = true) (b : String) :
    isAbsolute ⟨a ++ b⟩ = true := by
  have h : a.toList.head? = some '/' := by simpa [isAbsolute] using h
  simp [isAbsolute, List.head?_append, h]

theorem isAbsolute_join {d : Path} (h : d.isAbsolute = true) (p : Path) :
    (d.join p).isAbsolute = true := by
  rw [join]
  split
  · assumption
  · split
    · exact isAbsolute_append h _
    · exact isAbsolute_append (isAbsolute_append h _) _

/-! ## The absolute form -/

/-- A path that is written from the root and steps. -/
def IsCanonical (p : Path) : Prop :=
  ∃ steps : List Component, (∀ c ∈ steps, c.IsStep) ∧ p = ofComponents (.root :: steps)

/-- **The absolute form is written from the steps of the joined path.** -/
theorem absolute_eq {d : Path} (h : d.isAbsolute = true) (p : Path) :
    d.absolute p = ofComponents (.root :: (d.join p).steps) := by
  have hfilter : (d.join p).steps.filter (· ≠ .current) = (d.join p).steps := by
    refine List.filter_eq_self.2 fun c hc => ?_
    have hstep := isStep_of_mem_steps hc
    refine decide_eq_true fun he => ?_
    rw [he] at hstep
    exact hstep
  rw [absolute, components_of_isAbsolute (isAbsolute_join h p), List.filter_cons_of_pos (by decide),
    hfilter]

theorem isCanonical_absolute {d : Path} (h : d.isAbsolute = true) (p : Path) :
    (d.absolute p).IsCanonical :=
  ⟨(d.join p).steps, fun _ hc => isStep_of_mem_steps hc, absolute_eq h p⟩

/-- **The absolute form sees of a path only whether it is absolute and its steps.** -/
theorem absolute_eq_of_steps {d p q : Path} (h : d.isAbsolute = true)
    (habs : p.isAbsolute = q.isAbsolute) (hsteps : p.steps = q.steps) :
    d.absolute p = d.absolute q := by
  rw [absolute_eq h, absolute_eq h, steps_join, steps_join, habs, hsteps]

/-! ## Canonical paths -/

theorem pieces_intercalate {texts : List String} (hne : texts ≠ [])
    (h : ∀ text ∈ texts, '/' ∉ text.toList) :
    pieces ⟨"/".intercalate texts⟩ = texts.map String.toList := by
  have hsplit : Text.splitAt (· == '/') (['/'].intercalate (texts.map String.toList))
      = texts.map String.toList := by
    refine Text.splitAt_intercalate rfl (by simpa using hne) fun piece hpiece c hc => ?_
    obtain ⟨text, htext, rfl⟩ := List.mem_map.1 hpiece
    exact beq_false_of_ne fun hslash => h text htext (hslash ▸ hc)
  simpa [pieces] using hsplit

theorem pieces_of_isAbsolute {p : Path} (h : p.isAbsolute = true) :
    ∃ pieces, p.pieces = [] :: pieces := by
  obtain ⟨rest, hrest⟩ := List.head?_eq_some_iff.1 (beq_iff_eq.1 h)
  exact ⟨_, by rw [pieces, hrest, Text.splitAt, if_pos (by rfl)]⟩

/-- Names do not lead back to the root. -/
theorem isAbsolute_intercalate {way : List String} (hne : way ≠ [])
    (hway : ∀ name ∈ way, IsName name) : isAbsolute ⟨"/".intercalate way⟩ = false := by
  refine Bool.eq_false_iff.2 fun habs => ?_
  obtain ⟨pieces, hpieces⟩ := pieces_of_isAbsolute habs
  rw [pieces_intercalate hne fun name hname => (hway name hname).2.2.2] at hpieces
  obtain ⟨name, hname, hnil⟩ := List.mem_map.1 (hpieces ▸ List.mem_cons_self : [] ∈ way.map _)
  exact toList_ne (b := "") (hway name hname).1 hnil

theorem text_ofComponents (steps : List Component) :
    (ofComponents (.root :: steps)).text = "/" ++ "/".intercalate (steps.map Component.text) := rfl

theorem isAbsolute_ofComponents (steps : List Component) :
    (ofComponents (.root :: steps)).isAbsolute = true :=
  isAbsolute_append (a := "/") rfl _

section Canonical

variable {steps : List Component} (h : ∀ c ∈ steps, c.IsStep)
include h

theorem pieces_ofComponents (hne : steps ≠ []) :
    (ofComponents (.root :: steps)).pieces = [] :: steps.map (·.text.toList) := by
  have hpieces : pieces ⟨"/".intercalate (steps.map Component.text)⟩
      = (steps.map Component.text).map String.toList := by
    refine pieces_intercalate (by simpa using hne) fun text htext => ?_
    obtain ⟨c, hc, rfl⟩ := List.mem_map.1 htext
    exact Component.not_mem_text (h c hc)
  rw [List.map_map] at hpieces
  have hroot := pieces_append "" ("/".intercalate (steps.map Component.text))
  rw [hpieces, String.empty_append] at hroot
  exact hroot

theorem filterMap_ofPiece?_texts :
    (steps.map (·.text.toList)).filterMap Component.ofPiece? = steps := by
  rw [List.filterMap_map]
  refine (List.filterMap_congr fun c hc => ?_).trans List.filterMap_some
  exact Component.ofPiece?_text (h c hc)

/-- **Steps are read as they are written.** -/
theorem steps_ofComponents : (ofComponents (.root :: steps)).steps = steps := by
  by_cases hne : steps = []
  · subst hne
    decide
  · rw [Path.steps, pieces_ofComponents h hne, List.filterMap_cons_none (by rfl),
      filterMap_ofPiece?_texts h]

theorem components_ofComponents : (ofComponents (.root :: steps)).components = .root :: steps := by
  rw [components_of_isAbsolute (isAbsolute_ofComponents steps), steps_ofComponents h]

/-- Only the root ends in a separator. -/
theorem getLast?_text_ne (hne : steps ≠ []) :
    (ofComponents (.root :: steps)).text.toList.getLast? ≠ some '/' := by
  intro hslash
  obtain ⟨a, ha⟩ := exists_of_getLast?_eq hslash
  have hpieces := pieces_ofComponents h hne
  rw [ha, show a ++ "/" = a ++ "/" ++ "" by simp, pieces_append] at hpieces
  have hlast := congrArg List.getLast? hpieces
  have hempty : pieces ⟨""⟩ = [[]] := rfl
  cases hc : steps.getLast? with
  | none => exact hne (List.getLast?_eq_none_iff.1 hc)
  | some c =>
    rw [hempty, List.getLast?_concat, List.getLast?_cons, List.getLast?_map, hc] at hlast
    exact Component.text_ne_nil (h c (List.mem_of_getLast? hc)) (by simpa using hlast.symm)

theorem isStep_append_names {way : List String} (hway : ∀ name ∈ way, IsName name) :
    ∀ c ∈ steps ++ way.map Component.name, c.IsStep := by
  intro c hc
  rcases List.mem_append.1 hc with hc | hc
  · exact h c hc
  · obtain ⟨name, hname, rfl⟩ := List.mem_map.1 hc
    exact hway name hname

/-- **Going on from a canonical path by names.** -/
theorem join_names {way : List String} (hne : way ≠ []) (hway : ∀ name ∈ way, IsName name) :
    (ofComponents (.root :: steps)).join ⟨"/".intercalate way⟩
      = ofComponents (.root :: (steps ++ way.map .name)) := by
  have hnames : (way.map Component.name).map Component.text = way := by
    rw [List.map_map]
    exact List.map_id'' (fun _ => rfl) way
  rw [join, isAbsolute_intercalate hne hway, if_neg Bool.false_ne_true]
  by_cases hsteps : steps = []
  · subst hsteps
    refine congrArg Path.mk ?_
    rw [List.nil_append, hnames]
    rfl
  · have hend := getLast?_text_ne h hsteps
    rw [if_neg (by simpa [text_ofComponents] using hend)]
    refine congrArg Path.mk ?_
    rw [text_ofComponents, List.map_append, hnames,
      String.intercalate_append_of_ne_nil (by simpa using hsteps) hne]
    simp [String.append_assoc]

end Canonical

theorem IsCanonical.eq_ofComponents {p : Path} (h : p.IsCanonical) :
    p = ofComponents p.components := by
  obtain ⟨steps, hsteps, rfl⟩ := h
  rw [components_ofComponents hsteps]

/-- **Canonical paths with the same components are equal.** -/
theorem IsCanonical.ext {p q : Path} (hp : p.IsCanonical) (hq : q.IsCanonical)
    (h : p.components = q.components) : p = q := by
  rw [hp.eq_ofComponents, hq.eq_ofComponents, h]

theorem IsCanonical.isAbsolute {p : Path} (h : p.IsCanonical) : p.isAbsolute = true := by
  obtain ⟨steps, _, rfl⟩ := h
  exact isAbsolute_ofComponents steps

/-- **A canonical path has no empty piece and no `.`** after its first separator, unless it is the
root. -/
theorem IsCanonical.of_mem_tail_pieces {p : Path} (h : p.IsCanonical)
    (hroot : p.components ≠ [.root]) : ∀ piece ∈ p.pieces.tail, piece ≠ [] ∧ piece ≠ ['.'] := by
  obtain ⟨steps, hsteps, rfl⟩ := h
  have hne : steps ≠ [] := by
    rintro rfl
    exact hroot rfl
  rw [pieces_ofComponents hsteps hne]
  intro piece hpiece
  obtain ⟨c, hc, rfl⟩ := List.mem_map.1 hpiece
  exact ⟨Component.text_ne_nil (hsteps c hc), Component.text_ne_dot (hsteps c hc)⟩

/-- **Names lead from a canonical path to a canonical path.** -/
theorem IsCanonical.join_names {p : Path} (hp : p.IsCanonical) {way : List String} (hne : way ≠ [])
    (hway : ∀ name ∈ way, IsName name) : (p.join ⟨"/".intercalate way⟩).IsCanonical := by
  obtain ⟨steps, hsteps, rfl⟩ := hp
  exact ⟨steps ++ way.map .name, isStep_append_names hsteps hway, Path.join_names hsteps hne hway⟩

/-! ## Spellings -/

/-- **Spellings of one path**, as seen from the directory `d`: separators repeated or with a `.`
between them, a `./` in front, a separator at the end, and the path with its directory written
out. -/
inductive Spelling (d : Path) : Path → Path → Prop
  | refl (p : Path) : Spelling d p p
  | symm {p q : Path} (h : Spelling d p q) : Spelling d q p
  | trans {p q r : Path} (h : Spelling d p q) (h' : Spelling d q r) : Spelling d p r
  | repeated (a b : String) : Spelling d ⟨a ++ "//" ++ b⟩ ⟨a ++ "/" ++ b⟩
  | current (a b : String) : Spelling d ⟨a ++ "/./" ++ b⟩ ⟨a ++ "/" ++ b⟩
  | leading (p : Path) (h : p.isAbsolute = false) : Spelling d ⟨"./" ++ p.text⟩ p
  | trailing (p : Path) (h : p.text ≠ "") : Spelling d ⟨p.text ++ "/"⟩ p
  | seenFrom (p : Path) : Spelling d (d.join p) p

theorem isAbsolute_append_slash (a b : String) :
    isAbsolute ⟨a ++ "/" ++ b⟩ = (a.isEmpty || isAbsolute ⟨a⟩) := by
  by_cases ha : a = ""
  · subst ha
    simp [isAbsolute]
  · have hne : a.toList ≠ [] := toList_ne (b := "") ha
    obtain ⟨c, rest, hc⟩ := List.exists_cons_of_ne_nil hne
    simp [isAbsolute, hc, ha]

/-- **The absolute form does not see the spelling.** -/
theorem Spelling.absolute_eq {d p q : Path} (hd : d.isAbsolute = true) (h : Spelling d p q) :
    d.absolute p = d.absolute q := by
  induction h with
  | refl => rfl
  | symm _ ih => exact ih.symm
  | trans _ _ ih ih' => exact ih.trans ih'
  | repeated a b =>
    have ha : a ++ "//" ++ b = a ++ "/" ++ ("" ++ "/" ++ b) := by simp [← String.toList_inj]
    rw [ha]
    refine absolute_eq_of_steps hd ?_ ?_
    · rw [isAbsolute_append_slash, isAbsolute_append_slash]
    · rw [steps_append, steps_append, steps_append, steps_empty, List.nil_append]
  | current a b =>
    have ha : a ++ "/./" ++ b = a ++ "/" ++ ("." ++ "/" ++ b) := by simp [← String.toList_inj]
    rw [ha]
    refine absolute_eq_of_steps hd ?_ ?_
    · rw [isAbsolute_append_slash, isAbsolute_append_slash]
    · rw [steps_append, steps_append, steps_append, steps_current, List.nil_append]
  | leading p hp =>
    refine absolute_eq_of_steps hd ?_ ?_
    · rw [hp]
      exact isAbsolute_append_slash "." p.text
    · exact steps_append "." p.text
  | trailing p hp =>
    have ha : p.text ++ "/" = p.text ++ "/" ++ "" := by simp
    rw [ha]
    refine absolute_eq_of_steps hd ?_ ?_
    · rw [isAbsolute_append_slash]
      simp [hp]
    · rw [steps_append, steps_empty, List.append_nil]
  | seenFrom p =>
    have hjoin : d.join (d.join p) = d.join p := by rw [join, if_pos (isAbsolute_join hd p)]
    rw [absolute, hjoin]
    rfl

/-! ## Components -/

/-- Components as a path has them: steps, and in front of them the root, a `.` or nothing. -/
def AreComponents : List Component → Prop
  | [] => True
  | c :: steps => (c = .root ∨ c = .current ∨ c.IsStep) ∧ ∀ d ∈ steps, d.IsStep

theorem areComponents_of_isStep {steps : List Component} (h : ∀ c ∈ steps, c.IsStep) :
    AreComponents steps := by
  cases steps with
  | nil => trivial
  | cons c steps => exact ⟨.inr (.inr (h c (by simp))), fun d hd => h d (by simp [hd])⟩

theorem areComponents_components (p : Path) : AreComponents p.components := by
  have hsteps : ∀ c ∈ p.steps, c.IsStep := fun c => isStep_of_mem_steps
  rw [components]
  split
  · exact ⟨.inl rfl, hsteps⟩
  · split
    · exact ⟨.inr (.inl rfl), hsteps⟩
    · exact areComponents_of_isStep hsteps

theorem AreComponents.of_append {before after : List Component}
    (h : AreComponents (before ++ after)) : AreComponents before := by
  cases before with
  | nil => trivial
  | cons c before => exact ⟨h.1, fun d hd => h.2 d (by simp [hd])⟩

/-- After the first component there are steps only. -/
theorem AreComponents.isStep {before after : List Component} (h : AreComponents (before ++ after))
    (hne : before ≠ []) : ∀ c ∈ after, c.IsStep := by
  obtain ⟨c, before, rfl⟩ := List.exists_cons_of_ne_nil hne
  exact fun d hd => h.2 d (List.mem_append_right before hd)

/-- Steps that do not step back are names. -/
theorem exists_names {cs : List Component} (h : ∀ c ∈ cs, c.IsStep) (hparent : .parent ∉ cs) :
    ∃ names : List String, cs = names.map .name := by
  induction cs with
  | nil => exact ⟨[], rfl⟩
  | cons c cs ih =>
    obtain ⟨names, rfl⟩ := ih (fun d hd => h d (List.mem_cons_of_mem c hd)) fun hd =>
      hparent (List.mem_cons_of_mem c hd)
    cases c with
    | name text => exact ⟨text :: names, rfl⟩
    | parent => exact absurd List.mem_cons_self hparent
    | root => exact absurd (h _ List.mem_cons_self) id
    | current => exact absurd (h _ List.mem_cons_self) id

/-- The pieces of a relative path that is written from components. -/
theorem pieces_ofComponents_of_ne_root {cs : List Component} (h : AreComponents cs) (hne : cs ≠ [])
    (hroot : cs.head? ≠ some .root) : (ofComponents cs).pieces = cs.map (·.text.toList) := by
  have htext : ofComponents cs = ⟨"/".intercalate (cs.map Component.text)⟩ := by
    rw [ofComponents.eq_def]
    split
    · simp at hroot
    · rfl
  rw [htext, pieces_intercalate (by simpa using hne), List.map_map]
  · rfl
  · intro text hmem
    obtain ⟨c, hc, rfl⟩ := List.mem_map.1 hmem
    obtain ⟨d, cs, rfl⟩ := List.exists_cons_of_ne_nil hne
    rcases List.mem_cons.1 hc with rfl | hc
    · rcases h.1 with rfl | rfl | hstep
      · simp at hroot
      · decide
      · exact Component.not_mem_text hstep
    · exact Component.not_mem_text (h.2 c hc)

/-- **Components are read as they are written.** -/
theorem AreComponents.components_ofComponents {cs : List Component} (h : AreComponents cs)
    (hne : cs ≠ []) : (ofComponents cs).components = cs := by
  obtain ⟨c, steps, rfl⟩ := List.exists_cons_of_ne_nil hne
  obtain ⟨hc, hsteps⟩ := h
  by_cases hroot : c = .root
  · subst hroot
    exact Path.components_ofComponents hsteps
  · have hcs : AreComponents (c :: steps) := ⟨hc, hsteps⟩
    have hpieces := pieces_ofComponents_of_ne_root hcs hne (by simpa)
    have hrelative : (ofComponents (c :: steps)).isAbsolute = false := by
      refine Bool.eq_false_iff.2 fun habs => ?_
      obtain ⟨rest, hrest⟩ := pieces_of_isAbsolute habs
      rw [hrest, List.map_cons, List.cons.injEq] at hpieces
      rcases hc.resolve_left hroot with rfl | hstep
      · exact absurd hpieces.1 (by decide)
      · exact Component.text_ne_nil hstep hpieces.1.symm
    rw [components, hrelative, if_neg Bool.false_ne_true, hpieces]
    rcases hc.resolve_left hroot with rfl | hstep
    · rw [if_pos (by rfl), List.map_cons, List.filterMap_cons_none (by rfl),
        filterMap_ofPiece?_texts hsteps]
    · rw [if_neg (by simpa using Component.text_ne_dot hstep),
        filterMap_ofPiece?_texts (List.forall_mem_cons.2 ⟨hstep, hsteps⟩)]

theorem filter_eq_self_of_isStep {cs : List Component} (h : ∀ c ∈ cs, c.IsStep) :
    cs.filter (fun c => c ≠ .root ∧ c ≠ .current) = cs := by
  refine List.filter_eq_self.2 fun c hc => decide_eq_true ⟨?_, ?_⟩
  · rintro rfl
    exact h _ hc
  · rintro rfl
    exact h _ hc

/-- The steps of a path are its components but for the one that says where it begins. -/
theorem steps_eq_filter (p : Path) :
    p.steps = p.components.filter fun c => c ≠ .root ∧ c ≠ .current := by
  have hsteps := filter_eq_self_of_isStep fun c => isStep_of_mem_steps (p := p)
  rw [components]
  split
  · exact hsteps.symm
  · split
    · exact hsteps.symm
    · exact hsteps.symm

/-- **The steps of a front part of a path** come first among the steps of the path. -/
theorem steps_eq_append {p : Path} {before after : List Component}
    (h : p.components = before ++ after) (hne : before ≠ []) :
    p.steps = (ofComponents before).steps ++ after := by
  have hcs : AreComponents (before ++ after) := h ▸ areComponents_components p
  rw [steps_eq_filter, steps_eq_filter, hcs.of_append.components_ofComponents hne, h,
    List.filter_append, filter_eq_self_of_isStep (hcs.isStep hne)]

theorem isAbsolute_iff_head? {p : Path} :
    p.isAbsolute = true ↔ p.components.head? = some .root := by
  constructor
  · intro h
    rw [components_of_isAbsolute h]
    rfl
  · intro h
    by_contra habs
    rw [components, if_neg habs] at h
    split at h
    · simp at h
    · exact isStep_of_mem_steps (List.mem_of_head? h)

/-- Only the empty path has no components. -/
theorem components_ne_nil {p : Path} (h : p.text ≠ "") : p.components ≠ [] := by
  intro hnil
  obtain ⟨c, rest, hc⟩ := List.exists_cons_of_ne_nil (toList_ne (b := "") h)
  by_cases hslash : c = '/'
  · have habs : p.isAbsolute = true := by simp [isAbsolute, hc, hslash]
    rw [components_of_isAbsolute habs] at hnil
    simp at hnil
  · -- the first piece is not empty, so it is a `.` or a step
    obtain ⟨piece, more, hsplit⟩ :=
      List.exists_cons_of_ne_nil (Text.splitAt_ne_nil (· == '/') rest)
    have hpieces : p.pieces = (c :: piece) :: more := by
      rw [pieces, hc, Text.splitAt, if_neg (by simpa using hslash), hsplit]
    rw [components, if_neg (by simp [isAbsolute, hc, hslash]), hpieces] at hnil
    by_cases hdot : c :: piece = ['.']
    · rw [if_pos (by rw [List.head?_cons, hdot])] at hnil
      simp at hnil
    · have hstep : ∃ step, Component.ofPiece? (c :: piece) = some step := by
        rw [Component.ofPiece?, if_neg (by simpa using hdot)]
        split
        · exact ⟨_, rfl⟩
        · exact ⟨_, rfl⟩
      obtain ⟨step, hstep⟩ := hstep
      rw [if_neg (by simpa using hdot), List.filterMap_cons_some hstep] at hnil
      simp at hnil

/-- A piece of a path is no longer than the path. -/
theorem length_le_of_mem_pieces {p : Path} {name : String} (h : name.toList ∈ p.pieces) :
    name.length ≤ p.text.length := by
  simpa [← String.length_toList] using Text.length_le_of_mem_splitAt h

end Path

end SwiftStyle
