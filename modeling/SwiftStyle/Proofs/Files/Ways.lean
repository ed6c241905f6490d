import SwiftStyle.Proofs.Files.Links

/-!
# Proofs/Files/Ways — where a path leads without links, component by component

Where there are no links, the place at the end of a path is a matter of its components alone
(`along`), and a tree only decides whether the way is open: every component but the last must start
from a directory (`Passes`).  `resolve_eq_ok_iff` splits `resolve` into the two.
-/

namespace SwiftStyle

namespace Path

/-- The place that components lead to. -/
def along (place : Place) (cs : List Component) : Place :=
  cs.foldl (fun place c => c.from place) place

theorem along_cons (place : Place) (c : Component) (cs : List Component) :
    along place (c :: cs) = along (c.from place) cs := rfl

theorem along_append (place : Place) (before after : List Component) :
    along place (before ++ after) = along (along place before) after := List.foldl_append

/-- Names lead further down. -/
theorem along_names (place : Place) (names : List String) :
    along place (names.map .name) = place ++ names := by
  induction names generalizing place with
  | nil => simp [along]
  | cons name names ih =>
    rw [List.map_cons, along_cons, Component.from, ih, List.append_assoc, List.singleton_append]

/-- The last piece of the path is a step, not empty and not `.`. -/
def EndsInStep (p : Path) : Prop :=
  ∃ last, p.pieces.getLast? = some last ∧ (Component.ofPiece? last).isSome

/-- A root or a `.` may stand in front of the steps of a path; it leads nowhere. -/
theorem exists_front (p : Path) :
    ∃ front, p.components = front ++ p.steps ∧ ∀ place, along place front = place := by
  rw [components]
  split
  · exact ⟨[.root], rfl, fun _ => rfl⟩
  · split
    · exact ⟨[.current], rfl, fun _ => rfl⟩
    · exact ⟨[], rfl, fun _ => rfl⟩

/-- **The last step of a path is its last component.** -/
theorem getLast?_components {p : Path} {last : List Char} {c : Component}
    (hlast : p.pieces.getLast? = some last) (hread : Component.ofPiece? last = some c) :
    p.components.getLast? = some c := by
  obtain ⟨before, hbefore⟩ := List.getLast?_eq_some_iff.1 hlast
  obtain ⟨front, hfront, -⟩ := p.exists_front
  rw [hfront, steps, hbefore, List.filterMap_append, List.filterMap_cons_some hread,
    List.filterMap_nil, ← List.append_assoc, List.getLast?_concat]

theorem EndsInStep.exists_components_eq {p : Path} (h : p.EndsInStep) :
    ∃ c, p.components = p.components.dropLast ++ [c] ∧ c.IsStep := by
  obtain ⟨last, hlast, hread⟩ := h
  obtain ⟨c, hc⟩ := Option.isSome_iff_exists.1 hread
  obtain ⟨before, hbefore⟩ := List.getLast?_eq_some_iff.1 (getLast?_components hlast hc)
  refine ⟨c, by rw [hbefore, List.dropLast_concat], ?_⟩
  exact isStep_of_mem_steps (List.mem_filterMap.2 ⟨last, List.mem_of_getLast? hlast, hc⟩)

/-- After a separator there is nothing. -/
theorem getLast?_pieces_of_slash {p : Path} (h : p.text.toList.getLast? = some '/') :
    p.pieces.getLast? = some [] := by
  obtain ⟨a, rfl⟩ := exists_of_getLast?_eq h
  have hpieces := pieces_append a ""
  rw [String.append_empty] at hpieces
  rw [hpieces]
  exact List.getLast?_concat

/-- A path that is written from components ends in the last of them. -/
theorem endsInStep_ofComponents {before : List Component} {c : Component}
    (h : AreComponents (before ++ [c])) (hc : c.IsStep) :
    (ofComponents (before ++ [c])).EndsInStep := by
  refine ⟨c.text.toList, ?_, by rw [Component.ofPiece?_text hc]; rfl⟩
  by_cases hroot : (before ++ [c]).head? = some .root
  · cases before with
    | nil =>
      obtain rfl : c = .root := by simpa using hroot
      exact absurd hc id
    | cons d before =>
      obtain rfl : d = .root := by simpa using hroot
      have hsteps : ∀ d ∈ before ++ [c], d.IsStep := h.2
      rw [List.cons_append, pieces_ofComponents hsteps (by simp), List.map_append,
        ← List.cons_append]
      exact List.getLast?_concat
  · rw [pieces_ofComponents_of_ne_root h (by simp) hroot, List.map_append]
    exact List.getLast?_concat

end Path

namespace FileTree

open SwiftStyle.Path

variable {t m : FileTree}

/-- Every component starts from a directory. -/
def Passes (t : FileTree) : Place → List Path.Component → Prop
  | _, [] => True
  | place, c :: cs => t.get? place = some .directory ∧ t.Passes (c.from place) cs

theorem passes_append {place : Place} {before after : List Path.Component} :
    t.Passes place (before ++ after) ↔
      t.Passes place before ∧ t.Passes (along place before) after := by
  induction before generalizing place with
  | nil => simp [Passes, along]
  | cons c before ih => rw [List.cons_append, Passes, Passes, ih, along_cons, and_assoc]

/-- Where the end is a directory, the start is one. -/
theorem Passes.get?_start {place : Place} {cs : List Path.Component} (h : t.Passes place cs)
    (hend : cs = [] → t.get? (along place cs) = some .directory) :
    t.get? place = some .directory := by
  cases cs with
  | nil => exact hend rfl
  | cons c cs => exact h.1

/-- An open way starts from directories. -/
theorem Passes.get?_along {place : Place} {cs before after : List Path.Component}
    (h : t.Passes place cs) (hsplit : cs = before ++ after) (hne : after ≠ []) :
    t.get? (along place before) = some .directory := by
  rw [hsplit, passes_append] at h
  exact h.2.get?_start fun hnil => absurd hnil hne

/-! ## Pieces -/

theorem foldlM_step_cons {place : Place} (h : t.get? place = some .directory) (piece : List Char)
    (pieces : List (List Char)) :
    (piece :: pieces).foldlM t.step place =
      pieces.foldlM t.step (((Component.ofPiece? piece).map (·.from place)).getD place) := by
  rw [List.foldlM_cons, step_of_directory h]
  rfl

/-- **Pieces lead where their components do**; a last piece that is no step asks for a directory. -/
theorem foldlM_step_eq_ok_iff {place q : Place} {pieces : List (List Char)} {last : List Char}
    (hlast : pieces.getLast? = some last) :
    pieces.foldlM t.step place = .ok q ↔
      t.Passes place (pieces.filterMap Component.ofPiece?) ∧
        q = along place (pieces.filterMap Component.ofPiece?) ∧
        ((Component.ofPiece? last).isSome ∨ t.get? q = some .directory) := by
  induction pieces generalizing place with
  | nil => simp at hlast
  | cons piece pieces ih =>
    by_cases hplace : t.get? place = some .directory
    · rw [foldlM_step_cons hplace]
      cases pieces with
      | nil =>
        obtain rfl : piece = last := by simpa using hlast
        cases hread : Component.ofPiece? piece with
        | none =>
          simp only [List.foldlM_nil, List.filterMap_cons_none hread, List.filterMap_nil, Passes,
            along, List.foldl_nil, Option.map_none, Option.getD_none]
          constructor
          · intro hq
            obtain rfl := Except.ok.inj hq
            exact ⟨trivial, rfl, .inr hplace⟩
          · rintro ⟨-, rfl, -⟩
            rfl
        | some c =>
          simp only [List.foldlM_nil, List.filterMap_cons_some hread, List.filterMap_nil, Passes,
            along, List.foldl_cons, List.foldl_nil, Option.map_some, Option.getD_some]
          constructor
          · intro hq
            obtain rfl := Except.ok.inj hq
            exact ⟨⟨hplace, trivial⟩, rfl, .inl rfl⟩
          · rintro ⟨-, rfl, -⟩
            rfl
      | cons next pieces =>
        rw [ih (by simpa using hlast)]
        cases hread : Component.ofPiece? piece with
        | none => rw [List.filterMap_cons_none hread, Option.map_none, Option.getD_none]
        | some c =>
          rw [List.filterMap_cons_some hread, Option.map_some, Option.getD_some, Passes,
            along_cons, and_iff_right hplace]
    · -- a way that does not start passes nowhere
      obtain ⟨e, hstep⟩ := step_of_not_directory hplace piece
      have herror : (piece :: pieces).foldlM t.step place = .error e := by
        rw [List.foldlM_cons, hstep]
        rfl
      rw [herror]
      refine iff_of_false (by simp) ?_
      rintro ⟨hpasses, rfl, hend⟩
      refine hplace (hpasses.get?_start fun hnil => hend.resolve_left fun hsome => ?_)
      obtain ⟨c, hc⟩ := Option.isSome_iff_exists.1 hsome
      have hmem : c ∈ (piece :: pieces).filterMap Component.ofPiece? :=
        List.mem_filterMap.2 ⟨last, List.mem_of_getLast? hlast, hc⟩
      simp [hnil] at hmem

/-! ## Paths -/

/-- **Where a path leads**: its way is open, and unless it ends in a step a directory must be
there. -/
theorem resolve_eq_ok_iff (hlinks : t.links = []) {p : Path} {q : Place} :
    t.resolve p = .ok q ↔ p.text ≠ "" ∧ t.Passes (t.start p) p.components ∧
      q = along (t.start p) p.components ∧ (p.EndsInStep ∨ t.get? q = some .directory) := by
  obtain ⟨last, hlast⟩ := exists_getLast?_pieces p
  have hends : p.EndsInStep ↔ (Component.ofPiece? last).isSome := by
    simp [EndsInStep, hlast]
  by_cases htext : p.text = ""
  · simp [resolve, htext]
  · rw [resolve_eq_foldlM hlinks htext, foldlM_step_eq_ok_iff hlast, hends, and_iff_right htext]
    -- a root or a `.` in front leads nowhere, but it asks for the directory where the path begins
    have hfront : ∀ c : Path.Component, (∀ place, c.from place = place) →
        p.components = c :: p.steps →
        (t.Passes (t.start p) p.steps ∧ q = along (t.start p) p.steps ∧
          ((Component.ofPiece? last).isSome ∨ t.get? q = some .directory) ↔
        t.Passes (t.start p) p.components ∧ q = along (t.start p) p.components ∧
          ((Component.ofPiece? last).isSome ∨ t.get? q = some .directory)) := by
      intro c hc hcomponents
      rw [hcomponents, Passes, along_cons, hc, and_assoc]
      refine (and_iff_right_of_imp ?_).symm
      rintro ⟨hpasses, rfl, hend⟩
      refine hpasses.get?_start fun hnil => hend.resolve_left fun hsome => ?_
      obtain ⟨d, hd⟩ := Option.isSome_iff_exists.1 hsome
      have hmem : d ∈ p.steps := List.mem_filterMap.2 ⟨last, List.mem_of_getLast? hlast, hd⟩
      simp [hnil] at hmem
    change t.Passes (t.start p) p.steps ∧ _ ↔ _
    by_cases habs : p.isAbsolute = true
    · exact hfront .root (fun _ => rfl) (components_of_isAbsolute habs)
    · by_cases hdot : p.pieces.head? = some ['.']
      · exact hfront .current (fun _ => rfl) (by rw [components, if_neg habs, if_pos hdot]; rfl)
      · have hcomponents : p.components = p.steps := by
          rw [components, if_neg habs, if_neg hdot]
          rfl
        rw [hcomponents]
        exact Iff.rfl

/-- **The last step of an open path** is taken from a directory. -/
theorem exists_way_of_resolve (hlinks : t.links = []) {p : Path} {q : Place} {last : List Char}
    (hq : t.resolve p = .ok q) (hlast : p.pieces.getLast? = some last) : ∃ directory,
      p.pieces.dropLast.foldlM t.step (t.start p) = .ok directory ∧
      t.get? directory = some .directory ∧
      q = ((Component.ofPiece? last).map (·.from directory)).getD directory := by
  obtain ⟨htext, -⟩ := (resolve_eq_ok_iff hlinks).1 hq
  obtain ⟨before, hbefore⟩ := List.getLast?_eq_some_iff.1 hlast
  rw [resolve_eq_foldlM hlinks htext, hbefore, List.foldlM_append] at hq
  obtain ⟨directory, hway, hstep⟩ := bind_eq_ok_iff.1 hq
  rw [hbefore, List.dropLast_concat]
  refine ⟨directory, hway, ?_⟩
  by_cases hthere : t.get? directory = some .directory
  · rw [foldlM_step_cons hthere] at hstep
    exact ⟨hthere, (Except.ok.inj hstep).symm⟩
  · obtain ⟨e, he⟩ := step_of_not_directory hthere last
    rw [List.foldlM_cons, he] at hstep
    simp [bind, Except.bind] at hstep

/-- **Where no directory stands a path ends in a name**, in a directory that is there. -/
theorem Plain.exists_name_of_resolve (ht : t.Plain) {p : Path} {q : Place}
    (h : t.resolve p = .ok q) (hnot : t.get? q ≠ some .directory) : ∃ place name,
      q = place ++ [name] ∧ t.get? place = some .directory ∧
      p.components.getLast? = some (.name name) := by
  rw [← resolveEntry_eq_resolve ht.no_links] at h
  obtain ⟨place, name, last, rfl, hplace, _, hlast, hread⟩ := ht.exists_name_of_resolveEntry h hnot
  exact ⟨place, name, rfl, hplace, getLast?_components hlast hread⟩

end FileTree

end SwiftStyle
