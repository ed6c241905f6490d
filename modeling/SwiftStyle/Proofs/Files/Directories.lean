import SwiftStyle.Files.Replacement
import SwiftStyle.Proofs.Files.Ways

/-!
# Proofs/Files/Directories — making the directories on the way of a path

Making directories adds directories and changes nothing else (`Extends`), and each of the new ones
stands where a front part of the way to be made leads (`makes_makeSteps`).  So a path that was open
leads where it led.  One that was not open leads to nothing new, unless it goes back by `..` after a
name, because only then can its end lie beside the new directories and not below them
(`MakesWayTo.entry?_eq_of_not_goesBack`).
-/

namespace SwiftStyle

/-- **A step back by `..` comes after a name.** -/
def Path.GoesBack (p : Path) : Prop :=
  ∃ before name after, p.components = before ++ .name name :: after ∧ .parent ∈ after

namespace FileTree

open SwiftStyle.Path

variable {t m m' : FileTree}

/-! ## More directories -/

/-- A directory where nothing was before. -/
def IsNew (t m : FileTree) (place : Place) : Prop :=
  t.get? place = none ∧ m.get? place = some .directory

theorem IsNew.not_directory {place : Place} (h : t.IsNew m place) :
    t.get? place ≠ some .directory := by simp [h.1]

/-- **New directories and nothing else.** -/
structure Extends (t m : FileTree) : Prop where
  workingDirectory : m.workingDirectory = t.workingDirectory
  links : m.links = t.links
  same_or_new : ∀ place, m.get? place = t.get? place ∨ t.IsNew m place

namespace Extends

theorem refl (t : FileTree) : t.Extends t := ⟨rfl, rfl, fun _ => .inl rfl⟩

theorem link?_eq (h : t.Extends m) (place : Place) : m.link? place = t.link? place :=
  link?_congr h.links place

theorem directory (h : t.Extends m) {place : Place} (hplace : t.get? place = some .directory) :
    m.get? place = some .directory := by
  rcases h.same_or_new place with hsame | hnew
  · rw [hsame, hplace]
  · exact hnew.2

theorem file_iff (h : t.Extends m) {place : Place} {bytes : ByteArray} :
    m.get? place = some (.file bytes) ↔ t.get? place = some (.file bytes) := by
  rcases h.same_or_new place with hsame | ⟨hnone, hnew⟩
  · rw [hsame]
  · simp [hnone, hnew]

/-- What is new in the end was new in one of two stages. -/
theorem isNew_or (h' : m.Extends m') {place : Place} (hnew : t.IsNew m' place) :
    t.IsNew m place ∨ m.IsNew m' place := by
  rcases h'.same_or_new place with hsame | hnew'
  · exact .inl ⟨hnew.1, hsame ▸ hnew.2⟩
  · exact .inr hnew'

theorem trans (h : t.Extends m) (h' : m.Extends m') : t.Extends m' := by
  refine ⟨h'.workingDirectory.trans h.workingDirectory, h'.links.trans h.links, fun place => ?_⟩
  rcases h'.same_or_new place with hsame' | ⟨hnone', hnew'⟩
  · rcases h.same_or_new place with hsame | ⟨hnone, hnew⟩
    · exact .inl (hsame'.trans hsame)
    · exact .inr ⟨hnone, hsame'.trans hnew⟩
  · rcases h.same_or_new place with hsame | ⟨hnone, hnew⟩
    · exact .inr ⟨hsame ▸ hnone', hnew'⟩
    · exact absurd (hnew.symm.trans hnone') (by simp)

theorem leads (h : t.Extends m) {links : Nat} {place q : Place} {pieces : List (List Char)}
    (hway : t.Leads links place pieces q) : m.Leads links place pieces q :=
  hway.mono (fun _ => h.directory) h.link?_eq

theorem resolve (h : t.Extends m) {p : Path} {q : Place} (hq : t.resolve p = .ok q) :
    m.resolve p = .ok q := resolve_mono h.workingDirectory h.link?_eq (fun _ => h.directory) hq

theorem resolveEntry (h : t.Extends m) {p : Path} {q : Place} (hq : t.resolveEntry p = .ok q) :
    m.resolveEntry p = .ok q :=
  resolveEntry_mono h.workingDirectory h.link?_eq (fun _ => h.directory) hq

end Extends

/-- An entry is put in a directory under a name, where no directory is. -/
theorem WellFormed.set (ht : t.WellFormed) {place : Place} {name : String}
    (hplace : t.get? place = some .directory) (hname : IsName name)
    (hnot : t.get? (place ++ [name]) ≠ some .directory) (entry : Entry) :
    (t.set (place ++ [name]) entry).WellFormed where
  names e he := by
    rcases List.mem_cons.1 he with rfl | he
    · refine ⟨by simp, fun other hother => ?_⟩
      rcases List.mem_append.1 hother with hother | hother
      · exact ht.isName hplace other hother
      · rwa [List.mem_singleton.1 hother]
    · exact ht.names e (List.mem_filter.1 he).1
  distinct := by
    refine List.nodup_cons.2 ⟨fun hmem => ?_, (List.filter_sublist.map _).nodup ht.distinct⟩
    obtain ⟨e, he, heq⟩ := List.mem_map.1 hmem
    simp [heq] at he
  parents e he := by
    have hdirectory : t.get? e.1.dropLast = some .directory := by
      rcases List.mem_cons.1 he with rfl | he
      · simpa using hplace
      · exact ht.parents e (List.mem_filter.1 he).1
    have hne : e.1.dropLast ≠ place ++ [name] := fun heq => hnot (heq ▸ hdirectory)
    rwa [get?_set_ne t hne]
  links l hl := by
    obtain ⟨hl, hne⟩ := List.mem_filter.1 hl
    obtain ⟨hnone, hparent⟩ := ht.links l hl
    have hother : l.1.dropLast ≠ place ++ [name] := fun heq => hnot (heq ▸ hparent)
    rw [get?_set_ne t (by simpa using hne), get?_set_ne t hother]
    exact ⟨hnone, hparent⟩

/-- **A directory is made where nothing was**, neither an entry nor a link. -/
theorem makeDirectory_eq_ok {p : Path} (h : t.makeDirectory p = .ok m) :
    ∃ q, t.resolveEntry p = .ok q ∧ t.IsFree q ∧ m = t.set q .directory := by
  rw [makeDirectory] at h
  obtain ⟨q, hresolve, h⟩ := bind_eq_ok_iff.1 h
  split at h
  · next hnone hlink => exact ⟨q, hresolve, ⟨hnone, hlink⟩, (Except.ok.inj h).symm⟩
  · exact absurd h throw_ne_ok

theorem extends_set_directory {q : Place} (h : t.IsFree q) : t.Extends (t.set q .directory) := by
  refine ⟨rfl, filter_links h.2, fun place => ?_⟩
  by_cases hplace : place = q
  · subst hplace
    exact .inr ⟨h.1, get?_set_self t h.ne_nil _⟩
  · exact .inl (get?_set_ne t hplace _)

/-! ## Directories on a way -/

/-- The place where components begin. -/
def startOf (t : FileTree) (cs : List Path.Component) : Place :=
  if cs.head? = some .root then [] else t.workingDirectory

/-- A path begins where its components do. -/
theorem startOf_components (t : FileTree) (p : Path) : t.startOf p.components = t.start p := by
  rw [start, startOf]
  exact if_congr isAbsolute_iff_head?.symm rfl rfl

theorem start_ofComponents {cs : List Path.Component} (h : AreComponents cs) (hne : cs ≠ []) :
    t.start (ofComponents cs) = t.startOf cs := by
  rw [← startOf_components, h.components_ofComponents hne]

/-- Components begin where the first of them does. -/
theorem startOf_append {cs : List Path.Component} (hne : cs ≠ []) (more : List Path.Component) :
    t.startOf (cs ++ more) = t.startOf cs := by
  rw [startOf, startOf, List.head?_append_of_ne_nil _ hne]

/-- **Directories were made on a way**: `m` is `t` with new directories, each of them where a front
part of the way leads. -/
structure Makes (t : FileTree) (cs : List Path.Component) (m : FileTree) : Prop
    extends t.Extends m where
  wellFormed : t.WellFormed → m.WellFormed
  onTheWay : ∀ place, t.IsNew m place → t.get? (t.startOf cs) = some .directory ∧
    ∃ before after, cs = before ++ after ∧ before ≠ [] ∧
      m.resolveEntry (ofComponents before) = .ok place

theorem Makes.refl (t : FileTree) (cs : List Path.Component) : t.Makes cs t :=
  ⟨Extends.refl t, id, fun _ hnew => absurd hnew.2 hnew.not_directory⟩

/-- What is on the way is on a longer way. -/
theorem Makes.append {cs : List Path.Component} (h : t.Makes cs m) (more : List Path.Component) :
    t.Makes (cs ++ more) m := by
  refine ⟨h.toExtends, h.wellFormed, fun place hnew => ?_⟩
  obtain ⟨hstart, before, after, rfl, hne, hplace⟩ := h.onTheWay place hnew
  rw [startOf_append (by simp [hne])]
  exact ⟨hstart, before, after ++ more, by simp, hne, hplace⟩

/-- **One more directory, at the end of the way.** -/
theorem Makes.makeDirectory {cs : List Path.Component} (hcs : AreComponents cs) (hne : cs ≠ [])
    (h : t.Makes cs m) (hm : m.makeDirectory (ofComponents cs) = .ok m') : t.Makes cs m' := by
  obtain ⟨q, hentry, hfree, rfl⟩ := makeDirectory_eq_ok hm
  have hextends := extends_set_directory hfree
  refine ⟨h.toExtends.trans hextends, fun ht => ?_, fun place hnew => ?_⟩
  · have hwellFormed := h.wellFormed ht
    obtain ⟨place, name, _, rfl, hplace, hname, _⟩ :=
      hwellFormed.exists_name_of_resolveEntry hentry (by simp [hfree.1])
    exact hwellFormed.set hplace hname (by simp [hfree.1]) _
  · rcases hextends.isNew_or hnew with hold | hlast
    · obtain ⟨hstart, before, after, hsplit, hbefore, hplace⟩ := h.onTheWay place hold
      exact ⟨hstart, before, after, hsplit, hbefore, hextends.resolveEntry hplace⟩
    · obtain rfl : place = q := by
        by_contra hother
        rw [IsNew, get?_set_ne m hother] at hlast
        exact absurd (hlast.1.symm.trans hlast.2) (by simp)
      refine ⟨?_, cs, [], by simp, hne, hextends.resolveEntry hentry⟩
      -- the way starts from a directory, and no new one, or else the start would be at its end
      have hstart := get?_start_of_resolveEntry hentry
      rw [start_ofComponents hcs hne, startOf, h.workingDirectory, ← startOf] at hstart
      rcases h.same_or_new (t.startOf cs) with hsame | hnewStart
      · rwa [← hsame]
      · exact (h.onTheWay _ hnewStart).1

theorem Makes.ensureDirectory {cs : List Path.Component} (hcs : AreComponents cs) (hne : cs ≠ [])
    (h : t.Makes cs m) : t.Makes cs (m.ensureDirectory (ofComponents cs)).1 := by
  rw [FileTree.ensureDirectory]
  split
  · next hmade => exact h.makeDirectory hcs hne hmade
  · exact h

/-- **The last directory is made** at once, or after those before it, or one of these cannot be
made. -/
theorem makeSteps_cons (t : FileTree) (last : Path.Component) (before : List Path.Component) :
    (t.makeDirectory (ofComponents (last :: before).reverse) ≠ .error .notFound ∧
      t.makeSteps (last :: before) = t.ensureDirectory (ofComponents (last :: before).reverse)) ∨
    (∃ m, t.makeSteps before = (m, .ok ()) ∧
      t.makeSteps (last :: before) = m.ensureDirectory (ofComponents (last :: before).reverse)) ∨
    ∃ m e, t.makeSteps before = (m, .error e) ∧ t.makeSteps (last :: before) = (m, .error e) := by
  rw [makeSteps]
  split
  · split
    · next hsteps => exact .inr (.inl ⟨_, hsteps, rfl⟩)
    · next hsteps => exact .inr (.inr ⟨_, _, hsteps, rfl⟩)
  · next hmade => exact .inl ⟨hmade, rfl⟩

/-- **All directories on a way.** -/
theorem makes_makeSteps (t : FileTree) : ∀ rev : List Path.Component,
    AreComponents rev.reverse → t.Makes rev.reverse (t.makeSteps rev).1
  | [], _ => Makes.refl t _
  | last :: before, hcs => by
    have hne : (last :: before).reverse ≠ [] := by simp
    have hbefore : AreComponents before.reverse := by
      rw [List.reverse_cons] at hcs
      exact hcs.of_append
    have ih := (makes_makeSteps t before hbefore).append [last]
    rw [← List.reverse_cons] at ih
    rcases t.makeSteps_cons last before with ⟨_, heq⟩ | ⟨m, hsteps, heq⟩ | ⟨m, e, hsteps, heq⟩
    · rw [heq]
      exact (Makes.refl t _).ensureDirectory hcs hne
    · rw [hsteps] at ih
      rw [heq]
      exact ih.ensureDirectory hcs hne
    · rw [hsteps] at ih
      rwa [heq]

/-! ## The directory of a path -/

/-- **The directory of a path** is the path without its last component, or the one at hand. -/
theorem directoryOf_eq_ofComponents (p : Path) : ∃ cs, AreComponents cs ∧ cs ≠ [] ∧
    directoryOf p = ofComponents cs ∧
    (cs = [.current] ∧ p.components.dropLast = [] ∨ ∃ last, p.components = cs ++ [last]) := by
  have hcurrent : AreComponents [.current] := by simp [AreComponents]
  rcases List.eq_nil_or_concat p.components with hnil | ⟨before, last, hcs⟩
  · have hparent : p.parent? = none := by rw [parent?, hnil]; rfl
    exact ⟨_, hcurrent, by simp, by rw [directoryOf, hparent]; rfl, .inl ⟨rfl, by simp [hnil]⟩⟩
  · rw [List.concat_eq_append] at hcs
    have hlast : p.components.getLast? = some last := by rw [hcs, List.getLast?_concat]
    have hdropLast : p.components.dropLast = before := by rw [hcs, List.dropLast_concat]
    have hbefore : AreComponents before := (hcs ▸ areComponents_components p).of_append
    by_cases hne : before = []
    · have hdirectory : directoryOf p = ⟨"."⟩ := by
        rw [directoryOf, parent?, hlast, hdropLast, hne]
        cases last <;> rfl
      exact ⟨_, hcurrent, by simp, hdirectory, .inl ⟨rfl, hdropLast.trans hne⟩⟩
    · -- the root comes first, so it is not the last of several
      have hroot : last ≠ .root := by
        rintro rfl
        exact (hcs ▸ areComponents_components p : AreComponents _).isStep hne .root (by simp)
      have hparent : p.parent? = some (ofComponents before) := by
        rw [parent?, hlast]
        simp only [hdropLast]
      refine ⟨before, hbefore, hne, ?_, .inr ⟨last, hcs⟩⟩
      rw [directoryOf, hparent]
      refine if_neg fun hempty => hne ?_
      have hnothing : ofComponents before = ⟨""⟩ := eq_of_text (by simpa using hempty)
      rw [← hbefore.components_ofComponents hne, hnothing]
      rfl

theorem components_directoryOf (p : Path) : (directoryOf p).components ≠ [] ∧
    ofComponents (directoryOf p).components = directoryOf p ∧
    ((directoryOf p).components = [.current] ∧ p.components.dropLast = [] ∨
      ∃ last, p.components = (directoryOf p).components ++ [last]) := by
  obtain ⟨cs, hcs, hne, hdirectory, hsplit⟩ := directoryOf_eq_ofComponents p
  rw [hdirectory, hcs.components_ofComponents hne]
  exact ⟨hne, rfl, hsplit⟩

/-- A path begins where its directory does. -/
theorem start_directoryOf {p : Path} {last : Path.Component}
    (h : p.components = (directoryOf p).components ++ [last]) :
    t.start (directoryOf p) = t.start p := by
  rw [← startOf_components, ← startOf_components t p, h,
    startOf_append (components_directoryOf p).1]

/-- **The way to a path was made**: new directories stand on the way, before its end. -/
structure MakesWayTo (t : FileTree) (p : Path) (m : FileTree) : Prop extends t.Extends m where
  wellFormed : t.WellFormed → m.WellFormed
  onTheWay : ∀ place, t.IsNew m place → t.get? (t.start p) = some .directory ∧
    ∃ before after, p.components = before ++ after ∧ before ≠ [] ∧ after ≠ [] ∧
      m.resolveEntry (ofComponents before) = .ok place

/-- The path of the directory at hand names that directory. -/
theorem eq_of_resolveEntry_current {place : Place}
    (h : t.resolveEntry (ofComponents [.current]) = .ok place) : place = t.workingDirectory := by
  have hlast : (ofComponents [.current]).pieces.getLast? = some ['.'] := by decide
  have hbefore : (ofComponents [.current]).pieces.dropLast = [] := by decide
  have hstart : t.start (ofComponents [.current]) = t.workingDirectory := if_neg (by decide)
  obtain ⟨-, directory, hway, hstep⟩ := (resolveEntry_eq_ok_iff hlast).1 h
  rw [hbefore, hstart] at hway
  cases hway
  exact (step_eq_ok_iff.1 hstep).2

/-- **Directories on the way of the directory of a path** are on the way of the path. -/
theorem Makes.makesWayTo {p : Path} (h : t.Makes (directoryOf p).components m) :
    t.MakesWayTo p m := by
  refine ⟨h.toExtends, h.wellFormed, fun place hnew => ?_⟩
  obtain ⟨hstart, before, after, hsplit, hbefore, hplace⟩ := h.onTheWay place hnew
  obtain ⟨-, -, ⟨hcurrent, -⟩ | ⟨last, hlast⟩⟩ := components_directoryOf p
  · -- the directory at hand is the one where its way begins
    obtain ⟨c, rest, rfl⟩ := List.exists_cons_of_ne_nil hbefore
    obtain ⟨rfl, hrest⟩ := List.cons.inj (hcurrent.symm.trans hsplit)
    obtain rfl := (List.append_eq_nil_iff.1 hrest.symm).1
    rw [hcurrent] at hstart
    rw [eq_of_resolveEntry_current hplace, h.workingDirectory] at hnew
    exact absurd hstart hnew.not_directory
  · rw [startOf_components, start_directoryOf hlast] at hstart
    exact ⟨hstart, before, after ++ [last], by rw [hlast, hsplit, List.append_assoc], hbefore,
      by simp, hplace⟩

/-- **The way to a path is made**, also when making it fails halfway. -/
theorem makesWayTo_makeDirectoryOf (t : FileTree) (faults : Faults) (p : Path) :
    t.MakesWayTo p (makeDirectoryOf faults p t).1 := by
  have hcs := areComponents_components (directoryOf p)
  have hmakes : ∀ front back, (directoryOf p).components = front ++ back →
      t.MakesWayTo p (t.makeSteps front.reverse).1 := by
    intro front back hsplit
    have h := makes_makeSteps t front.reverse
      (by simpa using (hsplit ▸ hcs : AreComponents (front ++ back)).of_append)
    rw [List.reverse_reverse] at h
    exact (hsplit ▸ h.append back).makesWayTo
  rw [makeDirectoryOf]
  split
  · exact hmakes _ _ (List.take_append_drop faults.made _).symm
  · exact hmakes _ [] (List.append_nil _).symm

/-! ## What a path leads to -/

namespace MakesWayTo

variable {p : Path} (ht : t.WellFormed) (h : t.MakesWayTo p m)
include ht h

/-- **A new directory is where a front part of the steps leads.** -/
theorem leads_of_isNew {place : Place} (hnew : t.IsNew m place) :
    t.get? (t.start p) = some .directory ∧ ∃ before after, p.steps = before ++ after ∧
      after ≠ [] ∧ m.Leads maxLinks (t.start p) (before.map (·.text.toList)) place := by
  obtain ⟨hstart, before, after, hcs, hbefore, hafter, hentry⟩ := h.onTheWay place hnew
  have hm := h.wellFormed ht
  have hcomponents : AreComponents before :=
    (hcs ▸ areComponents_components p : AreComponents (before ++ after)).of_append
  have hway := hm.leads_steps (resolve_of_resolveEntry hentry (hm.link?_eq_none hnew.2))
  rw [start_congr h.workingDirectory, start_ofComponents hcomponents hbefore,
    ← startOf_append hbefore after, ← hcs, startOf_components] at hway
  exact ⟨hstart, _, after, steps_eq_append hcs hbefore, hafter, hway⟩

/-- **An open way needs no new directory.** -/
theorem not_isNew {q : Place} (hq : t.resolve p = .ok q) (place : Place) : ¬t.IsNew m place := by
  intro hnew
  obtain ⟨_, before, after, hsteps, hne, hplace⟩ := h.leads_of_isNew ht hnew
  have hway := ht.leads_steps hq
  rw [hsteps, List.map_append] at hway
  obtain ⟨between, _, hbefore, hafter⟩ := hway.exists_between
  obtain rfl := hplace.unique (h.leads hbefore)
  exact hnew.not_directory (hafter.get?_start (by simpa using hne))

/-- **An open way leads to what it led to.** -/
theorem entry?_eq_of_resolve {q : Place} (hq : t.resolve p = .ok q) :
    m.entry? p = t.entry? p := by
  have hsame : ∀ place, m.get? place = t.get? place := fun place =>
    (h.same_or_new place).resolve_right (h.not_isNew ht hq place)
  exact entry?_congr h.workingDirectory h.link?_eq (fun place => by rw [hsame]) fun place _ =>
    hsame place

/-- **Below a new directory there was nothing**, so without steps back the way leads further down
from there, by names. -/
theorem below_of_isNew (hback : ¬p.GoesBack) {before more rest : List Path.Component}
    (hsteps : p.steps = before ++ (more ++ rest)) {place q : Place} (hnew : t.IsNew m place)
    (hplace : m.Leads maxLinks (t.start p) (before.map (·.text.toList)) place)
    (hq : m.Leads maxLinks (t.start p) ((before ++ more).map (·.text.toList)) q) :
    ∃ names : List String, q = place ++ names ∧ names.length = more.length := by
  have hstep : ∀ c ∈ before ++ (more ++ rest), c.IsStep := fun c hc =>
    isStep_of_mem_steps (hsteps ▸ hc)
  -- a new directory has a name, so only names follow
  have hname : ∃ name, .name name ∈ before := by
    by_contra hnot
    rw [not_exists] at hnot
    obtain ⟨q, hway, hdirectory⟩ := ht.leads_of_no_names (h.onTheWay _ hnew).1
      (fun c hc => hstep c (List.mem_append_left _ hc)) hnot maxLinks
    obtain rfl := hplace.unique (h.leads hway)
    exact hnew.not_directory hdirectory
  obtain ⟨name, hname⟩ := hname
  obtain ⟨front, back, rfl⟩ := List.append_of_mem hname
  obtain ⟨root, hroot, -⟩ := p.exists_front
  have hparent : .parent ∉ more := fun hmem =>
    hback ⟨root ++ front, name, back ++ (more ++ rest), by rw [hroot, hsteps]; simp, by simp [hmem]⟩
  have hmore : ∀ c ∈ more, c.IsStep := fun c hc =>
    hstep c (List.mem_append_right _ (List.mem_append_left _ hc))
  obtain ⟨names, rfl⟩ := exists_names hmore hparent
  rw [List.map_append] at hq
  obtain ⟨between, _, hfirst, hsecond⟩ := hq.exists_between
  obtain rfl := hplace.unique hfirst
  have htexts : (names.map Component.name).map (·.text.toList) = names.map String.toList := by
    rw [List.map_map]
    rfl
  rw [htexts] at hsecond
  refine ⟨names, hsecond.eq_append_names (fun name hname => ?_) fun way hway => ?_, by simp⟩
  · exact hmore (.name name) (List.mem_map_of_mem hname)
  · rw [h.link?_eq]
    exact (ht.isFree_below hnew.not_directory hway).2

/-- **New directories lie as far apart as the steps that lead to them.** -/
theorem length_add_of_isNew (hback : ¬p.GoesBack)
    {before after before' after' : List Path.Component}
    (hsteps : p.steps = before ++ after) (hsteps' : p.steps = before' ++ after')
    {place place' : Place} (hnew : t.IsNew m place) (hnew' : t.IsNew m place')
    (hplace : m.Leads maxLinks (t.start p) (before.map (·.text.toList)) place)
    (hplace' : m.Leads maxLinks (t.start p) (before'.map (·.text.toList)) place') :
    place.length + before'.length = place'.length + before.length := by
  rcases List.append_eq_append_iff.1 (hsteps.symm.trans hsteps') with
    ⟨more, rfl, rfl⟩ | ⟨more, rfl, rfl⟩
  · obtain ⟨names, rfl, hlength⟩ := h.below_of_isNew ht hback hsteps hnew hplace hplace'
    simp only [List.length_append]
    omega
  · obtain ⟨names, rfl, hlength⟩ := h.below_of_isNew ht hback hsteps' hnew' hplace' hplace
    simp only [List.length_append]
    omega

omit ht in
/-- A way that was opened goes over a new directory. -/
theorem exists_isNew (hopen : ∀ q, t.resolve p ≠ .ok q) {q : Place} (hq : m.resolve p = .ok q) :
    ∃ place, t.IsNew m place := by
  by_contra hnone
  rw [not_exists] at hnone
  have hsame : ∀ place, m.get? place = t.get? place := fun place =>
    (h.same_or_new place).resolve_right (hnone place)
  exact hopen q ((resolve_congr h.workingDirectory h.link?_eq fun place => by rw [hsame]).1 hq)

/-- **Without steps back a path leads to what it led to.** -/
theorem entry?_eq_of_not_goesBack (hback : ¬p.GoesBack) : m.entry? p = t.entry? p := by
  by_cases hopen : ∃ q, t.resolve p = .ok q
  · obtain ⟨q, hq⟩ := hopen
    exact h.entry?_eq_of_resolve ht hq
  · rw [not_exists] at hopen
    rw [entry?_of_not_resolve hopen]
    by_contra hsome
    obtain ⟨entry, hentry⟩ := Option.ne_none_iff_exists'.1 hsome
    obtain ⟨q, hq, hentry⟩ := entry?_eq_some_iff.1 hentry
    have hway := (h.wellFormed ht).leads_steps hq
    rw [start_congr h.workingDirectory] at hway
    obtain ⟨place, hnew⟩ := h.exists_isNew hopen hq
    obtain ⟨_, before, after, hsteps, hne, hplace⟩ := h.leads_of_isNew ht hnew
    have hall : p.steps = before ++ (after ++ []) := by rw [hsteps, List.append_nil]
    obtain ⟨names, rfl, hlength⟩ := h.below_of_isNew ht hback hall hnew hplace (hsteps ▸ hway)
    have hpos := List.length_pos_iff.2 hne
    -- the end lies below it, so it is new too
    have hend : t.IsNew m (place ++ names) := by
      refine (h.same_or_new _).resolve_left fun hsame => ?_
      have hnames : names ≠ [] := List.length_pos_iff.1 (by omega)
      have hfree := ht.isFree_below hnew.not_directory hnames
      rw [hsame, hfree.1] at hentry
      cases hentry
    -- but new directories are before the end of the way
    obtain ⟨_, before', after', hsteps', hne', hend'⟩ := h.leads_of_isNew ht hend
    have hpos' := List.length_pos_iff.2 hne'
    have hapart := h.length_add_of_isNew ht hback hsteps hsteps' hnew hend hplace hend'
    have hcount := congrArg List.length (hsteps.symm.trans hsteps')
    simp only [List.length_append] at hapart hcount
    omega

end MakesWayTo

end FileTree

end SwiftStyle
