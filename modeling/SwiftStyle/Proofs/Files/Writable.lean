import SwiftStyle.Proofs.Files.Replacement

/-!
# Proofs/Files/Writable — which files can be replaced

Where there are no links, nothing but a file in the way keeps directories from being made
(`makeSteps_eq_ok_iff`), and with them made a path leads to a place where a file can be put unless a
directory is there.  So whether a replacement succeeds can be read off the tree before it: no step
meets an error from outside, and the path is `Writable` (`replaceFile_eq_ok_iff`).
-/

namespace SwiftStyle

namespace FileTree

open SwiftStyle.Path

variable {t m s : FileTree} {temporary : Place}

namespace MakesWayTo

variable {p : Path} (ht : t.Plain) (h : t.MakesWayTo p m)
include ht h

theorem plain : m.Plain := ⟨h.wellFormed ht.toWellFormed, h.links.trans ht.no_links⟩

/-- **Without links a new directory is told by the components** that lead to it. -/
theorem along_of_isNew {place : Place} (hnew : t.IsNew m place) :
    t.get? (t.start p) = some .directory ∧ ∃ before after, p.components = before ++ after ∧
      after ≠ [] ∧ place = along (t.start p) before := by
  obtain ⟨hstart, before, after, hcs, hbefore, hafter, hentry⟩ := h.onTheWay place hnew
  have hcomponents : AreComponents before :=
    (hcs ▸ areComponents_components p : AreComponents (before ++ after)).of_append
  have hlinks := (h.plain ht).no_links
  rw [resolveEntry_eq_resolve hlinks, resolve_eq_ok_iff hlinks,
    hcomponents.components_ofComponents hbefore, start_congr h.workingDirectory,
    start_ofComponents hcomponents hbefore, ← startOf_append hbefore after, ← hcs,
    startOf_components] at hentry
  exact ⟨hstart, before, after, hcs, hafter, hentry.2.2.1⟩

end MakesWayTo

/-! ## A clear way -/

/-- **A way is clear**: it begins in a directory, and no file is on it. -/
structure Clear (t : FileTree) (place : Place) (cs : List Path.Component) : Prop where
  start : t.get? place = some .directory
  no_file : ∀ before after, cs = before ++ after →
    ∀ bytes, t.get? (along place before) ≠ some (.file bytes)

theorem Clear.of_append {place : Place} {before after : List Path.Component}
    (h : t.Clear place (before ++ after)) : t.Clear place before where
  start := h.start
  no_file front back hsplit := h.no_file front (back ++ after) (by rw [hsplit, List.append_assoc])

/-- Where no file is in the way, a way breaks off only where nothing is. -/
theorem eq_notFound_of_foldlM_step {place : Place} {pieces : List (List Char)} {e : FileError}
    (hfile : ∀ before after, pieces.filterMap Component.ofPiece? = before ++ after →
      ∀ bytes, t.get? (along place before) ≠ some (.file bytes))
    (h : pieces.foldlM t.step place = .error e) : e = .notFound := by
  induction pieces generalizing place with
  | nil => simp [pure, Except.pure] at h
  | cons piece pieces ih =>
    cases hplace : t.get? place with
    | none =>
      have hstep : t.step place piece = .error .notFound := by rw [step, hplace]
      rw [List.foldlM_cons, hstep] at h
      exact (Except.error.inj h).symm
    | some entry =>
      cases entry with
      | file bytes => exact absurd hplace (hfile [] _ rfl bytes)
      | directory =>
        rw [foldlM_step_cons hplace] at h
        refine ih (fun before after hsplit => ?_) h
        cases hread : Component.ofPiece? piece with
        | none => exact hfile before after (by rw [List.filterMap_cons_none hread, hsplit])
        | some c =>
          exact hfile (c :: before) after (by rw [List.filterMap_cons_some hread, hsplit]; rfl)

theorem Clear.eq_notFound (hlinks : t.links = []) {p : Path} {e : FileError}
    (h : t.Clear (t.start p) p.components) (herror : t.resolve p = .error e) : e = .notFound := by
  rw [resolve] at herror
  split at herror
  · exact (Except.error.inj herror).symm
  · rw [follow_eq_foldlM hlinks] at herror
    refine eq_notFound_of_foldlM_step (fun before after hsplit => ?_) herror
    obtain ⟨front, hfront, hstill⟩ := p.exists_front
    have hfile := h.no_file (front ++ before) after
      (by rw [hfront, steps, hsplit, List.append_assoc])
    rwa [along_append, hstill] at hfile

/-! ## Making directories -/

theorem isDirectory_ensureDirectory (hlinks : t.links = []) {p : Path}
    (h : (t.ensureDirectory p).2 = .ok ()) : (t.ensureDirectory p).1.isDirectory p = true := by
  rw [ensureDirectory] at h ⊢
  split
  · next made hmade =>
    obtain ⟨q, hq, hfree, rfl⟩ := makeDirectory_eq_ok hmade
    rw [resolveEntry_eq_resolve hlinks] at hq
    exact isDirectory_iff.2
      ⟨q, (extends_set_directory hfree).resolve hq, get?_set_self t hfree.ne_nil _⟩
  · next e he =>
    rw [he] at h
    by_contra hnot
    simp [hnot] at h

theorem makeDirectory_of_resolve (hlinks : t.links = []) {p : Path} {q : Place}
    (hq : t.resolve p = .ok q) (hnone : t.get? q = none) :
    t.makeDirectory p = .ok (t.set q .directory) := by
  rw [makeDirectory, resolveEntry_eq_resolve hlinks, hq]
  simp only [bind, Except.bind, hnone, link?_eq_none_of_links hlinks]
  rfl

/-- **A directory can be made** where a path leads, unless a file is there. -/
theorem ensureDirectory_eq_ok (hlinks : t.links = []) {p : Path} {q : Place}
    (hq : t.resolve p = .ok q) (hfile : ∀ bytes, t.get? q ≠ some (.file bytes)) :
    (t.ensureDirectory p).2 = .ok () := by
  rw [ensureDirectory]
  split
  · rfl
  · next e he =>
    refine if_pos (isDirectory_iff.2 ⟨q, hq, ?_⟩)
    cases hentry : t.get? q with
    | none =>
      rw [makeDirectory_of_resolve hlinks hq hentry] at he
      simp at he
    | some entry =>
      cases entry with
      | directory => rfl
      | file bytes => exact absurd hentry (hfile bytes)

/-- **An open way written from components leads to its end.** -/
theorem Passes.resolve (hlinks : t.links = []) {cs : List Path.Component}
    (hcs : AreComponents cs) (hne : cs ≠ []) (h : t.Passes (t.startOf cs) cs) :
    t.resolve (ofComponents cs) = .ok (along (t.startOf cs) cs) := by
  have hread := hcs.components_ofComponents hne
  have htext : (ofComponents cs).text ≠ "" := by
    intro hempty
    rw [eq_of_text (p := ofComponents cs) (q := ⟨""⟩) hempty] at hread
    exact hne hread.symm
  rw [resolve_eq_ok_iff hlinks, hread, start_ofComponents hcs hne]
  refine ⟨htext, h, rfl, ?_⟩
  obtain ⟨before, c, rfl⟩ := (List.eq_nil_or_concat' cs).resolve_left hne
  by_cases hbefore : before = []
  · subst hbefore
    rcases hcs.1 with rfl | rfl | hstep
    · exact .inr h.1
    · exact .inr h.1
    · exact .inl (endsInStep_ofComponents hcs hstep)
  · exact .inl (endsInStep_ofComponents hcs (hcs.isStep hbefore c (by simp)))

/-- With the directories in front made, the last one can be made. -/
theorem Clear.ensureDirectory_eq_ok (hlinks : t.links = []) {cs : List Path.Component}
    (hcs : AreComponents cs) (hne : cs ≠ []) (h : t.Clear (t.startOf cs) cs)
    (hextends : t.Extends m) (hpasses : m.Passes (m.startOf cs) cs) :
    (m.ensureDirectory (ofComponents cs)).2 = .ok () := by
  have hstart : m.startOf cs = t.startOf cs := by rw [startOf, startOf, hextends.workingDirectory]
  have hm := hextends.links.trans hlinks
  refine FileTree.ensureDirectory_eq_ok hm (hpasses.resolve hm hcs hne) fun bytes hfile => ?_
  rw [hextends.file_iff, hstart] at hfile
  exact h.no_file cs [] (List.append_nil cs).symm bytes hfile

/-- **What was made is there.** -/
theorem isDirectory_makeSteps (hlinks : t.links = []) {rev : List Path.Component} (hne : rev ≠ [])
    (hcs : AreComponents rev.reverse) (h : (t.makeSteps rev).2 = .ok ()) :
    (t.makeSteps rev).1.isDirectory (ofComponents rev.reverse) = true := by
  obtain ⟨last, before, rfl⟩ := List.exists_cons_of_ne_nil hne
  rcases t.makeSteps_cons last before with ⟨_, heq⟩ | ⟨m, hsteps, heq⟩ | ⟨m, e, _, heq⟩
  · rw [heq] at h ⊢
    exact isDirectory_ensureDirectory hlinks h
  · rw [List.reverse_cons] at hcs
    have hextends := (makes_makeSteps t before hcs.of_append).toExtends
    rw [hsteps] at hextends
    rw [heq] at h ⊢
    exact isDirectory_ensureDirectory (hextends.links.trans hlinks) h
  · rw [heq] at h
    simp at h

/-- The way to a directory is open. -/
theorem passes_of_isDirectory (hlinks : t.links = []) {cs : List Path.Component}
    (hcs : AreComponents cs) (hne : cs ≠ []) (h : t.isDirectory (ofComponents cs) = true) :
    t.Passes (t.startOf cs) cs ∧ t.get? (along (t.startOf cs) cs) = some .directory := by
  obtain ⟨q, hq, hdirectory⟩ := isDirectory_iff.1 h
  obtain ⟨_, hpasses, rfl, _⟩ := (resolve_eq_ok_iff hlinks).1 hq
  rw [hcs.components_ofComponents hne, start_ofComponents hcs hne] at hpasses hdirectory
  exact ⟨hpasses, hdirectory⟩

/-- With the directories in front made, the way to the last one is open. -/
theorem passes_of_makeSteps (hlinks : t.links = []) {last : Path.Component}
    {before : List Path.Component} (hcs : AreComponents (before.reverse ++ [last]))
    (h : t.makeSteps before = (m, .ok ()))
    (hstart : t.get? (t.startOf (before.reverse ++ [last])) = some .directory) :
    m.Passes (m.startOf (before.reverse ++ [last])) (before.reverse ++ [last]) := by
  by_cases hne : before = []
  · subst hne
    obtain ⟨rfl, _⟩ := Prod.mk.inj h
    exact ⟨hstart, trivial⟩
  · have hreverse : before.reverse ≠ [] := by simpa using hne
    have hmade := isDirectory_makeSteps hlinks hne hcs.of_append (by rw [h])
    have hextends := (makes_makeSteps t before hcs.of_append).toExtends
    rw [h] at hmade hextends
    obtain ⟨hpasses, hdirectory⟩ :=
      passes_of_isDirectory (hextends.links.trans hlinks) hcs.of_append hreverse hmade
    rw [startOf_append hreverse, passes_append]
    exact ⟨hpasses, hdirectory, trivial⟩

/-- **A clear way can be made.** -/
theorem Clear.makeSteps_eq_ok (hlinks : t.links = []) : ∀ rev : List Path.Component,
    AreComponents rev.reverse → t.Clear (t.startOf rev.reverse) rev.reverse →
      (t.makeSteps rev).2 = .ok ()
  | [], _, _ => rfl
  | last :: before, hcs, h => by
    have hsplit : (last :: before).reverse = before.reverse ++ [last] := List.reverse_cons
    have hne : before.reverse ++ [last] ≠ [] := by simp
    have hcases := t.makeSteps_cons last before
    rw [hsplit] at hcs h hcases
    rcases hcases with ⟨hmade, heq⟩ | ⟨m, hsteps, heq⟩ | ⟨m, e, hsteps, heq⟩
    · -- a clear way that is not open breaks off where nothing is
      have hopen : ∃ q, t.resolve (ofComponents (before.reverse ++ [last])) = .ok q := by
        cases hresolve : t.resolve (ofComponents (before.reverse ++ [last])) with
        | ok q => exact ⟨q, rfl⟩
        | error e =>
          rw [← hcs.components_ofComponents hne, startOf_components] at h
          obtain rfl := h.eq_notFound hlinks hresolve
          exact absurd (by rw [makeDirectory, resolveEntry_eq_resolve hlinks, hresolve]; rfl) hmade
      obtain ⟨q, hq⟩ := hopen
      obtain ⟨_, hpasses, _⟩ := (resolve_eq_ok_iff hlinks).1 hq
      rw [hcs.components_ofComponents hne, start_ofComponents hcs hne] at hpasses
      rw [heq]
      exact h.ensureDirectory_eq_ok hlinks hcs hne (Extends.refl t) hpasses
    · have hextends := (makes_makeSteps t before hcs.of_append).toExtends
      rw [hsteps] at hextends
      rw [heq]
      exact h.ensureDirectory_eq_ok hlinks hcs hne hextends
        (passes_of_makeSteps hlinks hcs hsteps h.start)
    · by_cases hbefore : before = []
      · subst hbefore
        simp [makeSteps] at hsteps
      · rw [startOf_append (by simpa using hbefore)] at h
        have hok := makeSteps_eq_ok hlinks before hcs.of_append h.of_append
        rw [hsteps] at hok
        simp at hok

/-- **Directories can be made on a way exactly when it is clear.** -/
theorem makeSteps_eq_ok_iff (hlinks : t.links = []) {rev : List Path.Component} (hne : rev ≠ [])
    (hcs : AreComponents rev.reverse) :
    (t.makeSteps rev).2 = .ok () ↔ t.Clear (t.startOf rev.reverse) rev.reverse := by
  refine ⟨fun h => ?_, Clear.makeSteps_eq_ok hlinks rev hcs⟩
  have hreverse : rev.reverse ≠ [] := by simpa using hne
  have hmakes := makes_makeSteps t rev hcs
  obtain ⟨hpasses, hend⟩ := passes_of_isDirectory (hmakes.links.trans hlinks) hcs hreverse
    (isDirectory_makeSteps hlinks hne hcs h)
  rw [startOf, hmakes.workingDirectory, ← startOf] at hpasses hend
  have hthere : ∀ before after, rev.reverse = before ++ after →
      FileTree.get? (t.makeSteps rev).1 (along (t.startOf rev.reverse) before)
        = some .directory := by
    intro before after hsplit
    by_cases hafter : after = []
    · rw [hafter, List.append_nil] at hsplit
      rwa [← hsplit]
    · exact hpasses.get?_along hsplit hafter
  constructor
  · rcases hmakes.same_or_new (t.startOf rev.reverse) with hsame | hnew
    · rw [← hsame]
      exact hthere [] _ rfl
    · exact (hmakes.onTheWay _ hnew).1
  · intro before after hsplit bytes hfile
    rw [← hmakes.file_iff, hthere before after hsplit] at hfile
    simp at hfile

theorem makeDirectories_eq_ok_iff (hlinks : t.links = []) {p : Path} (hne : p.components ≠ []) :
    (t.makeDirectories p).2 = .ok () ↔ t.Clear (t.start p) p.components := by
  have hmake := makeSteps_eq_ok_iff hlinks (List.reverse_ne_nil_iff.2 hne)
  rw [List.reverse_reverse, startOf_components] at hmake
  exact hmake (areComponents_components p)

/-! ## Moving the temporary file -/

/-- **A file can be moved to where a path leads**, unless a directory is there. -/
theorem rename_of_resolve (hlinks : s.links = []) {source : Place} {p : Path} {q : Place}
    {name : String} {bytes : ByteArray} (hq : s.resolve p = .ok q)
    (hnot : s.get? q ≠ some .directory) (hname : p.components.getLast? = some (.name name))
    (hsource : s.get? source = some (.file bytes)) :
    s.rename source p = .ok ((s.erase source).set q (.file bytes)) := by
  obtain ⟨htext, _, _, hend⟩ := (resolve_eq_ok_iff hlinks).1 hq
  obtain ⟨last, hlast, hread⟩ := hend.resolve_right hnot
  obtain ⟨c, hc⟩ := Option.isSome_iff_exists.1 hread
  obtain rfl : c = .name name := Option.some.inj ((getLast?_components hlast hc).symm.trans hname)
  obtain ⟨directory, hway, hthere, rfl⟩ := exists_way_of_resolve hlinks hq hlast
  obtain ⟨hne, hdot, hdots, rfl⟩ := Component.ofPiece?_eq_name_iff.1 hc
  have hplace : ((Component.ofPiece? last).map (·.from directory)).getD directory
      = directory ++ [String.ofList last] := by rw [hc]; rfl
  rw [hplace] at hnot ⊢
  have hslash : p.text.toList.getLast? ≠ some '/' := fun hslash =>
    hne (Option.some.inj (hlast.symm.trans (getLast?_pieces_of_slash hslash)))
  have hresolveLast : s.resolveLast p = .ok (directory, last) := by
    rw [resolveLast]
    simp only [dropWhile_pieces hlast hne, hlast]
    rw [if_neg (by simpa using htext), follow_eq_foldlM hlinks, hway]
    simp only [bind, Except.bind, hthere]
    rfl
  rw [rename, hresolveLast]
  simp only [bind, Except.bind, hdot, hdots, hslash, hsource, decide_false, Bool.or_false,
    Bool.false_eq_true, if_false]
  cases hentry : s.get? (directory ++ [String.ofList last]) with
  | none => rfl
  | some entry =>
    cases entry with
    | directory => exact absurd hentry hnot
    | file => rfl

/-! ## A whole replacement -/

/-- **A path can be written to**: no file is in the way, and no directory is or will be at its
end. -/
structure Writable (t : FileTree) (p : Path) : Prop where
  clear : t.Clear (t.start p) p.components.dropLast
  endsInStep : p.EndsInStep
  no_directory : t.get? (along (t.start p) p.components) ≠ some .directory
  /-- The way does not pass its own end, where a directory would be made. -/
  no_return : ∀ before after, p.components = before ++ after → after ≠ [] →
    along (t.start p) before ≠ along (t.start p) p.components

theorem MakesWayTo.writable (hlinks : t.links = []) {p : Path} {q : Place} (h : t.MakesWayTo p m)
    (hq : m.resolve p = .ok q) (hnot : m.get? q ≠ some .directory) : t.Writable p := by
  obtain ⟨htext, hpasses, rfl, hend⟩ := (resolve_eq_ok_iff (h.links.trans hlinks)).1 hq
  rw [start_congr h.workingDirectory] at hpasses hnot
  refine ⟨⟨?_, fun before after hsplit bytes hfile => ?_⟩, hend.resolve_right ?_,
    fun hdirectory => ?_, fun before after hsplit hne heq => ?_⟩
  · rcases h.same_or_new (t.start p) with hsame | hnew
    · rw [← hsame]
      exact hpasses.get?_start fun hnil => absurd hnil (components_ne_nil htext)
    · exact (h.onTheWay _ hnew).1
  · obtain ⟨front, last, hcs⟩ :=
      (List.eq_nil_or_concat' p.components).resolve_left (components_ne_nil htext)
    rw [hcs, List.dropLast_concat] at hsplit
    rw [hsplit, List.append_assoc] at hcs
    rw [← h.file_iff, hpasses.get?_along hcs (by simp)] at hfile
    simp at hfile
  · rwa [start_congr h.workingDirectory]
  · exact hnot (h.directory hdirectory)
  · exact hnot (heq ▸ hpasses.get?_along hsplit hne)

/-- **Once its way is made, a path that can be written to leads to a place for a file.** -/
theorem Writable.exists_resolve (ht : t.Plain) {p : Path} (h : t.Writable p)
    (hmakes : t.MakesWayTo p m) (hpasses : m.Passes (t.start p) p.components) :
    ∃ q, m.resolve p = .ok q ∧ m.get? q ≠ some .directory := by
  have htext : p.text ≠ "" := by
    intro hempty
    obtain ⟨last, hlast, hread⟩ := h.endsInStep
    rw [pieces, hempty] at hlast
    obtain rfl : [] = last := Option.some.inj hlast
    simp [Component.ofPiece?] at hread
  refine ⟨_, (resolve_eq_ok_iff (hmakes.plain ht).no_links).2
    ⟨htext, ?_, rfl, .inl h.endsInStep⟩, ?_⟩
  · rwa [start_congr hmakes.workingDirectory]
  · rw [start_congr hmakes.workingDirectory]
    rcases hmakes.same_or_new (along (t.start p) p.components) with hsame | hnew
    · rw [hsame]
      exact h.no_directory
    · obtain ⟨_, before, after, hcs, hne, hplace⟩ := hmakes.along_of_isNew ht hnew
      exact absurd hplace.symm (h.no_return before after hcs hne)

theorem runSteps_cons_eq_ok_iff {step : Step} {rest : List Step} :
    (s.runSteps (step :: rest)).2 = .ok () ↔
      (step s).2 = .ok () ∧ ((step s).1.runSteps rest).2 = .ok () := by
  rw [runSteps]
  generalize step s = result
  obtain ⟨s', _ | _⟩ := result
  · simp
  · exact (and_iff_right rfl).symm

/-- **The steps of a replacement succeed** when none fails from outside and the file can be
moved. -/
theorem runSteps_replacementSteps_eq_ok_iff {faults : Faults} {p : Path} {bytes : ByteArray} :
    (m.runSteps (replacementSteps faults p bytes temporary)).2 = .ok () ↔
      (∀ step, step ≠ .makeDirectory → faults.error? step = none) ∧
      ∃ final, FileTree.rename ((m.set temporary (.file .empty)).set temporary (.file bytes))
        temporary p = .ok final := by
  have hfault : ∀ step e, step ≠ .makeDirectory → faults.error? step = some e →
      ¬∀ step, step ≠ .makeDirectory → faults.error? step = none := by
    intro step e hstep he hnone
    simp [hnone step hstep] at he
  rw [replacementSteps, runSteps_cons_eq_ok_iff]
  cases hcreate : faults.error? .create with
  | some e => exact iff_of_false (by simp) fun h => hfault .create e (by simp) hcreate h.1
  | none =>
    rw [and_iff_right rfl, runSteps_cons_eq_ok_iff]
    cases hwrite : faults.error? .write with
    | some e => exact iff_of_false (by simp) fun h => hfault .write e (by simp) hwrite h.1
    | none =>
      rw [and_iff_right rfl, runSteps_cons_eq_ok_iff]
      cases hsynchronize : faults.error? .synchronize with
      | some e =>
        exact iff_of_false (by simp) fun h => hfault .synchronize e (by simp) hsynchronize h.1
      | none =>
        rw [and_iff_right rfl, runSteps_cons_eq_ok_iff]
        cases hrename : faults.error? .rename with
        | some e => exact iff_of_false (by simp) fun h => hfault .rename e (by simp) hrename h.1
        | none =>
          have hnone : ∀ step, step ≠ .makeDirectory → faults.error? step = none := by
            rintro (_ | _ | _ | _ | _) hstep <;> simp_all
          rw [and_iff_right hnone]
          dsimp only
          cases hmoved : FileTree.rename
              ((m.set temporary (.file .empty)).set temporary (.file bytes)) temporary p with
          | error e => exact iff_of_false (by simp) (by simp)
          | ok final => exact iff_of_true ⟨rfl, rfl⟩ ⟨final, rfl⟩

/-- **Only a directory keeps a file from being put** where a path leads. -/
theorem exists_rename_iff (hm : m.Plain) {p : Path} (haside : m.IsTemporary p temporary)
    (hs : m.Pending temporary s) {bytes : ByteArray}
    (hbytes : s.get? temporary = some (.file bytes)) :
    (∃ final, s.rename temporary p = .ok final) ↔
      ∃ q, m.resolve p = .ok q ∧ m.get? q ≠ some .directory := by
  constructor
  · rintro ⟨final, hfinal⟩
    obtain ⟨q, hq, hreplaced⟩ := hs.isReplaced haside hbytes hfinal
    rw [resolveEntry_eq_resolve hm.no_links] at hq
    exact ⟨q, hq, hreplaced.not_directory⟩
  · rintro ⟨q, hq, hnot⟩
    obtain ⟨_, name, _, _, hname⟩ := hm.exists_name_of_resolve hq hnot
    have hresolve := (hs.resolve_eq_ok_iff haside.free).2 hq
    exact ⟨_, rename_of_resolve (hs.links.trans hm.no_links) hresolve
      (mt (hs.directory_iff haside.free q).1 hnot) hname hbytes⟩

/-- **The directory of a path can be made** when the way to it is clear. -/
theorem makeDirectoryOf_eq_ok_iff (hlinks : t.links = []) {faults : Faults} {p : Path} :
    (makeDirectoryOf faults p t).2 = .ok () ↔ faults.error? .makeDirectory = none ∧
      t.Clear (t.start (directoryOf p)) (directoryOf p).components := by
  rw [makeDirectoryOf]
  cases faults.error? .makeDirectory with
  | some e => simp
  | none =>
    rw [and_iff_right rfl]
    exact makeDirectories_eq_ok_iff hlinks (components_directoryOf p).1

/-- What was made for the directory of a path is there. -/
theorem isDirectory_makeDirectoryOf (hlinks : t.links = []) {faults : Faults} {p : Path}
    (h : (makeDirectoryOf faults p t).2 = .ok ()) :
    (makeDirectoryOf faults p t).1.isDirectory (directoryOf p) = true := by
  obtain ⟨hne, hdirectory, -⟩ := components_directoryOf p
  rw [makeDirectoryOf] at h ⊢
  split at h
  · simp at h
  · have hmade := isDirectory_makeSteps hlinks (List.reverse_ne_nil_iff.2 hne)
      (by simpa using areComponents_components (directoryOf p)) h
    rwa [List.reverse_reverse, hdirectory] at hmade

/-- A path that can be written to has a clear way to its directory. -/
theorem Writable.clear_directoryOf {p : Path} (h : t.Writable p) :
    t.Clear (t.start (directoryOf p)) (directoryOf p).components := by
  have hclear := h.clear
  obtain ⟨-, -, ⟨hcurrent, hfront⟩ | ⟨last, hlast⟩⟩ := components_directoryOf p
  · -- the path is a single step from the working directory
    obtain ⟨c, hc, hstep⟩ := h.endsInStep.exists_components_eq
    rw [hfront] at hclear hc
    have hstart : t.start p = t.workingDirectory := by
      rw [← startOf_components, hc, startOf]
      refine if_neg ?_
      rintro ⟨⟩
      exact hstep
    rw [← startOf_components, hcurrent]
    rw [hstart] at hclear
    refine ⟨hclear.start, fun before after hsplit bytes => ?_⟩
    have hstill : along (t.startOf [.current]) before = t.workingDirectory := by
      rcases List.append_eq_singleton_iff.1 hsplit.symm with ⟨rfl, -⟩ | ⟨rfl, -⟩ <;> rfl
    rw [hstill, hclear.start]
    simp
  · rwa [← start_directoryOf hlast, hlast, List.dropLast_concat] at hclear

/-- Once its directory is made, a path that can be written to is open. -/
theorem Writable.passes (hlinks : t.links = []) {p : Path} (h : t.Writable p)
    (hmakes : t.MakesWayTo p m) (hmade : m.isDirectory (directoryOf p) = true) :
    m.Passes (t.start p) p.components := by
  obtain ⟨-, -, ⟨-, hfront⟩ | ⟨last, hlast⟩⟩ := components_directoryOf p
  · obtain ⟨c, hc, -⟩ := h.endsInStep.exists_components_eq
    rw [hc, hfront]
    exact ⟨hmakes.directory h.clear.start, trivial⟩
  · obtain ⟨q, hq, hthere⟩ := isDirectory_iff.1 hmade
    obtain ⟨_, hpasses, rfl, _⟩ := (resolve_eq_ok_iff (hmakes.links.trans hlinks)).1 hq
    rw [start_directoryOf hlast, start_congr hmakes.workingDirectory] at hpasses hthere
    rw [hlast, passes_append]
    exact ⟨hpasses, hthere, trivial⟩

theorem outcome_replaceFile_eq_ok_iff {faults : Faults} {p : Path} {bytes : ByteArray}
    (hmade : makeDirectoryOf faults p t = (m, .ok ())) {directory : Place}
    (hdirectory : m.resolve (directoryOf p) = .ok directory) :
    (replaceFile faults t p bytes).outcome = .ok () ↔
      (m.runSteps (replacementSteps faults p bytes (directory ++ [m.freshName p]))).2 = .ok () := by
  rw [replaceFile]
  simp only [hmade, hdirectory]
  generalize m.runSteps _ = result
  obtain ⟨states, e | _⟩ := result
  · exact iff_of_false (by simp) (by simp)
  · exact iff_of_true rfl rfl

/-- **A replacement succeeds** exactly when no step fails from outside and the path can be written
to. -/
theorem replaceFile_eq_ok_iff (ht : t.Plain) (faults : Faults) (p : Path) (bytes : ByteArray) :
    (replaceFile faults t p bytes).outcome = .ok () ↔
      (∀ step, faults.error? step = none) ∧ t.Writable p := by
  have hlinks := ht.no_links
  have hmakes := makesWayTo_makeDirectoryOf t faults p
  rcases hmade : makeDirectoryOf faults p t with ⟨m, e | _⟩
  · refine iff_of_false (by simp [replaceFile, hmade]) ?_
    rintro ⟨hnone, hwritable⟩
    have hok := (makeDirectoryOf_eq_ok_iff hlinks).2
      ⟨hnone .makeDirectory, hwritable.clear_directoryOf⟩
    simp [hmade] at hok
  · have hok : (makeDirectoryOf faults p t).2 = .ok () := by rw [hmade]
    have hthere := isDirectory_makeDirectoryOf hlinks hok
    have hfirst := ((makeDirectoryOf_eq_ok_iff hlinks).1 hok).1
    rw [hmade] at hmakes hthere
    obtain ⟨directory, hdirectory, -⟩ := isDirectory_iff.1 hthere
    have haside := isTemporary_freshName m p directory
    have hfree := haside.free
    have hpending := ((Pending.refl hfree).set_file hfree .empty).set_file hfree bytes
    rw [outcome_replaceFile_eq_ok_iff hmade hdirectory, runSteps_replacementSteps_eq_ok_iff,
      exists_rename_iff (hmakes.plain ht) haside hpending (get?_set_self _ hfree.ne_nil _)]
    constructor
    · rintro ⟨hlater, q, hq, hnot⟩
      refine ⟨fun step => ?_, hmakes.writable hlinks hq hnot⟩
      by_cases hstep : step = .makeDirectory
      · rw [hstep, hfirst]
      · exact hlater step hstep
    · rintro ⟨hnone, hwritable⟩
      exact ⟨fun step _ => hnone step,
        hwritable.exists_resolve ht hmakes (hwritable.passes hlinks hmakes hthere)⟩

end FileTree

end SwiftStyle
