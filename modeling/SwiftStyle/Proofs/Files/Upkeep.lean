import SwiftStyle.Proofs.Files.Replacement

/-!
# Proofs/Files/Upkeep — a tree that is written to stays a tree

Writing a file leaves new directories on the way to its path and, if it succeeds, the file at the
place that the path names (`IsWritten`).  As long as every place is listed once, being well formed
is a matter of what stands at the places (`Listed.wellFormed`), so a well-formed tree stays one
however a replacement ends (`isWritten_replaceFile`, `makesWayTo_replaceFile`).
-/

namespace SwiftStyle

namespace FileTree

open SwiftStyle.Path

variable {t m s final : FileTree} {place temporary : Place} {p : Path} {bytes : ByteArray}

/-! ## Lists of entries -/

/-- **Every place is listed once**, and the root is not listed. -/
structure Listed (t : FileTree) : Prop where
  no_root : ∀ e ∈ t.entries, e.1 ≠ []
  distinct : (t.entries.map (·.1)).Nodup

theorem WellFormed.listed (ht : t.WellFormed) : t.Listed :=
  ⟨fun e he => (ht.names e he).1, ht.distinct⟩

namespace Listed

theorem erase (h : t.Listed) (place : Place) : (t.erase place).Listed :=
  ⟨fun e he => h.no_root e (List.mem_filter.1 he).1,
    (List.filter_sublist.map _).nodup h.distinct⟩

theorem set (h : t.Listed) (hne : place ≠ []) (entry : Entry) : (t.set place entry).Listed := by
  obtain ⟨hroot, hdistinct⟩ := h.erase place
  refine ⟨List.forall_mem_cons.2 ⟨hne, hroot⟩, List.nodup_cons.2 ⟨fun hmem => ?_, hdistinct⟩⟩
  obtain ⟨e, he, heq⟩ := List.mem_map.1 hmem
  simp [heq] at he

/-- **What stands at the places decides** whether a tree is well formed. -/
theorem wellFormed (h : t.Listed) (hall : ∀ place entry, place ≠ [] → t.get? place = some entry →
    (∀ name ∈ place, IsName name) ∧ t.get? place.dropLast = some .directory)
    (hlinks : ∀ l ∈ t.links, t.get? l.1 = none ∧ t.get? l.1.dropLast = some .directory) :
    t.WellFormed := by
  have hget : ∀ e ∈ t.entries, t.get? e.1 = some e.2 := fun e he => by
    rw [get?, if_neg (h.no_root e he), lookup_of_mem h.distinct he]
  exact ⟨fun e he => ⟨h.no_root e he, (hall _ _ (h.no_root e he) (hget e he)).1⟩, h.distinct,
    fun e he => (hall _ _ (h.no_root e he) (hget e he)).2, hlinks⟩

theorem wellFormed_of_get?_eq (h : s.Listed) (hm : m.WellFormed)
    (hsame : ∀ place, s.get? place = m.get? place) (hlinks : s.links = m.links) :
    s.WellFormed := by
  refine h.wellFormed (fun place entry hne hentry => ?_) fun l hl => ?_
  · rw [hsame] at hentry ⊢
    exact ⟨hm.isName hentry, hm.parents _ (mem_of_get?_eq hne hentry)⟩
  · rw [hsame, hsame]
    exact hm.links l (hlinks ▸ hl)

end Listed

/-- **A file put at the place that a path names** keeps a tree well formed. -/
theorem IsReplaced.wellFormed (h : m.IsReplaced place bytes final) (hm : m.WellFormed)
    (hplace : m.resolveEntry p = .ok place) (hlisted : final.Listed) : final.WellFormed := by
  obtain ⟨parent, name, -, rfl, hparent, hname, -⟩ :=
    hm.exists_name_of_resolveEntry hplace h.not_directory
  have hdirectory := fun q => (h.directory_iff q).2
  refine hlisted.wellFormed (fun other entry hne hentry => ?_) fun l hl => ?_
  · by_cases hother : other = parent ++ [name]
    · subst hother
      rw [List.dropLast_concat]
      refine ⟨fun step hstep => ?_, hdirectory parent hparent⟩
      rcases List.mem_append.1 hstep with hstep | hstep
      · exact hm.isName hparent step hstep
      · rwa [List.mem_singleton.1 hstep]
    · rw [h.others other hother] at hentry
      exact ⟨hm.isName hentry, hdirectory _ (hm.parents _ (mem_of_get?_eq hne hentry))⟩
  · -- the link that gave way is gone
    rw [h.links] at hl
    obtain ⟨hl, hne⟩ := List.mem_filter.1 hl
    obtain ⟨hnone, hthere⟩ := hm.links l hl
    rw [h.others _ (by simpa using hne)]
    exact ⟨hnone, hdirectory _ hthere⟩

/-! ## Steps -/

/-- What every step keeps holds after each of them. -/
theorem forall_mem_runSteps {I : FileTree → Prop} {steps : List Step}
    (hsteps : ∀ step ∈ steps, ∀ s, I s → I (step s).1) (hm : I m) :
    ∀ s ∈ (m.runSteps steps).1, I s := by
  induction steps generalizing m with
  | nil => simp [runSteps]
  | cons step rest ih =>
    have hstep := hsteps step List.mem_cons_self m hm
    have hrest := fun s (hs : I s) =>
      ih (fun step hmem => hsteps step (List.mem_cons_of_mem _ hmem)) hs
    rw [runSteps]
    generalize step m = result at hstep ⊢
    obtain ⟨s, _ | _⟩ := result
    · exact List.forall_mem_singleton.2 hstep
    · exact List.forall_mem_cons.2 ⟨hstep, hrest s hstep⟩

theorem listed_of_mem_replacementSteps (hne : temporary ≠ []) {faults : Faults} {step : Step}
    (hstep : step ∈ replacementSteps faults p bytes temporary) (h : s.Listed) :
    (step s).1.Listed := by
  simp only [replacementSteps, List.mem_cons, List.not_mem_nil, or_false] at hstep
  rcases hstep with rfl | rfl | rfl | rfl
  · cases faults.error? .create with
    | some e => exact h
    | none => exact h.set hne _
  · cases faults.error? .write with
    | some e => exact h.set hne _
    | none => exact h.set hne _
  · cases faults.error? .synchronize with
    | some e => exact h
    | none => exact h
  · cases faults.error? .rename with
    | some e => exact h
    | none =>
      cases hrename : s.rename temporary p with
      | error e => simpa only [hrename] using h
      | ok final =>
        obtain ⟨directory, name, moved, -, -, -, -, rfl⟩ := rename_eq_ok hrename
        simpa only [hrename] using (h.erase temporary).set (by simp) _

theorem listed_replaceFile (ht : t.WellFormed) (faults : Faults) (p : Path) (bytes : ByteArray) :
    (replaceFile faults t p bytes).final.Listed := by
  have hmade := ((makesWayTo_makeDirectoryOf t faults p).wellFormed ht).listed
  rw [replaceFile]
  generalize makeDirectoryOf faults p t = made at hmade ⊢
  obtain ⟨m, _ | _⟩ := made
  · exact hmade
  · dsimp only
    cases m.resolve (directoryOf p) with
    | error e => exact hmade
    | ok directory =>
      dsimp only
      have hkeep : ∀ step ∈ replacementSteps faults p bytes (directory ++ [m.freshName p]),
          ∀ s, s.Listed → (step s).1.Listed :=
        fun step hstep s => listed_of_mem_replacementSteps (by simp) hstep
      have hsteps := forall_mem_runSteps hkeep hmade
      generalize m.runSteps _ = result at hsteps ⊢
      obtain ⟨states, outcome⟩ := result
      have hlast : (states.getLast?.getD m).Listed := by
        cases hlast : states.getLast? with
        | none => exact hmade
        | some s => exact hsteps s (List.mem_of_getLast? hlast)
      cases outcome with
      | error e => exact hlast.erase _
      | ok _ => exact hlast

/-! ## A whole writing -/

/-- **A file was written** at the end of a path: directories were made on the way, then it was put
at the place that the path names. -/
inductive IsWritten (t : FileTree) (p : Path) (place : Place) (bytes : ByteArray)
    (final : FileTree) : Prop
  | intro (m : FileTree) (made : m = t.withWayTo p) (way : t.MakesWayTo p m)
      (named : m.resolveEntry p = .ok place)
      (replaced : m.IsReplaced place bytes final) (wellFormed : t.WellFormed → final.WellFormed)

namespace IsWritten

theorem wellFormed (h : t.IsWritten p place bytes final) (ht : t.WellFormed) :
    final.WellFormed := by
  obtain ⟨_, -, -, -, -, hwellFormed⟩ := h
  exact hwellFormed ht

theorem workingDirectory (h : t.IsWritten p place bytes final) :
    final.workingDirectory = t.workingDirectory := by
  obtain ⟨m, -, hway, -, hreplaced, -⟩ := h
  exact hreplaced.workingDirectory.trans hway.workingDirectory

/-- **Every other file and link is as it was.** -/
theorem agreesAt (h : t.IsWritten p place bytes final) {other : Place} (hother : other ≠ place) :
    final.AgreesAt t other := by
  obtain ⟨m, -, hway, -, hreplaced, -⟩ := h
  exact hreplaced.agreesAt hway.toExtends hother

theorem directory (h : t.IsWritten p place bytes final) {other : Place}
    (hother : t.get? other = some .directory) : final.get? other = some .directory := by
  obtain ⟨m, -, hway, -, hreplaced, -⟩ := h
  exact (hreplaced.directory_iff other).2 (hway.directory hother)

/-- **New directories** are those that were made on the way. -/
theorem onTheWay (h : t.IsWritten p place bytes final) :
    ∃ m, t.MakesWayTo p m ∧ ∀ other, t.IsNew final other → t.IsNew m other := by
  obtain ⟨m, -, hway, -, hreplaced, -⟩ := h
  exact ⟨m, hway, fun other hnew => ⟨hnew.1, (hreplaced.directory_iff other).1 hnew.2⟩⟩

end IsWritten

/-- **A replacement that fails** leaves directories on the way to its path, and nothing else. -/
theorem makesWayTo_replaceFile {faults : Faults} {e : FileError}
    (h : (replaceFile faults t p bytes).outcome = .error e) :
    t.MakesWayTo p (replaceFile faults t p bytes).final := by
  have hlisted := fun ht => listed_replaceFile (t := t) ht faults p bytes
  have hproceeds := proceeds_replaceFile t faults p bytes
  generalize replaceFile faults t p bytes = w at h hlisted hproceeds ⊢
  cases hproceeds with
  | done => simp at h
  | @undone m temporary states final e way aside pending seen last dropped =>
    have hsame : ∀ place, final.get? place = m.get? place := fun place => by
      by_cases hplace : place = temporary
      · rw [hplace, dropped, aside.free.1]
      · exact last.others place hplace
    have hdirectory : ∀ place, m.get? place = some .directory →
        final.get? place = some .directory := fun place hplace => (hsame place).trans hplace
    refine ⟨⟨last.workingDirectory.trans way.workingDirectory, last.links.trans way.links,
      fun place => ?_⟩, fun ht => ?_, fun place hnew => ?_⟩
    · rw [IsNew, hsame]
      exact way.same_or_new place
    · exact (hlisted ht).wellFormed_of_get?_eq (way.wellFormed ht) hsame last.links
    · obtain ⟨hstart, before, after, hsplit, hbefore, hafter, hentry⟩ :=
        way.onTheWay place ⟨hnew.1, hsame place ▸ hnew.2⟩
      exact ⟨hstart, before, after, hsplit, hbefore, hafter,
        resolveEntry_mono last.workingDirectory (link?_congr last.links) hdirectory hentry⟩

/-- **A replacement that succeeds** has written its file. -/
theorem isWritten_replaceFile {faults : Faults}
    (h : (replaceFile faults t p bytes).outcome = .ok ()) :
    ∃ place, t.IsWritten p place bytes (replaceFile faults t p bytes).final := by
  have hlisted := fun ht => listed_replaceFile (t := t) ht faults p bytes
  have hproceeds := proceeds_replaceFile t faults p bytes
  generalize replaceFile faults t p bytes = w at h hlisted hproceeds ⊢
  cases hproceeds with
  | undone => simp at h
  | @done m temporary states final place made way aside pending seen named replaced =>
    exact ⟨place, m, made, way, named, replaced, fun ht =>
      replaced.wellFormed (way.wellFormed ht) named (hlisted ht)⟩

/-- **Writing in place** writes the file where the path leads, unless a directory is there. -/
theorem write_eq_ok (h : t.write p bytes = .ok final) :
    ∃ place, t.resolve p = .ok place ∧ final = t.set place (.file bytes) ∧
      t.IsReplaced place bytes final ∧ (t.WellFormed → final.WellFormed) := by
  rw [write] at h
  obtain ⟨place, hplace, h⟩ := bind_eq_ok_iff.1 h
  split at h
  · exact absurd h throw_ne_ok
  · next hnot =>
    obtain rfl := Except.ok.inj h
    have hne : place ≠ [] := by
      rintro rfl
      exact hnot (by simp)
    refine ⟨place, hplace, rfl, ⟨rfl, rfl, hnot, get?_set_self t hne _, fun other hother =>
      get?_set_ne t hother _⟩, fun ht => ?_⟩
    obtain ⟨parent, name, rfl, hparent, hname, -⟩ := ht.exists_name_of_resolve hplace hnot
    exact ht.set hparent hname hnot _

end FileTree

end SwiftStyle
