import SwiftStyle.Proofs.Files.Directories

/-!
# Proofs/Files/Replacement — what can be seen while a file is replaced

Until the last step a tree differs from the one with its directories made in the temporary file
alone (`Pending`), and nothing of the path leads there, because no step has its name
(`IsTemporary`).  The last step puts the file at the place that the path names and changes nothing
else (`IsReplaced`); a link there gives way.  When a step fails the temporary file is dropped and
everything is as it was (`proceeds_replaceFile`).  What a reader sees of this is all or nothing
(`isAtomic_replaceFile`), unless the path goes over the very link that gives way (`CutsOff`).
-/

namespace SwiftStyle

namespace FileTree

open SwiftStyle.Path

variable {t m s : FileTree} {temporary : Place}

/-! ## A name of its own -/

theorem length_le_longestName {places : List Place} {place : Place} {name : String}
    (h : place ++ [name] ∈ places) : name.length ≤ longestName places := by
  have hle := (le_foldl_max (fun p : Place => (p.getLast?.map String.length).getD 0) places 0).2 _ h
  simpa [longestName] using hle

theorem lt_length_freshName (t : FileTree) (p : Path) :
    longestName (t.entries.map (·.1) ++ t.links.map (·.1)) < (t.freshName p).length ∧
      p.text.length < (t.freshName p).length ∧
      ∀ l ∈ t.links, l.2.text.length < (t.freshName p).length := by
  obtain ⟨hfirst, hall⟩ := le_foldl_max (fun l : Place × Path => l.2.text.length) t.links
    (max (longestName (t.entries.map (·.1) ++ t.links.map (·.1))) p.text.length)
  have htmp : ".tmp".length = 4 := rfl
  rw [freshName, String.length_pushn]
  refine ⟨by omega, by omega, fun l hl => ?_⟩
  have hle := hall l hl
  omega

/-- **A place for a temporary file**: nothing is there, and its name is longer than the path and
than the path of any link, so that no step has this name. -/
structure IsTemporary (m : FileTree) (p : Path) (temporary : Place) : Prop where
  free : m.IsFree temporary
  longer : ∀ directory name, directory ++ [name] = temporary →
    p.text.length < name.length ∧ ∀ l ∈ m.links, l.2.text.length < name.length

/-- **The temporary name is free**, and no step has it. -/
theorem isTemporary_freshName (t : FileTree) (p : Path) (directory : Place) :
    t.IsTemporary p (directory ++ [t.freshName p]) := by
  obtain ⟨hlongest, hlonger⟩ := t.lt_length_freshName p
  have hplaces : directory ++ [t.freshName p] ∉ t.entries.map (·.1) ++ t.links.map (·.1) :=
    fun hmem => Nat.not_lt.2 (length_le_longestName hmem) hlongest
  rw [List.mem_append, not_or] at hplaces
  refine ⟨⟨?_, ?_⟩, fun other name heq => ?_⟩
  · by_contra hsome
    obtain ⟨entry, hentry⟩ := Option.ne_none_iff_exists'.1 hsome
    exact hplaces.1 (List.mem_map_of_mem (mem_of_get?_eq (by simp) hentry))
  · by_contra hsome
    obtain ⟨target, htarget⟩ := Option.ne_none_iff_exists'.1 hsome
    exact hplaces.2 (List.mem_map_of_mem (mem_of_lookup htarget))
  · obtain rfl := (List.cons.inj (List.append_inj' heq rfl).2).1
    exact hlonger

/-- **The path does not lead to the temporary file.** -/
theorem IsTemporary.ne_of_resolve {p : Path} (h : m.IsTemporary p temporary) (hm : m.WellFormed)
    {q : Place} (hq : m.resolve p = .ok q) : q ≠ temporary := by
  rintro rfl
  obtain ⟨place, name, heq, _, _, hsource⟩ := hm.exists_name_of_resolve hq (by simp [h.free.1])
  obtain ⟨hpath, hlinks⟩ := h.longer place name heq.symm
  rcases hsource with hname | ⟨l, hl, hname⟩
  · exact Nat.not_lt.2 (length_le_of_mem_pieces hname) hpath
  · exact Nat.not_lt.2 (length_le_of_mem_pieces hname) (hlinks l hl)

/-! ## Between the steps -/

/-- **Between the steps** a tree is what it was, but for the temporary file. -/
structure Pending (m : FileTree) (temporary : Place) (s : FileTree) : Prop where
  workingDirectory : s.workingDirectory = m.workingDirectory
  links : s.links = m.links
  others : ∀ place, place ≠ temporary → s.get? place = m.get? place
  not_directory : s.get? temporary ≠ some .directory

namespace Pending

theorem refl (hfree : m.IsFree temporary) : m.Pending temporary m :=
  ⟨rfl, rfl, fun _ _ => rfl, by simp [hfree.1]⟩

section Free

variable (hfree : m.IsFree temporary) (h : m.Pending temporary s)
include hfree h

theorem filter_links : s.links.filter (·.1 != temporary) = m.links := by
  rw [h.links, FileTree.filter_links hfree.2]

theorem set_file (bytes : ByteArray) : m.Pending temporary (s.set temporary (.file bytes)) :=
  ⟨h.workingDirectory, h.filter_links hfree,
    fun place hplace => (get?_set_ne s hplace _).trans (h.others place hplace),
    by simp [get?_set_self s hfree.ne_nil]⟩

theorem erase : m.Pending temporary (s.erase temporary) :=
  ⟨h.workingDirectory, h.filter_links hfree,
    fun place hplace => (get?_erase_ne s hplace).trans (h.others place hplace),
    by simp [get?_erase_self s hfree.ne_nil]⟩

theorem directory_iff (place : Place) :
    s.get? place = some .directory ↔ m.get? place = some .directory := by
  by_cases hplace : place = temporary
  · subst hplace
    exact iff_of_false h.not_directory (by simp [hfree.1])
  · rw [h.others place hplace]

/-- **A path leads where it led.** -/
theorem resolve_eq_ok_iff {p : Path} {q : Place} : s.resolve p = .ok q ↔ m.resolve p = .ok q :=
  resolve_congr h.workingDirectory (link?_congr h.links) (h.directory_iff hfree)

/-- **A path that leads elsewhere does not see the temporary file.** -/
theorem entry?_eq {p : Path} (haside : ∀ q, m.resolve p = .ok q → q ≠ temporary) :
    s.entry? p = m.entry? p :=
  entry?_congr h.workingDirectory (link?_congr h.links) (h.directory_iff hfree) fun q hq =>
    h.others q (haside q hq)

end Free

end Pending

/-- **A file was put in its place**, and nothing else was changed; a link there gave way. -/
structure IsReplaced (m : FileTree) (place : Place) (bytes : ByteArray) (final : FileTree) : Prop
    where
  workingDirectory : final.workingDirectory = m.workingDirectory
  links : final.links = m.links.filter (·.1 != place)
  not_directory : m.get? place ≠ some .directory
  self : final.get? place = some (.file bytes)
  others : ∀ other, other ≠ place → final.get? other = m.get? other

/-! ## A link that gives way -/

/-- **The way over a link is cut off** when a file takes the place of the link: the path names the
place of a link and goes over this very link to it. -/
def CutsOff (m : FileTree) (p : Path) : Prop :=
  ∃ place, m.resolveEntry p = .ok place ∧ m.link? place ≠ none ∧
    (m.erase place).resolveEntry p ≠ .ok place

theorem not_cutsOff_of_links (hlinks : m.links = []) (p : Path) : ¬m.CutsOff p := by
  rintro ⟨place, -, hlink, -⟩
  exact hlink (link?_eq_none_of_links hlinks place)

section IsReplaced

variable {place : Place} {bytes : ByteArray} {final : FileTree}
  (h : m.IsReplaced place bytes final)
include h

theorem IsReplaced.directory_iff (other : Place) :
    final.get? other = some .directory ↔ m.get? other = some .directory := by
  by_cases hother : other = place
  · subst hother
    exact iff_of_false (by simp [h.self]) h.not_directory
  · rw [h.others other hother]

theorem IsReplaced.link?_self : final.link? place = none := by
  rw [link?, h.links, lookup_filter_self]

theorem IsReplaced.link?_ne {other : Place} (hother : other ≠ place) :
    final.link? other = m.link? other := by
  rw [link?, link?, h.links, lookup_filter_ne m.links hother]

/-- Steps lead where they led, or they run into the file. -/
theorem IsReplaced.leads_or {links : Nat} {start directory : Place} {pieces : List (List Char)}
    (hway : m.Leads links start pieces directory) {after : List (List Char)} (hafter : after ≠ []) :
    final.Leads links start pieces directory ∨
      ∀ more q, ¬final.Leads more start (pieces ++ after) q := by
  have hstep : ∀ {place next piece}, m.step place piece = .ok next →
      final.step place piece = .ok next := fun taken => by
    rw [step_eq_ok_iff] at taken ⊢
    exact taken.imp_left (h.directory_iff _).2
  induction hway with
  | nil => exact .inl .nil
  | @step _ _ next _ _ _ taken free _ ih =>
    have hfree : final.link? next = none := by
      by_cases hnext : next = place
      · rw [hnext, h.link?_self]
      · rw [h.link?_ne hnext, free]
    refine ih.imp (.step (hstep taken) hfree) fun hnowhere more q => ?_
    rw [List.cons_append, leads_cons_of_free (hstep taken) hfree]
    exact hnowhere more q
  | @link _ _ next _ _ rest target taken found _ ih =>
    by_cases hnext : next = place
    · -- where the link was the file is now, and no step starts from there
      subst hnext
      refine .inr fun more q => ?_
      rw [List.cons_append, leads_cons_of_free (hstep taken) h.link?_self]
      intro hway
      have hthere := hway.get?_start (by simp [hafter])
      rw [h.self] at hthere
      cases hthere
    · have hfound := (h.link?_ne hnext).trans found
      refine ih.imp (.link (hstep taken) hfound) fun hnowhere more q => ?_
      rw [List.cons_append, leads_cons_of_link (hstep taken) hfound]
      rintro ⟨fewer, -, hway⟩
      rw [← List.append_assoc] at hway
      exact hnowhere fewer q hway

/-- The path names the place of the file as it would without what was there. -/
theorem IsReplaced.resolveEntry_iff {p : Path} :
    final.resolveEntry p = .ok place ↔ (m.erase place).resolveEntry p = .ok place := by
  have hworking : final.workingDirectory = (m.erase place).workingDirectory := h.workingDirectory
  have hlinks : final.links = (m.erase place).links := h.links
  refine resolveEntry_congr hworking (link?_congr hlinks) fun other => ?_
  by_cases hother : other = place
  · subst hother
    exact iff_of_false (by simp [h.self])
      (by simp [get?_erase_self m (ne_nil_of_not_directory h.not_directory)])
  · rw [h.others other hother, get?_erase_ne m hother]

/-- **The path leads to the file**, or it is cut off and leads nowhere. -/
theorem IsReplaced.resolve_or {p : Path} (hp : m.resolveEntry p = .ok place) :
    final.resolve p = .ok place ∧ ¬m.CutsOff p ∨ (∀ q, final.resolve p ≠ .ok q) ∧ m.CutsOff p := by
  obtain ⟨last, hlast⟩ := exists_getLast?_pieces p
  obtain ⟨before, hbefore⟩ := List.getLast?_eq_some_iff.1 hlast
  obtain ⟨htext, directory, hway, hstep⟩ := (resolveEntry_eq_ok_iff hlast).1 hp
  have hresolve : final.resolveEntry p = .ok place → final.resolve p = .ok place := fun hentry =>
    resolve_of_resolveEntry hentry h.link?_self
  rcases h.leads_or hway (List.cons_ne_nil last []) with hway' | hnowhere
  · have hentry : final.resolveEntry p = .ok place := by
      rw [resolveEntry_eq_ok_iff hlast, start_congr h.workingDirectory]
      rw [step_eq_ok_iff] at hstep
      exact ⟨htext, directory, hway',
        step_eq_ok_iff.2 (hstep.imp_left (h.directory_iff _).2)⟩
    refine .inl ⟨hresolve hentry, ?_⟩
    rintro ⟨other, hother, -, hcut⟩
    obtain rfl := Except.ok.inj (hp.symm.trans hother)
    exact hcut (h.resolveEntry_iff.1 hentry)
  · have hnot : ∀ q, final.resolve p ≠ .ok q := fun q hq => by
      rw [resolve_eq_ok_iff_leads, start_congr h.workingDirectory] at hq
      rw [hbefore, List.dropLast_concat] at hnowhere
      exact hnowhere _ q (hbefore ▸ hq.2)
    refine .inr ⟨hnot, place, hp, fun hlink => ?_, fun hentry => ?_⟩
    · have hlinks : final.links = m.links := h.links.trans (filter_links hlink)
      exact hnot place (hresolve (resolveEntry_mono h.workingDirectory (link?_congr hlinks)
        (fun other => (h.directory_iff other).2) hp))
    · exact hnot place (hresolve (h.resolveEntry_iff.2 hentry))

end IsReplaced

/-! ## Moving the temporary file -/

/-- Only after a separator there is nothing at the end of a path. -/
theorem getLast?_pieces_ne_nil {p : Path} (htext : p.text ≠ "")
    (h : p.text.toList.getLast? ≠ some '/') : p.pieces.getLast? ≠ some [] := by
  intro hlast
  rcases Text.getLast?_of_getLast?_splitAt hlast with hnil | ⟨c, hc, hslash⟩
  · exact toList_ne (b := "") htext hnil
  · rw [beq_iff_eq.1 hslash] at hc
    exact h hc

theorem dropWhile_pieces {p : Path} {last : List Char} (hlast : p.pieces.getLast? = some last)
    (hne : last ≠ []) : (p.pieces.reverse.dropWhile (·.isEmpty)).reverse = p.pieces := by
  obtain ⟨before, hbefore⟩ := List.getLast?_eq_some_iff.1 hlast
  rw [hbefore]
  simp [hne]

/-- **The last step of a path**: the others lead to a directory. -/
theorem resolveLast_eq_ok {p : Path} {directory : Place} {last : List Char}
    (h : s.resolveLast p = .ok (directory, last)) (hslash : p.text.toList.getLast? ≠ some '/') :
    p.text ≠ "" ∧ p.pieces.getLast? = some last ∧ last ≠ [] ∧
      s.Leads maxLinks (s.start p) p.pieces.dropLast directory ∧
      s.get? directory = some .directory := by
  by_cases htext : p.text = ""
  · rw [resolveLast, htext] at h
    obtain ⟨_, h, _⟩ := bind_eq_ok_iff.1 h
    exact absurd h throw_ne_ok
  · have hne := getLast?_pieces_ne_nil htext hslash
    obtain ⟨l, hl⟩ := exists_getLast?_pieces p
    have hlne : l ≠ [] := fun hnil => hne (hnil ▸ hl)
    rw [resolveLast] at h
    simp only [dropWhile_pieces hl hlne, hl] at h
    rw [if_neg (by simpa using htext)] at h
    obtain ⟨d, hd, h⟩ := bind_eq_ok_iff.1 h
    split at h
    · exact absurd h throw_ne_ok
    · exact absurd h throw_ne_ok
    · next hdirectory =>
      obtain ⟨rfl, rfl⟩ := Prod.mk.inj (Except.ok.inj h)
      exact ⟨htext, hl, hlne, follow_eq_ok_iff.1 hd, hdirectory⟩

/-- **Moving a file puts it at the place that the path names.** -/
theorem rename_eq_ok {source : Place} {p : Path} {final : FileTree}
    (h : s.rename source p = .ok final) :
    ∃ directory name bytes, s.resolveEntry p = .ok (directory ++ [name]) ∧
      name.length ≤ p.text.length ∧ s.get? (directory ++ [name]) ≠ some .directory ∧
      s.get? source = some (.file bytes) ∧
      final = (s.erase source).set (directory ++ [name]) (.file bytes) := by
  rw [rename] at h
  obtain ⟨⟨directory, last⟩, hlast, h⟩ := bind_eq_ok_iff.1 h
  dsimp only at h
  split at h
  · obtain ⟨_, h, _⟩ := bind_eq_ok_iff.1 h
    exact absurd h throw_ne_ok
  · next hdots =>
    split at h
    · obtain ⟨_, h, _⟩ := bind_eq_ok_iff.1 h
      exact absurd h throw_ne_ok
    · next hslash =>
      obtain ⟨htext, hpieces, hne, hway, hthere⟩ := resolveLast_eq_ok hlast hslash
      have hname : Component.ofPiece? last = some (.name (String.ofList last)) := by
        simp only [Bool.or_eq_true, decide_eq_true_eq, not_or] at hdots
        exact Component.ofPiece?_eq_name_iff.2 ⟨hne, hdots.1, hdots.2, rfl⟩
      have hstep : s.step directory last = .ok (directory ++ [String.ofList last]) := by
        rw [step_of_directory hthere, hname]
        rfl
      have hshort : (String.ofList last).length ≤ p.text.length :=
        length_le_of_mem_pieces (by simpa using List.mem_of_getLast? hpieces)
      split at h
      · exact absurd h throw_ne_ok
      · next bytes hsource hnot =>
        exact ⟨directory, _, bytes,
          (resolveEntry_eq_ok_iff hpieces).2 ⟨htext, directory, hway, hstep⟩, hshort, hnot, hsource,
          (Except.ok.inj h).symm⟩
      · exact absurd h throw_ne_ok

/-- **The last step**: the temporary file takes the place that the path names. -/
theorem Pending.isReplaced {p : Path} (htemporary : m.IsTemporary p temporary)
    (h : m.Pending temporary s) {bytes : ByteArray}
    (hbytes : s.get? temporary = some (.file bytes)) {final : FileTree}
    (hrename : s.rename temporary p = .ok final) :
    ∃ place, m.resolveEntry p = .ok place ∧ m.IsReplaced place bytes final := by
  obtain ⟨directory, name, moved, hentry, hshort, hnot, hsource, rfl⟩ := rename_eq_ok hrename
  obtain rfl : bytes = moved := by simpa using hbytes.symm.trans hsource
  have hfree := htemporary.free
  have hother : directory ++ [name] ≠ temporary := fun heq =>
    Nat.not_lt.2 hshort (htemporary.longer directory name heq).1
  have hnamed := resolveEntry_mono h.workingDirectory.symm (link?_congr h.links.symm)
    (fun place => (h.directory_iff hfree place).1) hentry
  refine ⟨_, hnamed, h.workingDirectory, ?_, ?_, get?_set_self _ (by simp) _, fun q hq => ?_⟩
  · exact congrArg (List.filter _) (h.filter_links hfree)
  · rwa [← h.others _ hother]
  · rw [get?_set_ne _ hq]
    by_cases hq' : q = temporary
    · subst hq'
      rw [get?_erase_self s hfree.ne_nil, hfree.1]
    · rw [get?_erase_ne s hq', h.others q hq']

/-! ## Steps -/

section Steps

variable {F I J : FileTree → Prop}

/-- A step ends in `J`, or it fails in `F`. -/
def StepEnds (F J : FileTree → Prop) : FileTree × Except FileError Unit → Prop
  | (s, .ok ()) => J s
  | (s, .error _) => F s

/-- Steps end in `J` with `F` before, or one of them fails and there is `F` throughout. -/
def RunEnds (F J : FileTree → Prop) : List FileTree × Except FileError Unit → Prop
  | (states, .ok ()) => ∃ before final, states = before ++ [final] ∧ (∀ s ∈ before, F s) ∧ J final
  | (states, .error _) => ∀ s ∈ states, F s

theorem runEnds_singleton {step : Step} (h : StepEnds F J (step s)) :
    RunEnds F J (s.runSteps [step]) := by
  rw [runSteps]
  generalize step s = result at h ⊢
  obtain ⟨s', _ | _⟩ := result
  · exact List.forall_mem_singleton.2 h
  · exact ⟨[], s', rfl, by simp, h⟩

/-- **One step and then the others.** -/
theorem runEnds_cons {step : Step} {rest : List Step} (h : StepEnds F I (step s))
    (hrest : ∀ s, I s → F s ∧ RunEnds F J (s.runSteps rest)) :
    RunEnds F J (s.runSteps (step :: rest)) := by
  rw [runSteps]
  generalize step s = result at h ⊢
  obtain ⟨s', _ | _⟩ := result
  · exact List.forall_mem_singleton.2 h
  · obtain ⟨hF, hends⟩ := hrest s' h
    dsimp only
    generalize s'.runSteps rest = result at hends ⊢
    obtain ⟨states, _ | _⟩ := result
    · exact List.forall_mem_cons.2 ⟨hF, hends⟩
    · obtain ⟨before, final, rfl, hbefore, hfinal⟩ := hends
      exact ⟨s' :: before, final, rfl, List.forall_mem_cons.2 ⟨hF, hbefore⟩, hfinal⟩

end Steps

/-- **How the steps of a replacement end**: with the file in its place, and until then with nothing
new but the temporary file. -/
theorem runEnds_replacementSteps {p : Path} (htemporary : m.IsTemporary p temporary)
    (faults : Faults) (bytes : ByteArray) :
    RunEnds (m.Pending temporary)
      (fun final => ∃ place, m.resolveEntry p = .ok place ∧ m.IsReplaced place bytes final)
      (m.runSteps (replacementSteps faults p bytes temporary)) := by
  have hfree := htemporary.free
  -- once the contents are written the temporary file holds them
  let Written (s : FileTree) : Prop :=
    m.Pending temporary s ∧ s.get? temporary = some (.file bytes)
  refine runEnds_cons (I := m.Pending temporary) ?_ fun s hs => ⟨hs, ?_⟩
  · cases hcreate : faults.error? .create with
    | some e => exact .refl hfree
    | none => exact (Pending.refl hfree).set_file hfree _
  refine runEnds_cons (I := Written) ?_ fun s hs => ⟨hs.1, ?_⟩
  · cases hwrite : faults.error? .write with
    | some e => exact hs.set_file hfree _
    | none => exact ⟨hs.set_file hfree _, get?_set_self s hfree.ne_nil _⟩
  refine runEnds_cons (I := Written) ?_ fun s hs => ⟨hs.1, ?_⟩
  · cases hsynchronize : faults.error? .synchronize with
    | some e => exact hs.1
    | none => exact hs
  refine runEnds_singleton ?_
  cases hfault : faults.error? .rename with
  | some e => exact hs.1
  | none =>
    cases hrename : s.rename temporary p with
    | error e => exact hs.1
    | ok final => exact hs.1.isReplaced htemporary hs.2 hrename

/-! ## A whole replacement -/

/-- The tree with all directories on the way to a path made. -/
def withWayTo (t : FileTree) (p : Path) : FileTree := (t.makeDirectories (directoryOf p)).1

/-- **How a replacement goes.**  The way to the path is made; from there on only the temporary file
comes, and in the end it is dropped or takes the place that the path names. -/
inductive Proceeds (t : FileTree) (p : Path) (bytes : ByteArray) : Replacement → Prop
  | undone {m : FileTree} {temporary : Place} {states : List FileTree} {final : FileTree}
      {e : FileError} (way : t.MakesWayTo p m) (aside : m.IsTemporary p temporary)
      (pending : ∀ s ∈ states, s = t ∨ m.Pending temporary s) (seen : final ∈ states)
      (last : m.Pending temporary final) (dropped : final.get? temporary = none) :
      Proceeds t p bytes ⟨states, final, .error e⟩
  | done {m : FileTree} {temporary : Place} {states : List FileTree} {final : FileTree}
      {place : Place} (made : m = t.withWayTo p) (way : t.MakesWayTo p m)
      (aside : m.IsTemporary p temporary)
      (pending : ∀ s ∈ states, s = t ∨ m.Pending temporary s ∨ s = final) (seen : final ∈ states)
      (named : m.resolveEntry p = .ok place) (replaced : m.IsReplaced place bytes final) :
      Proceeds t p bytes ⟨states, final, .ok ()⟩

/-- Nothing but all the directories is made, if nothing fails. -/
theorem eq_of_makeDirectoryOf {faults : Faults} {p : Path}
    (h : makeDirectoryOf faults p t = (m, .ok ())) : m = t.withWayTo p := by
  rw [makeDirectoryOf] at h
  split at h
  · simp at h
  · rw [withWayTo, h]

theorem proceeds_replaceFile (t : FileTree) (faults : Faults) (p : Path) (bytes : ByteArray) :
    Proceeds t p bytes (replaceFile faults t p bytes) := by
  have hmade := makesWayTo_makeDirectoryOf t faults p
  rw [replaceFile]
  rcases hmakes : makeDirectoryOf faults p t with ⟨m, outcome⟩
  rw [hmakes] at hmade
  -- without a temporary file any free name stands for it
  have hearly : ∀ e, Proceeds t p bytes ⟨[t, m], m, .error e⟩ := by
    have haside := isTemporary_freshName m p []
    refine fun e => .undone hmade haside (fun s hs => ?_) (by simp) (.refl haside.free)
      haside.free.1
    rcases List.mem_pair.1 hs with rfl | rfl
    · exact .inl rfl
    · exact .inr (.refl haside.free)
  cases outcome with
  | error e => exact hearly e
  | ok _ =>
    dsimp only
    cases hdirectory : m.resolve (directoryOf p) with
    | error e => exact hearly e
    | ok directory =>
      dsimp only
      have haside := isTemporary_freshName m p directory
      have hfree := haside.free
      have hends := runEnds_replacementSteps haside faults bytes
      generalize m.runSteps _ = result at hends ⊢
      obtain ⟨states, e | _⟩ := result
      · -- the temporary file is dropped from the last tree
        have hlast : m.Pending (directory ++ [m.freshName p]) (states.getLast?.getD m) := by
          cases hlast : states.getLast? with
          | none => exact .refl hfree
          | some s => exact hends s (List.mem_of_getLast? hlast)
        refine .undone hmade haside ?_ (by simp) (hlast.erase hfree)
          (get?_erase_self _ hfree.ne_nil)
        intro s hs
        simp only [List.mem_cons, List.mem_append, List.cons_append, List.not_mem_nil,
          or_false] at hs
        rcases hs with rfl | rfl | hs | rfl
        · exact .inl rfl
        · exact .inr (.refl hfree)
        · exact .inr (hends s hs)
        · exact .inr (hlast.erase hfree)
      · obtain ⟨before, final, rfl, hbefore, place, hplace, hreplaced⟩ := hends
        dsimp only
        rw [List.getLast?_concat, Option.getD_some]
        refine .done (eq_of_makeDirectoryOf hmakes) hmade haside ?_ (by simp) hplace hreplaced
        intro s hs
        simp only [List.mem_cons, List.mem_append, List.not_mem_nil, or_false] at hs
        rcases hs with rfl | rfl | hs | rfl
        · exact .inl rfl
        · exact .inr (.inl (.refl hfree))
        · exact .inr (.inl (hbefore s hs))
        · exact .inr (.inr rfl)

/-! ## What can be seen -/

/-- The contents of the file at a place. -/
def fileAt? (t : FileTree) (place : Place) : Option ByteArray :=
  match t.get? place with
  | some (.file bytes) => some bytes
  | _ => none

theorem fileAt?_congr {place : Place} (h : s.get? place = m.get? place) :
    s.fileAt? place = m.fileAt? place := by rw [fileAt?, fileAt?, h]

theorem fileAt?_of_get? {place : Place} {bytes : ByteArray}
    (h : t.get? place = some (.file bytes)) : t.fileAt? place = some bytes := by rw [fileAt?, h]

/-- **The same file or the same link stands at a place**, or neither in both trees. -/
def AgreesAt (s t : FileTree) (place : Place) : Prop :=
  s.fileAt? place = t.fileAt? place ∧ s.link? place = t.link? place

theorem AgreesAt.trans {place : Place} (h : s.AgreesAt m place) (h' : m.AgreesAt t place) :
    s.AgreesAt t place := ⟨h.1.trans h'.1, h.2.trans h'.2⟩

/-- New directories are neither files nor links. -/
theorem Extends.agreesAt (h : t.Extends m) (place : Place) : m.AgreesAt t place := by
  refine ⟨?_, h.link?_eq place⟩
  rcases h.same_or_new place with hsame | ⟨hnone, hnew⟩
  · exact fileAt?_congr hsame
  · rw [fileAt?, fileAt?, hnone, hnew]

/-- **Every other file and link is as it was.** -/
theorem IsReplaced.agreesAt {place : Place} {bytes : ByteArray} {final : FileTree}
    (h : m.IsReplaced place bytes final) (hway : t.Extends m) {other : Place}
    (hother : other ≠ place) : final.AgreesAt t other := by
  obtain ⟨hfile, hlink⟩ := hway.agreesAt other
  exact ⟨(fileAt?_congr (h.others other hother)).trans hfile, (h.link?_ne hother).trans hlink⟩

/-- **A path that led nowhere leads to what was there**: it goes back by `..` over a directory that
was missing, and with that directory made it leads to a directory or to a file as it was. -/
structure Uncovers (t : FileTree) (p : Path) (s : FileTree) : Prop where
  goesBack : p.GoesBack
  nowhere : ∀ q, t.resolve p ≠ .ok q
  old : s.entry? p = some .directory ∨ ∃ place bytes,
    s.resolve p = .ok place ∧ t.get? place = some (.file bytes) ∧ s.get? place = some (.file bytes)

/-- **Making the way of a path** changes what it leads to only by uncovering it. -/
theorem MakesWayTo.entry?_eq_or (ht : t.WellFormed) {p : Path} (h : t.MakesWayTo p m) :
    m.entry? p = t.entry? p ∨ t.Uncovers p m := by
  by_cases hopen : ∃ q, t.resolve p = .ok q
  · obtain ⟨q, hq⟩ := hopen
    exact .inl (h.entry?_eq_of_resolve ht hq)
  · by_cases hback : p.GoesBack
    · rw [not_exists] at hopen
      by_cases hmade : ∃ q, m.resolve p = .ok q
      · obtain ⟨q, hq⟩ := hmade
        have hentry := entry?_of_resolve hq
        cases hget : m.get? q with
        | none => exact .inl (by rw [hentry, hget, entry?_of_not_resolve hopen])
        | some entry =>
          rw [hget] at hentry
          cases entry with
          | directory => exact .inr ⟨hback, hopen, .inl hentry⟩
          | file bytes =>
            exact .inr ⟨hback, hopen, .inr ⟨q, bytes, hq, h.file_iff.1 hget, hget⟩⟩
      · rw [not_exists] at hmade
        exact .inl (by rw [entry?_of_not_resolve hopen, entry?_of_not_resolve hmade])
    · exact .inl (h.entry?_eq_of_not_goesBack ht hback)

/-- **A replacement is all or nothing**, whatever fails.  There are two exceptions: making the way
of a path may uncover something old, and a path is cut off when it goes over the link that the file
replaces. -/
structure IsAtomic (t : FileTree) (p : Path) (bytes : ByteArray) (w : Replacement) : Prop where
  /-- At every point the path leads to what it led to or to the whole new file, unless the way to it
  uncovers something old or is cut off. -/
  target : ∀ s ∈ w.states,
    s.entry? p = t.entry? p ∨ s.entry? p = some (.file bytes) ∨ t.Uncovers p s ∨
      w.outcome = .ok () ∧ (t.withWayTo p).CutsOff p ∧ s.entry? p = none
  /-- At every point every other file and link is as it was, but for one file where nothing was. -/
  others : ∃ temporary, t.IsFree temporary ∧ ∀ s ∈ w.states, ∀ place, place ≠ temporary →
    s.AgreesAt t place ∨ (t.withWayTo p).resolveEntry p = .ok place ∧
      (s.resolve p = .ok place ∨ (t.withWayTo p).CutsOff p) ∧ s.fileAt? place = some bytes
  /-- No directory goes away. -/
  directories : ∀ s ∈ w.states, ∀ place, t.get? place = some .directory →
    s.get? place = some .directory
  /-- The end can be seen. -/
  final : w.final ∈ w.states
  /-- After success the new file is at the place that the path names, every other file and link is
  as it was, and the path leads to the new file unless it is cut off. -/
  done : w.outcome = .ok () → ∃ place, (t.withWayTo p).resolveEntry p = .ok place ∧
    w.final.get? place = some (.file bytes) ∧
    (w.final.resolve p = .ok place ∧ ¬(t.withWayTo p).CutsOff p ∨
      (∀ q, w.final.resolve p ≠ .ok q) ∧ (t.withWayTo p).CutsOff p) ∧
    ∀ other, other ≠ place → w.final.AgreesAt t other
  /-- After failure every file and link is as it was, and there is none besides. -/
  undone : ∀ e, w.outcome = .error e → (∀ place, w.final.AgreesAt t place) ∧
    (w.final.entry? p = t.entry? p ∨ t.Uncovers p w.final)

section IsAtomic

variable {p : Path} {bytes : ByteArray} (ht : t.WellFormed) (h : t.MakesWayTo p m)
  (haside : m.IsTemporary p temporary)
include ht h haside

/-- Between the steps the path leads where it leads with its way made. -/
theorem Pending.entry?_eq_or (hs : m.Pending temporary s) :
    s.entry? p = t.entry? p ∨ t.Uncovers p s := by
  have hleads := fun q (hq : m.resolve p = .ok q) => haside.ne_of_resolve (h.wellFormed ht) hq
  have hentry := hs.entry?_eq haside.free hleads
  rcases h.entry?_eq_or ht with hsame | ⟨hback, hnowhere, hold⟩
  · exact .inl (hentry.trans hsame)
  · refine .inr ⟨hback, hnowhere, hold.imp (hentry ▸ ·) ?_⟩
    rintro ⟨place, bytes, hplace, hbefore, hafter⟩
    exact ⟨place, bytes, (hs.resolve_eq_ok_iff haside.free).2 hplace, hbefore,
      (hs.others place (hleads place hplace)).trans hafter⟩

omit ht haside in
theorem Pending.agreesAt (hs : m.Pending temporary s) {place : Place} (hplace : place ≠ temporary) :
    s.AgreesAt t place := by
  obtain ⟨hfile, hlink⟩ := h.agreesAt place
  exact ⟨(fileAt?_congr (hs.others place hplace)).trans hfile,
    (link?_congr hs.links place).trans hlink⟩

omit ht in
theorem MakesWayTo.isFree_temporary : t.IsFree temporary := by
  refine ⟨?_, (h.link?_eq temporary).symm.trans haside.free.2⟩
  rcases h.same_or_new temporary with hsame | hnew
  · rw [← hsame, haside.free.1]
  · exact hnew.1

/-- **A replacement that fails** has shown nothing but the temporary file. -/
theorem isAtomic_of_pending {states : List FileTree} {final : FileTree} {e : FileError}
    (hstates : ∀ s ∈ states, s = t ∨ m.Pending temporary s) (hfinal : final ∈ states)
    (hpending : m.Pending temporary final) (hdropped : final.get? temporary = none) :
    IsAtomic t p bytes ⟨states, final, .error e⟩ where
  target s hs := by
    rcases hstates s hs with rfl | hs
    · exact .inl rfl
    · exact (hs.entry?_eq_or ht h haside).imp_right fun huncovers => .inr (.inl huncovers)
  others := by
    refine ⟨temporary, h.isFree_temporary haside, fun s hs place hplace => .inl ?_⟩
    rcases hstates s hs with rfl | hs
    · exact ⟨rfl, rfl⟩
    · exact hs.agreesAt h hplace
  directories s hs place hplace := by
    rcases hstates s hs with rfl | hs
    · exact hplace
    · exact (hs.directory_iff haside.free place).2 (h.directory hplace)
  final := hfinal
  done hok := by simp at hok
  undone e _ := by
    refine ⟨fun place => ?_, hpending.entry?_eq_or ht h haside⟩
    by_cases hplace : place = temporary
    · subst hplace
      obtain ⟨hfile, hlink⟩ := h.agreesAt place
      exact ⟨(fileAt?_congr (hdropped.trans haside.free.1.symm)).trans hfile,
        (link?_congr hpending.links place).trans hlink⟩
    · exact hpending.agreesAt h hplace

/-- **A replacement that succeeds** has shown nothing but the temporary file before its end. -/
theorem isAtomic_of_isReplaced {states : List FileTree} {final : FileTree} {place : Place}
    (hmade : m = t.withWayTo p)
    (hstates : ∀ s ∈ states, s = t ∨ m.Pending temporary s ∨ s = final) (hfinal : final ∈ states)
    (hplace : m.resolveEntry p = .ok place) (hreplaced : m.IsReplaced place bytes final) :
    IsAtomic t p bytes ⟨states, final, .ok ()⟩ := by
  have hleads := hreplaced.resolve_or hplace
  have hothers : ∀ other, other ≠ place → final.AgreesAt t other := fun other hother =>
    hreplaced.agreesAt h.toExtends hother
  subst hmade
  refine ⟨fun s hs => ?_, ⟨temporary, h.isFree_temporary haside, fun s hs other hother => ?_⟩,
    fun s hs other hother => ?_, hfinal, fun _ => ⟨place, hplace, hreplaced.self, hleads, hothers⟩,
    fun e he => by simp at he⟩
  · rcases hstates s hs with rfl | hs | rfl
    · exact .inl rfl
    · exact (hs.entry?_eq_or ht h haside).imp_right fun huncovers => .inr (.inl huncovers)
    · rcases hleads with ⟨hresolve, -⟩ | ⟨hnowhere, hcut⟩
      · exact .inr (.inl (by rw [entry?_of_resolve hresolve, hreplaced.self]))
      · exact .inr (.inr (.inr ⟨rfl, hcut, entry?_of_not_resolve hnowhere⟩))
  · rcases hstates s hs with rfl | hs | rfl
    · exact .inl ⟨rfl, rfl⟩
    · exact .inl (hs.agreesAt h hother)
    · by_cases hsame : other = place
      · subst hsame
        exact .inr ⟨hplace, hleads.imp And.left And.right, fileAt?_of_get? hreplaced.self⟩
      · exact .inl (hothers other hsame)
  · rcases hstates s hs with rfl | hs | rfl
    · exact hother
    · exact (hs.directory_iff haside.free other).2 (h.directory hother)
    · exact (hreplaced.directory_iff other).2 (h.directory hother)

end IsAtomic

/-- **Replacing a file is all or nothing.** -/
theorem isAtomic_replaceFile (ht : t.WellFormed) (faults : Faults) (p : Path)
    (bytes : ByteArray) : IsAtomic t p bytes (replaceFile faults t p bytes) := by
  have hproceeds := proceeds_replaceFile t faults p bytes
  generalize replaceFile faults t p bytes = w at hproceeds ⊢
  cases hproceeds with
  | undone way aside pending seen last dropped =>
    exact isAtomic_of_pending ht way aside pending seen last dropped
  | done made way aside pending seen named replaced =>
    exact isAtomic_of_isReplaced ht way aside made pending seen named replaced

end FileTree

end SwiftStyle
