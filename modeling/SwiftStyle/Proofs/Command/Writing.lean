import SwiftStyle.Command.Run
import SwiftStyle.Proofs.Files.Upkeep

/-!
# Proofs/Command/Writing — what commands write

A call of the command line changes nothing, leaves directories on the way to the cache, or writes
the one file that it announces (`Call.Leaves`).  So every file that differs after any number of
calls was announced by one of them that succeeded, and calls that fail leave every file as it was
(`writes_announced`).

Links make a difference between the two commands that write.  `index` moves a finished file to the
cache, so a link that stands there gives way to it.  `init` writes through a link: its file is the
one that the path leads to, and the link stays.
-/

namespace SwiftStyle

open FileTree

namespace IndexBuilder

variable {t : FileTree} {b : IndexBuilder} {x : Extractor} {faults : Faults} {cache : Path}

/-- **A run that succeeds** has written the cache. -/
theorem isWritten_run {tree : FileTree} {o : IndexOutcome}
    (h : b.run x faults t cache = (tree, .ok o)) :
    ∃ place, t.IsWritten cache place o.index.text.toUTF8 tree := by
  rw [run] at h
  obtain ⟨rfl, houtcome⟩ := Prod.mk.inj h
  split at houtcome
  · next hwritten =>
    obtain rfl := Except.ok.inj houtcome
    exact isWritten_replaceFile hwritten
  · simp at houtcome

/-- **A run that fails** leaves directories on the way to the cache, and nothing else. -/
theorem makesWayTo_run {tree : FileTree} {e : PersistError}
    (h : b.run x faults t cache = (tree, .error e)) : t.MakesWayTo cache tree := by
  rw [run] at h
  obtain ⟨rfl, houtcome⟩ := Prod.mk.inj h
  split at houtcome
  · simp at houtcome
  · next hwritten => exact makesWayTo_replaceFile hwritten

end IndexBuilder

namespace Command

/-! ## Calls -/

/-- A call of the command line with what is around it, but for the tree. -/
structure Call where
  arguments : List String
  environment : Environment := {}
  input : ByteArray := .empty
  faults : Faults := {}

/-- The outcome of a call. -/
def Call.outcome (c : Call) (t : FileTree) : Outcome :=
  run c.arguments ⟨t, c.environment, c.input⟩ c.faults

/-- The tree after calls, one after the other. -/
def after (t : FileTree) (calls : List Call) : FileTree :=
  calls.foldl (fun t c => (c.outcome t).tree) t

/-- **A call of `index`** with its cache, from the arguments or else from the configuration. -/
inductive Call.Indexes (c : Call) (t : FileTree) (cache : Path) : Prop
  | intro {common : Common} {a : IndexArguments} {config : Config}
      (asked : parse c.arguments = .ok ⟨common, .index a⟩)
      (load : Config.load t c.environment projectDirectory common.config = .ok config)
      (path : a.cachePath.or config.index.cachePath = some cache)

/-- **The place of the file that a call announces to write**: the one that the path of the cache
names, with the directories on its way made, or the one that the path of the first configuration
file leads to, if nothing is there or the call is forced. -/
inductive Call.Announces (c : Call) (t : FileTree) (place : Place) : Prop
  | cache {cache : Path} (indexes : c.Indexes t cache)
      (named : (t.withWayTo cache).resolveEntry cache = .ok place)
  | template {common : Common} {force : Bool}
      (asked : parse c.arguments = .ok ⟨common, .init force⟩)
      (free : entry? t templatePath = none ∨ force = true)
      (leads : t.resolve templatePath = .ok place)

/-- **What a call leaves**: the tree as it was, directories on the way to the cache after a failing
`index`, or the file that was announced. -/
inductive Call.Leaves (c : Call) (t : FileTree) (o : Outcome) : Prop
  | tree (same : o.tree = t)
  | directories {cache : Path} (indexes : c.Indexes t cache) (failed : o.exitCode = .failure)
      (made : t.MakesWayTo cache o.tree)
  | cache {cache : Path} {place : Place} {bytes : ByteArray} (indexes : c.Indexes t cache)
      (succeeded : o.exitCode = .success) (written : t.IsWritten cache place bytes o.tree)
  | template {common : Common} {force : Bool} {place : Place}
      (asked : parse c.arguments = .ok ⟨common, .init force⟩)
      (free : entry? t templatePath = none ∨ force = true)
      (leads : t.resolve templatePath = .ok place) (succeeded : o.exitCode = .success)
      (same : o.tree = t.set place (.file Command.template.toUTF8))
      (replaced : t.IsReplaced place Command.template.toUTF8 o.tree)
      (wellFormed : t.WellFormed → o.tree.WellFormed)

/-! ## What each command leaves -/

theorem LintArguments.tree_outcome (a : LintArguments) (s : Surroundings) (common : Common)
    (faults : Faults) : (a.outcome s common faults).tree = s.tree := by
  rw [outcome]
  split <;> rfl

/-- **The first configuration file** goes to the working directory, if that is there and no link
leads the file elsewhere. -/
theorem resolve_templatePath_iff {t : FileTree} {place : Place}
    (hfree : t.link? (t.workingDirectory ++ ["tidemark.toml"]) = none) :
    t.resolve templatePath = .ok place ↔ t.get? t.workingDirectory = some .directory ∧
      place = t.workingDirectory ++ ["tidemark.toml"] := by
  have hpieces : templatePath.pieces = ["tidemark.toml".toList] := by decide
  have hstart : t.start templatePath = t.workingDirectory := if_neg (by decide)
  rw [resolve_eq_ok_iff_leads, hpieces, hstart, and_iff_right (by decide)]
  by_cases hthere : t.get? t.workingDirectory = some .directory
  · have hstep := step_name (by decide : Path.IsName "tidemark.toml") hthere
    rw [leads_cons_of_free hstep hfree, leads_nil_iff, and_iff_right hthere]
  · exact iff_of_false (fun hway => hthere (hway.get?_start (by simp))) fun h => hthere h.1

theorem writeTemplate_eq_ok {t tree : FileTree} {faults : Faults} {force : Bool}
    (h : writeTemplate faults t force = .ok tree) :
    ( entry? t templatePath = none ∨ force = true) ∧ ∃ place,
      t.resolve templatePath = .ok place ∧ tree = t.set place (.file template.toUTF8) ∧
      t.IsReplaced place template.toUTF8 tree ∧ (t.WellFormed → tree.WellFormed) := by
  rw [writeTemplate] at h
  split at h
  · simp at h
  · next hfree =>
    split at h
    · simp at h
    · refine ⟨?_, write_eq_ok (mapError_eq_ok_iff.1 h)⟩
      simpa [or_iff_not_imp_left, Option.isSome_iff_ne_none] using hfree

variable {c : Call} {t : FileTree}

theorem IndexArguments.leaves {common : Common} {a : IndexArguments}
    (asked : parse c.arguments = .ok ⟨common, .index a⟩) :
    c.Leaves t (a.outcome ⟨t, c.environment, c.input⟩ common c.faults) := by
  rw [outcome]
  split
  · exact .tree rfl
  · next config hconfig =>
    split
    · exact .tree rfl
    · next cache hcache =>
      have indexes : c.Indexes t cache := ⟨asked, mapError_eq_ok_iff.1 hconfig, hcache⟩
      split
      · next hrun => exact .directories indexes rfl (IndexBuilder.makesWayTo_run hrun)
      · next hrun =>
        obtain ⟨place, hwritten⟩ := IndexBuilder.isWritten_run hrun
        exact .cache indexes rfl hwritten

theorem leaves_initOutcome {common : Common} {force : Bool}
    (asked : parse c.arguments = .ok ⟨common, .init force⟩) :
    c.Leaves t (initOutcome c.faults t force) := by
  rw [initOutcome]
  split
  · exact .tree rfl
  · next hwrite =>
    obtain ⟨hfree, place, hplace, hset, hreplaced, hwellFormed⟩ := writeTemplate_eq_ok hwrite
    exact .template asked hfree hplace rfl hset hreplaced hwellFormed

/-- **Every call leaves what it may leave.** -/
theorem Call.leaves (c : Call) (t : FileTree) : c.Leaves t (c.outcome t) := by
  rw [outcome, run]
  split
  · next stop _ => exact .tree (by cases stop <;> rfl)
  · next i asked =>
    obtain ⟨common, request⟩ := i
    cases request with
    | lint a => exact .tree (a.tree_outcome _ common c.faults)
    | index a => exact IndexArguments.leaves asked
    | rules format => exact .tree rfl
    | init force => exact leaves_initOutcome asked

/-- **A place where something differs was announced**, the call succeeded, and a file is there. -/
theorem Call.Leaves.announced {o : Outcome} (h : c.Leaves t o) {place : Place}
    (hplace : ¬o.tree.AgreesAt t place) :
    o.exitCode = .success ∧ c.Announces t place ∧
      ∃ bytes, o.tree.get? place = some (.file bytes) := by
  cases h with
  | tree same => exact absurd ⟨by rw [same], by rw [same]⟩ hplace
  | directories _ _ made => exact absurd (made.agreesAt place) hplace
  | cache indexes succeeded written =>
    obtain rfl := not_imp_comm.1 written.agreesAt hplace
    obtain ⟨m, rfl, -, named, replaced, -⟩ := written
    exact ⟨succeeded, .cache indexes named, _, replaced.self⟩
  | template asked free leads succeeded same replaced =>
    obtain rfl := not_imp_comm.1 (replaced.agreesAt (Extends.refl t)) hplace
    exact ⟨succeeded, .template asked free leads, _, replaced.self⟩

/-- **A call writes only what it announces.** -/
structure Call.WritesOnly (c : Call) (t : FileTree) : Prop where
  /-- Calls other than of `index` and `init` leave the tree as it is. -/
  reading : (∀ common a, parse c.arguments ≠ .ok ⟨common, .index a⟩) →
    (∀ common force, parse c.arguments ≠ .ok ⟨common, .init force⟩) → (c.outcome t).tree = t
  /-- Where a file or a link differs, the place was announced and a file is there, and the call
  succeeded. -/
  announced : ∀ place, ¬(c.outcome t).tree.AgreesAt t place →
    (c.outcome t).exitCode.number = 0 ∧ c.Announces t place ∧
      ∃ bytes, (c.outcome t).tree.get? place = some (.file bytes)
  /-- `init` writes the one file that its path leads to, which was not there unless the call was
  forced, or nothing.  This is the file in the working directory, unless a link stands in its
  place. -/
  initial : ∀ common force, parse c.arguments = .ok ⟨common, .init force⟩ →
    (c.outcome t).tree = t ∨ ( entry? t templatePath = none ∨ force = true) ∧ ∃ place,
      t.resolve templatePath = .ok place ∧
      (c.outcome t).tree = t.set place (.file template.toUTF8) ∧
      (t.link? (t.workingDirectory ++ ["tidemark.toml"]) = none →
        place = t.workingDirectory ++ ["tidemark.toml"])
  /-- A failing call leaves every file and link as it was, and no other. -/
  failed : (c.outcome t).exitCode.number = 2 → ∀ place, (c.outcome t).tree.AgreesAt t place
  /-- Relative paths begin where they did. -/
  workingDirectory : (c.outcome t).tree.workingDirectory = t.workingDirectory
  /-- No directory goes away. -/
  directories : ∀ place, t.get? place = some .directory →
    (c.outcome t).tree.get? place = some .directory
  /-- New directories are made by `index`, on the way to the cache. -/
  onTheWay : ∀ place, t.IsNew (c.outcome t).tree place →
    ∃ cache m, c.Indexes t cache ∧ t.MakesWayTo cache m ∧ t.IsNew m place
  /-- A file system stays one. -/
  wellFormed : t.WellFormed → (c.outcome t).tree.WellFormed

theorem Call.writesOnly (c : Call) (t : FileTree) : c.WritesOnly t where
  reading hindex hinit := by
    cases c.leaves t with
    | tree same => exact same
    | directories indexes =>
      obtain ⟨asked, -, -⟩ := indexes
      exact absurd asked (hindex _ _)
    | cache indexes =>
      obtain ⟨asked, -, -⟩ := indexes
      exact absurd asked (hindex _ _)
    | template asked => exact absurd asked (hinit _ _)
  announced place hplace := by
    obtain ⟨hcode, hannounced⟩ := (c.leaves t).announced hplace
    exact ⟨by rw [hcode]; rfl, hannounced⟩
  initial common force asked := by
    cases c.leaves t with
    | tree same => exact .inl same
    | directories indexes =>
      obtain ⟨other, -, -⟩ := indexes
      simp [asked] at other
    | cache indexes =>
      obtain ⟨other, -, -⟩ := indexes
      simp [asked] at other
    | template other free leads _ same =>
      obtain ⟨-, rfl⟩ : common = _ ∧ force = _ := by simpa [asked] using other
      exact .inr ⟨free, _, leads, same, fun hfree => ((resolve_templatePath_iff hfree).1 leads).2⟩
  failed hcode place := by
    by_contra hplace
    obtain ⟨hsuccess, -⟩ := (c.leaves t).announced hplace
    simp [hsuccess, ExitCode.number] at hcode
  workingDirectory := by
    cases c.leaves t with
    | tree same => rw [same]
    | directories _ _ made => exact made.workingDirectory
    | cache _ _ written => exact written.workingDirectory
    | template _ _ _ _ _ replaced => exact replaced.workingDirectory
  directories place hplace := by
    cases c.leaves t with
    | tree same => rwa [same]
    | directories _ _ made => exact made.directory hplace
    | cache _ _ written => exact written.directory hplace
    | template _ _ _ _ _ replaced => exact (replaced.directory_iff place).2 hplace
  onTheWay place hnew := by
    cases c.leaves t with
    | tree same => exact absurd (same ▸ hnew.2) hnew.not_directory
    | directories indexes _ made => exact ⟨_, _, indexes, made, hnew⟩
    | cache indexes _ written =>
      obtain ⟨m, made, honly⟩ := written.onTheWay
      exact ⟨_, m, indexes, made, honly place hnew⟩
    | template _ _ _ _ _ replaced =>
      exact absurd ((replaced.directory_iff place).1 hnew.2) hnew.not_directory
  wellFormed ht := by
    cases c.leaves t with
    | tree same => rwa [same]
    | directories _ _ made => exact made.wellFormed ht
    | cache _ _ written => exact written.wellFormed ht
    | template _ _ _ _ _ _ wellFormed => exact wellFormed ht

/-! ## Many calls -/

/-- **A place where something differs after calls** was written by one of them. -/
theorem exists_call_of_not_agreesAt {calls : List Call} {place : Place}
    (h : ¬(after t calls).AgreesAt t place) :
    ∃ before c later, calls = before ++ c :: later ∧
      (c.outcome (after t before)).exitCode.number = 0 ∧ c.Announces (after t before) place := by
  induction calls generalizing t with
  | nil => exact absurd ⟨rfl, rfl⟩ h
  | cons c calls ih =>
    -- the first call wrote there or left it as it was
    by_cases hfirst : (c.outcome t).tree.AgreesAt t place
    · obtain ⟨before, d, later, rfl, hd⟩ := ih fun hlater => h (hlater.trans hfirst)
      exact ⟨c :: before, d, later, rfl, hd⟩
    · obtain ⟨hcode, hannounced, -⟩ := (c.writesOnly t).announced place hfirst
      exact ⟨[], c, calls, rfl, hcode, hannounced⟩

/-- **Calls write only what they announce**, and failing calls write nothing.  At every point of a
sequence of calls the next one writes only what it announces, and wherever a file or a link differs
in the end the place was announced by a call that succeeded. -/
theorem writes_announced (t : FileTree) (calls : List Call) :
    (∀ before c later, calls = before ++ c :: later → c.WritesOnly (after t before)) ∧
    ∀ place, ¬(after t calls).AgreesAt t place →
      ∃ before c later, calls = before ++ c :: later ∧
        (c.outcome (after t before)).exitCode.number = 0 ∧ c.Announces (after t before) place :=
  ⟨fun before c _ _ => c.writesOnly (after t before), fun _ => exists_call_of_not_agreesAt⟩

namespace Trial

/-- A file in the working directory. -/
def tree : {t : FileTree // t.WellFormed} where
  val :=
    { entries := [(["w"], .directory), (["w", "a.swift"], .file "let a = 1\n".toUTF8)]
      workingDirectory := ["w"] }
  property := by decide +kernel

/-- The same with a link to a file that is not there. -/
def linked : {t : FileTree // t.WellFormed} where
  val := { tree.val with links := [(["w", "tidemark.toml"], ⟨"../shared.toml"⟩)] }
  property := by decide +kernel

/-- The second `init` finds the file of the first, and `index` is given a configuration that is not
there. -/
def calls : List Call :=
  [{ arguments := ["init"] }, { arguments := ["init"] },
    { arguments := ["index", "--config", "missing.toml"] }]

/-- The exit codes of calls, one after the other. -/
def codes (t : FileTree) : List Call → List UInt8
  | [] => []
  | c :: rest => (c.outcome t).exitCode.number :: codes (c.outcome t).tree rest

end Trial

/-- One call succeeds and writes its file, and two fail and write nothing.  Where a link stands in
the place of the file the first call writes what the link leads to. -/
theorem writes_announced_trial :
    (Trial.codes Trial.tree.val Trial.calls = [0, 2, 2] ∧
      (∃ before c later, Trial.calls = before ++ c :: later ∧
        (c.outcome (after Trial.tree.val before)).exitCode.number = 0 ∧
        c.Announces (after Trial.tree.val before) ["w", "tidemark.toml"]) ∧
      ∀ before c later, Trial.calls = before ++ c :: later →
        c.WritesOnly (after Trial.tree.val before)) ∧
    Trial.codes Trial.linked.val Trial.calls = [0, 2, 2] ∧
      ∃ before c later, Trial.calls = before ++ c :: later ∧
        (c.outcome (after Trial.linked.val before)).exitCode.number = 0 ∧
        c.Announces (after Trial.linked.val before) ["shared.toml"] := by
  have hnew : ∀ t place, ((after t Trial.calls).fileAt? place).isSome → t.fileAt? place = none →
      ¬(after t Trial.calls).AgreesAt t place := by
    rintro t place hthere hnone ⟨hsame, -⟩
    rw [hsame, hnone] at hthere
    cases hthere
  obtain ⟨honly, hwritten⟩ := writes_announced Trial.tree.val Trial.calls
  exact ⟨⟨by decide +kernel, hwritten _ (hnew _ _ (by decide +kernel) (by decide +kernel)), honly⟩,
    by decide +kernel, (writes_announced Trial.linked.val Trial.calls).2 _
      (hnew _ _ (by decide +kernel) (by decide +kernel))⟩

end Command

end SwiftStyle
