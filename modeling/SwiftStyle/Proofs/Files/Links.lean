import SwiftStyle.Proofs.Files.Tree

/-!
# Proofs/Files/Links — where paths lead, over links

A path is followed step by step, and at a link the steps of its path come first.  `Leads` says so as
a relation, with the number of links that may still come, and `follow` finds what it relates
(`follow_eq_ok_iff`).  Steps can be taken in two stretches (`Leads.append`), and they are the same
in a tree with more directories (`Leads.mono`).  In a well-formed tree a canonical path followed by
names leads where it should (`WellFormed.resolve_join`); without links a path is nothing but its
steps (`resolve_eq_foldlM`).
-/

namespace SwiftStyle

/-- The place that a component leads to. -/
def Path.Component.from (c : Component) (place : Place) : Place :=
  match c with
  | name text => place ++ [text]
  | parent => place.dropLast
  | root | current => place

namespace FileTree

open SwiftStyle.Path

variable {t m : FileTree}

/-! ## One step -/

/-- **A piece leads from a directory where its component does.** -/
theorem step_of_directory {place : Place} (h : t.get? place = some .directory)
    (piece : List Char) :
    t.step place piece = .ok (((Component.ofPiece? piece).map (·.from place)).getD place) := by
  rw [step, Component.ofPiece?, h]
  by_cases hdot : piece = [] ∨ piece = ['.']
  · simp [hdot]
  · by_cases hdots : piece = ['.', '.']
    · subst hdots
      simp [Component.from]
    · simp only [not_or] at hdot
      simp [hdot, hdots, Component.from]

/-- A piece leads nowhere from anything else. -/
theorem step_of_not_directory {place : Place} (h : t.get? place ≠ some .directory)
    (piece : List Char) : ∃ e, t.step place piece = .error e := by
  rw [step]
  split
  · exact ⟨_, rfl⟩
  · exact ⟨_, rfl⟩
  · next hplace => exact absurd hplace h

theorem step_eq_ok_iff {place next : Place} {piece : List Char} :
    t.step place piece = .ok next ↔ t.get? place = some .directory ∧
      next = ((Component.ofPiece? piece).map (·.from place)).getD place := by
  by_cases h : t.get? place = some .directory
  · rw [step_of_directory h, and_iff_right h, Except.ok.injEq, eq_comm]
  · obtain ⟨e, he⟩ := step_of_not_directory h piece
    rw [he]
    exact iff_of_false (by simp) fun hstep => h hstep.1

/-- A name leads from a directory to the entry of that name. -/
theorem step_name {place : Place} {name : String} (hname : IsName name)
    (h : t.get? place = some .directory) : t.step place name.toList = .ok (place ++ [name]) := by
  have hread : Component.ofPiece? name.toList = some (.name name) :=
    Component.ofPiece?_text (c := .name name) hname
  rw [step_of_directory h, hread]
  rfl

/-! ## Steps over links -/

/-- **A place without links**: no link stands there, and none leads there. -/
def Unlinked (t : FileTree) (q : Place) : Prop :=
  t.link? q = none ∧
    ∀ l ∈ t.links, t.follow maxLinks (linkStart l.1.dropLast l.2) l.2.pieces ≠ .ok q

/-- **Pieces lead from a place to a place**, over so many links at most. -/
inductive Leads (t : FileTree) : Nat → Place → List (List Char) → Place → Prop
  | nil {links : Nat} {place : Place} : t.Leads links place [] place
  | step {links : Nat} {place next q : Place} {piece : List Char} {rest : List (List Char)}
      (taken : t.step place piece = .ok next) (free : t.link? next = none)
      (later : t.Leads links next rest q) : t.Leads links place (piece :: rest) q
  | link {links : Nat} {place next q : Place} {piece : List Char} {rest : List (List Char)}
      {target : Path} (taken : t.step place piece = .ok next) (found : t.link? next = some target)
      (later : t.Leads links (linkStart place target) (target.pieces ++ rest) q) :
      t.Leads (links + 1) place (piece :: rest) q

theorem leads_nil_iff {links : Nat} {place q : Place} : t.Leads links place [] q ↔ q = place :=
  ⟨fun h => by cases h; rfl, fun h => h ▸ .nil⟩

/-- Where no link is, the other steps are taken from where the first has led. -/
theorem leads_cons_of_free {links : Nat} {place next q : Place} {piece : List Char}
    {rest : List (List Char)} (taken : t.step place piece = .ok next)
    (free : t.link? next = none) :
    t.Leads links place (piece :: rest) q ↔ t.Leads links next rest q := by
  refine ⟨fun h => ?_, .step taken free⟩
  cases h with
  | step taken' _ later => rwa [Except.ok.inj (taken.symm.trans taken')]
  | link taken' found =>
    obtain rfl := Except.ok.inj (taken.symm.trans taken')
    cases free.symm.trans found

/-- Where a link is, the steps of its path are taken before the others. -/
theorem leads_cons_of_link {links : Nat} {place next q : Place} {piece : List Char}
    {rest : List (List Char)} {target : Path} (taken : t.step place piece = .ok next)
    (found : t.link? next = some target) :
    t.Leads links place (piece :: rest) q ↔ ∃ fewer, links = fewer + 1 ∧
      t.Leads fewer (linkStart place target) (target.pieces ++ rest) q := by
  constructor
  · intro h
    cases h with
    | step taken' free =>
      obtain rfl := Except.ok.inj (taken.symm.trans taken')
      cases found.symm.trans free
    | @link fewer _ _ _ _ _ _ taken' found' later =>
      obtain rfl := Except.ok.inj (taken.symm.trans taken')
      obtain rfl := Option.some.inj (found.symm.trans found')
      exact ⟨fewer, rfl, later⟩
  · rintro ⟨fewer, rfl, later⟩
    exact .link taken found later

/-- One step, and then on from where it led, if no link is there. -/
theorem proceed_cons {onLink : Place → List (List Char) → Except FileError Place}
    {place next : Place} {piece : List Char} (rest : List (List Char))
    (taken : t.step place piece = .ok next) :
    t.proceed onLink place (piece :: rest) =
      match t.link? next with
      | none => t.proceed onLink next rest
      | some target => onLink (linkStart place target) (target.pieces ++ rest) := by
  rw [proceed, taken]
  rfl

/-- A step that cannot be taken is the last. -/
theorem proceed_eq_error {onLink : Place → List (List Char) → Except FileError Place}
    {place : Place} {piece : List Char} {e : FileError} (rest : List (List Char))
    (h : t.step place piece = .error e) : t.proceed onLink place (piece :: rest) = .error e := by
  rw [proceed, h]
  rfl

/-- Steps lead where `proceed` gets, if what it does at a link is to follow it with one link
less. -/
theorem proceed_eq_ok_iff {links : Nat} {q : Place}
    {onLink : Place → List (List Char) → Except FileError Place}
    (honLink : ∀ place pieces, onLink place pieces = .ok q ↔
      ∃ fewer, links = fewer + 1 ∧ t.Leads fewer place pieces q)
    {place : Place} {pieces : List (List Char)} :
    t.proceed onLink place pieces = .ok q ↔ t.Leads links place pieces q := by
  induction pieces generalizing place with
  | nil => exact ⟨fun h => Except.ok.inj h ▸ .nil, fun h => by cases h; rfl⟩
  | cons piece rest ih =>
    cases hstep : t.step place piece with
    | error e =>
      rw [proceed_eq_error rest hstep]
      refine iff_of_false (by simp) fun h => ?_
      cases h with
      | step taken => cases hstep.symm.trans taken
      | link taken => cases hstep.symm.trans taken
    | ok next =>
      rw [proceed_cons rest hstep]
      cases hlink : t.link? next with
      | none => exact ih.trans (leads_cons_of_free hstep hlink).symm
      | some target => exact (honLink _ _).trans (leads_cons_of_link hstep hlink).symm

/-- **Steps lead where `follow` gets.** -/
theorem follow_eq_ok_iff {links : Nat} {place q : Place} {pieces : List (List Char)} :
    t.follow links place pieces = .ok q ↔ t.Leads links place pieces q := by
  induction links generalizing place pieces with
  | zero => exact proceed_eq_ok_iff fun _ _ => by simp
  | succ links ih => exact proceed_eq_ok_iff fun _ _ => by simp [ih]

/-- **Steps can be taken in two stretches**, if the second has links enough in any case. -/
theorem Leads.append {links : Nat} {place q r : Place} {before after : List (List Char)}
    (h : t.Leads links place before q) (h' : ∀ links, t.Leads links q after r) :
    t.Leads links place (before ++ after) r := by
  induction h with
  | nil => exact h' _
  | step taken free _ ih => exact .step taken free (ih h')
  | link taken found _ ih => exact .link taken found (by simpa using ih h')

/-- More links may be on the way. -/
theorem Leads.le {links more : Nat} {place q : Place} {pieces : List (List Char)}
    (h : t.Leads links place pieces q) (hle : links ≤ more) : t.Leads more place pieces q := by
  induction h generalizing more with
  | nil => exact .nil
  | step taken free _ ih => exact .step taken free (ih hle)
  | link taken found _ ih =>
    obtain ⟨fewer, rfl⟩ := Nat.exists_eq_succ_of_ne_zero (Nat.ne_zero_of_lt hle)
    exact .link taken found (ih (Nat.le_of_succ_le_succ hle))

/-- **Steps lead to one place.** -/
theorem Leads.unique {links links' : Nat} {place q q' : Place} {pieces : List (List Char)}
    (h : t.Leads links place pieces q) (h' : t.Leads links' place pieces q') : q = q' := by
  have hq := follow_eq_ok_iff.2 (h.le (Nat.le_max_left links links'))
  have hq' := follow_eq_ok_iff.2 (h'.le (Nat.le_max_right links links'))
  exact Except.ok.inj (hq.symm.trans hq')

/-- **Between two stretches of steps** there is a place. -/
theorem Leads.exists_between {links : Nat} {place q : Place} {before after : List (List Char)}
    (h : t.Leads links place (before ++ after) q) : ∃ between fewer,
      t.Leads links place before between ∧ t.Leads fewer between after q := by
  generalize hpieces : before ++ after = pieces at h
  induction h generalizing before with
  | nil =>
    obtain ⟨rfl, rfl⟩ := List.append_eq_nil_iff.1 hpieces
    exact ⟨_, 0, .nil, .nil⟩
  | @step links place next q piece rest taken free later ih =>
    cases before with
    | nil =>
      obtain rfl : after = piece :: rest := hpieces
      exact ⟨place, links, .nil, .step taken free later⟩
    | cons _ before =>
      rw [List.cons_append] at hpieces
      obtain ⟨rfl, hrest⟩ := List.cons.inj hpieces
      obtain ⟨between, fewer, hfirst, hsecond⟩ := ih hrest
      exact ⟨between, fewer, .step taken free hfirst, hsecond⟩
  | @link links place next q piece rest target taken found later ih =>
    cases before with
    | nil =>
      obtain rfl : after = piece :: rest := hpieces
      exact ⟨place, links + 1, .nil, .link taken found later⟩
    | cons _ before =>
      rw [List.cons_append] at hpieces
      obtain ⟨rfl, hrest⟩ := List.cons.inj hpieces
      have happend : target.pieces ++ before ++ after = target.pieces ++ rest := by
        rw [List.append_assoc, hrest]
      obtain ⟨between, fewer, hfirst, hsecond⟩ := ih happend
      exact ⟨between, fewer, .link taken found hfirst, hsecond⟩

/-- **With more directories steps lead where they led.** -/
theorem Leads.mono (hdirectory : ∀ place, t.get? place = some .directory →
      m.get? place = some .directory) (hlink : ∀ place, m.link? place = t.link? place)
    {links : Nat} {place q : Place} {pieces : List (List Char)}
    (h : t.Leads links place pieces q) : m.Leads links place pieces q := by
  have hstep : ∀ {place next piece}, t.step place piece = .ok next →
      m.step place piece = .ok next :=
    fun taken => by
      rw [step_eq_ok_iff] at taken ⊢
      exact taken.imp_left (hdirectory _)
  induction h with
  | nil => exact .nil
  | step taken free _ ih => exact .step (hstep taken) ((hlink _).trans free) ih
  | link taken found _ ih => exact .link (hstep taken) ((hlink _).trans found) ih

/-- Steps start from a directory. -/
theorem Leads.get?_start {links : Nat} {place q : Place} {pieces : List (List Char)}
    (h : t.Leads links place pieces q) (hne : pieces ≠ []) : t.get? place = some .directory := by
  cases h with
  | nil => exact absurd rfl hne
  | step taken => exact (step_eq_ok_iff.1 taken).1
  | link taken => exact (step_eq_ok_iff.1 taken).1

/-! ## Paths -/

theorem exists_getLast?_pieces (p : Path) : ∃ last, p.pieces.getLast? = some last := by
  cases h : p.pieces.getLast? with
  | none => exact absurd (List.getLast?_eq_none_iff.1 h) (Text.splitAt_ne_nil _ _)
  | some last => exact ⟨last, rfl⟩

/-- **Where a path leads.** -/
theorem resolve_eq_ok_iff_leads {p : Path} {q : Place} :
    t.resolve p = .ok q ↔ p.text ≠ "" ∧ t.Leads maxLinks (t.start p) p.pieces q := by
  by_cases htext : p.text = ""
  · simp [resolve, htext]
  · rw [resolve, if_neg (by simpa using htext), follow_eq_ok_iff, and_iff_right htext]

/-- **Which place a path names**: its last step is taken, wherever it leads. -/
theorem resolveEntry_eq_ok_iff {p : Path} {q : Place} {last : List Char}
    (hlast : p.pieces.getLast? = some last) :
    t.resolveEntry p = .ok q ↔ p.text ≠ "" ∧ ∃ directory,
      t.Leads maxLinks (t.start p) p.pieces.dropLast directory ∧
      t.step directory last = .ok q := by
  rw [resolveEntry, List.getLastD_eq_getLast?, hlast, Option.getD_some]
  by_cases htext : p.text = ""
  · simp [htext]
  · rw [if_neg (by simpa using htext), and_iff_right htext, bind_eq_ok_iff]
    simp only [follow_eq_ok_iff]

/-- **A path leads to the place that it names** when no link is there. -/
theorem resolve_of_resolveEntry {p : Path} {q : Place} (h : t.resolveEntry p = .ok q)
    (hfree : t.link? q = none) : t.resolve p = .ok q := by
  obtain ⟨last, hlast⟩ := exists_getLast?_pieces p
  obtain ⟨before, hbefore⟩ := List.getLast?_eq_some_iff.1 hlast
  obtain ⟨htext, directory, hway, hstep⟩ := (resolveEntry_eq_ok_iff hlast).1 h
  rw [hbefore, List.dropLast_concat] at hway
  rw [resolve_eq_ok_iff_leads, hbefore]
  exact ⟨htext, hway.append fun _ => .step hstep hfree .nil⟩

theorem start_congr (h : m.workingDirectory = t.workingDirectory) (p : Path) :
    m.start p = t.start p := by rw [start, start, h]

section Mono

variable (hworking : m.workingDirectory = t.workingDirectory)
  (hlink : ∀ place, m.link? place = t.link? place)
include hworking hlink

/-- **With more directories a path leads where it led.** -/
theorem resolve_mono (hdirectory : ∀ place, t.get? place = some .directory →
      m.get? place = some .directory) {p : Path} {q : Place} (h : t.resolve p = .ok q) :
    m.resolve p = .ok q := by
  rw [resolve_eq_ok_iff_leads] at h ⊢
  rw [start_congr hworking]
  exact h.imp_right (Leads.mono hdirectory hlink)

/-- **With more directories a path names the place that it named.** -/
theorem resolveEntry_mono (hdirectory : ∀ place, t.get? place = some .directory →
      m.get? place = some .directory) {p : Path} {q : Place} (h : t.resolveEntry p = .ok q) :
    m.resolveEntry p = .ok q := by
  obtain ⟨last, hlast⟩ := exists_getLast?_pieces p
  rw [resolveEntry_eq_ok_iff hlast] at h ⊢
  obtain ⟨htext, directory, hway, hstep⟩ := h
  rw [start_congr hworking]
  refine ⟨htext, directory, hway.mono hdirectory hlink, ?_⟩
  rw [step_eq_ok_iff] at hstep ⊢
  exact hstep.imp_left (hdirectory _)

/-- **What a path leads to is a matter of directories and links.** -/
theorem resolve_congr
    (hdirectory : ∀ place, m.get? place = some .directory ↔ t.get? place = some .directory)
    {p : Path} {q : Place} : m.resolve p = .ok q ↔ t.resolve p = .ok q :=
  ⟨resolve_mono hworking.symm (fun place => (hlink place).symm) fun place => (hdirectory place).1,
    resolve_mono hworking hlink fun place => (hdirectory place).2⟩

/-- **Which place a path names is a matter of directories and links.** -/
theorem resolveEntry_congr
    (hdirectory : ∀ place, m.get? place = some .directory ↔ t.get? place = some .directory)
    {p : Path} {q : Place} : m.resolveEntry p = .ok q ↔ t.resolveEntry p = .ok q :=
  ⟨resolveEntry_mono hworking.symm (fun place => (hlink place).symm) fun place =>
      (hdirectory place).1,
    resolveEntry_mono hworking hlink fun place => (hdirectory place).2⟩

/-- **What stands at the end of a path is a matter of entries**: the way to it may be neglected. -/
theorem entry?_congr
    (hdirectory : ∀ place, m.get? place = some .directory ↔ t.get? place = some .directory)
    {p : Path} (hend : ∀ q, t.resolve p = .ok q → m.get? q = t.get? q) :
    m.entry? p = t.entry? p := by
  by_cases h : ∃ q, t.resolve p = .ok q
  · obtain ⟨q, hq⟩ := h
    rw [entry?_of_resolve hq, entry?_of_resolve ((resolve_congr hworking hlink hdirectory).2 hq),
      hend q hq]
  · rw [not_exists] at h
    rw [entry?_of_not_resolve h, entry?_of_not_resolve fun q hq =>
      h q ((resolve_congr hworking hlink hdirectory).1 hq)]

end Mono

/-- The way of a path starts from a directory. -/
theorem get?_start_of_resolveEntry {p : Path} {q : Place} (h : t.resolveEntry p = .ok q) :
    t.get? (t.start p) = some .directory := by
  obtain ⟨last, hlast⟩ := exists_getLast?_pieces p
  obtain ⟨-, directory, hway, hstep⟩ := (resolveEntry_eq_ok_iff hlast).1 h
  by_cases hne : p.pieces.dropLast = []
  · rw [hne] at hway
    cases hway
    exact (step_eq_ok_iff.1 hstep).1
  · exact hway.get?_start hne

/-! ## Names in a well-formed tree -/

theorem isAbsolute_workingPath (t : FileTree) : t.workingPath.isAbsolute = true :=
  Path.isAbsolute_append (a := "/") rfl _

/-- **The absolute form of a path is canonical.** -/
theorem isCanonical_absolute (t : FileTree) (p : Path) : (t.absolute p).IsCanonical :=
  Path.isCanonical_absolute t.isAbsolute_workingPath p

namespace WellFormed

variable (ht : t.WellFormed)
include ht

/-- **A canonical path is followed step by step from the root.** -/
theorem leads_ofComponents_iff {steps : List Path.Component} (h : ∀ c ∈ steps, c.IsStep)
    {links : Nat} {q : Place} :
    t.Leads links [] (Path.ofComponents (.root :: steps)).pieces q ↔
      t.Leads links [] (steps.map (·.text.toList)) q := by
  have hroot : t.link? [] = none := ht.link?_eq_none t.get?_nil
  have hstart : t.step [] [] = .ok [] := by simp [FileTree.step]
  have hfirst : ∀ rest, t.Leads links [] ([] :: rest) q ↔ t.Leads links [] rest q :=
    fun _ => leads_cons_of_free hstart hroot
  by_cases hne : steps = []
  · subst hne
    have hpieces : (Path.ofComponents [.root]).pieces = [[], []] := by decide
    rw [hpieces, hfirst, hfirst, List.map_nil]
  · rw [Path.pieces_ofComponents h hne, hfirst]

theorem resolve_ofComponents {steps : List Path.Component} (h : ∀ c ∈ steps, c.IsStep)
    {q : Place} : t.resolve (Path.ofComponents (.root :: steps)) = .ok q ↔
      t.Leads maxLinks [] (steps.map (·.text.toList)) q := by
  rw [resolve_eq_ok_iff_leads, start, if_pos (Path.isAbsolute_ofComponents steps),
    ht.leads_ofComponents_iff h]
  exact and_iff_right (by simp [Path.text_ofComponents])

/-- **Names lead along a way that is there.** -/
theorem leads_names {place way : Place} {entry : Entry} (h : t.get? (place ++ way) = some entry)
    (links : Nat) : t.Leads links place (way.map String.toList) (place ++ way) := by
  induction way generalizing place with
  | nil => rw [List.append_nil]; exact .nil
  | cons name way ih =>
    have hname := ht.isName h name (by simp)
    have hdirectory := ht.get?_above (List.cons_ne_nil name way) h
    rw [← List.singleton_append, ← List.append_assoc] at h ⊢
    refine .step (step_name hname hdirectory) ?_ (ih h)
    -- on a way to an entry there are entries, so no link is in the way
    by_cases hway : way = []
    · subst hway
      exact ht.link?_eq_none (by simpa using h)
    · exact ht.link?_eq_none (ht.get?_above hway h)

/-- **A canonical path followed by names leads on from where the path leads.** -/
theorem resolve_join {p : Path} (hp : p.IsCanonical) {place way : Place} {entry : Entry}
    (hway : way ≠ []) (hplace : t.resolve p = .ok place) (h : t.get? (place ++ way) = some entry) :
    t.resolve (p.join ⟨"/".intercalate way⟩) = .ok (place ++ way) := by
  obtain ⟨steps, hsteps, rfl⟩ := hp
  have hnames : ∀ name ∈ way, Path.IsName name := fun name hname =>
    ht.isName h name (List.mem_append_right place hname)
  have htexts : (way.map Path.Component.name).map (·.text.toList) = way.map String.toList := by
    rw [List.map_map]
    rfl
  rw [ht.resolve_ofComponents hsteps] at hplace
  rw [Path.join_names hsteps hway hnames,
    ht.resolve_ofComponents (Path.isStep_append_names hsteps hnames), List.map_append, htexts]
  exact hplace.append (ht.leads_names h)

/-- A step to where no directory stands is a name. -/
theorem exists_name_of_step {place q : Place} {piece : List Char}
    (h : t.step place piece = .ok q) (hnot : t.get? q ≠ some .directory) :
    ∃ name, q = place ++ [name] ∧ t.get? place = some .directory ∧
      Component.ofPiece? piece = some (.name name) := by
  obtain ⟨hplace, rfl⟩ := step_eq_ok_iff.1 h
  cases hread : Component.ofPiece? piece with
  | none => exact absurd (by simpa [hread] using hplace) hnot
  | some c =>
    rw [hread] at hnot
    match c with
    | .name name => exact ⟨name, rfl, hplace, rfl⟩
    | .parent => exact absurd (ht.get?_dropLast hplace) hnot
    | .root | .current => exact absurd hplace hnot

/-- Steps to where no directory stands end in a name, of their own or of a link. -/
theorem exists_name_of_leads {links : Nat} {place q : Place} {pieces : List (List Char)}
    (h : t.Leads links place pieces q) (hne : pieces ≠ []) (hpieces : ∀ piece ∈ pieces, '/' ∉ piece)
    (hnot : t.get? q ≠ some .directory) : ∃ parent name,
      q = parent ++ [name] ∧ t.get? parent = some .directory ∧ IsName name ∧
      (name.toList ∈ pieces ∨ ∃ l ∈ t.links, name.toList ∈ l.2.pieces) := by
  induction h with
  | nil => exact absurd rfl hne
  | @step _ place next _ piece rest taken _ later ih =>
    obtain ⟨hpiece, hrest⟩ := List.forall_mem_cons.1 hpieces
    by_cases hend : rest = []
    · subst hend
      cases later
      obtain ⟨name, hname, hplace, hread⟩ := ht.exists_name_of_step taken hnot
      have hisName : IsName name := Component.isStep_of_ofPiece? hpiece hread
      obtain rfl : name.toList = piece := Component.toList_text hread
      exact ⟨place, name, hname, hplace, hisName, .inl List.mem_cons_self⟩
    · obtain ⟨parent, name, hq, hplace, hname, hsource⟩ := ih hend hrest hnot
      exact ⟨parent, name, hq, hplace, hname, hsource.imp_left (List.mem_cons_of_mem _)⟩
  | @link _ _ next _ piece rest target _ found _ ih =>
    have hslash : ∀ piece ∈ target.pieces ++ rest, '/' ∉ piece := fun piece hmem => by
      rcases List.mem_append.1 hmem with hmem | hmem
      · exact not_slash_of_mem_pieces hmem
      · exact hpieces piece (List.mem_cons_of_mem _ hmem)
    obtain ⟨parent, name, hq, hplace, hname, hsource⟩ :=
      ih (List.append_ne_nil_of_left_ne_nil (Text.splitAt_ne_nil _ _) _) hslash hnot
    refine ⟨parent, name, hq, hplace, hname, ?_⟩
    rcases hsource with hmem | hother
    · rcases List.mem_append.1 hmem with hmem | hmem
      · exact .inr ⟨(next, target), mem_of_lookup found, hmem⟩
      · exact .inl (List.mem_cons_of_mem _ hmem)
    · exact .inr hother

/-- **Where no directory stands a path leads to a name**, of its own or of a link, in a directory
that is there. -/
theorem exists_name_of_resolve {p : Path} {q : Place} (h : t.resolve p = .ok q)
    (hnot : t.get? q ≠ some .directory) : ∃ parent name,
      q = parent ++ [name] ∧ t.get? parent = some .directory ∧ IsName name ∧
      (name.toList ∈ p.pieces ∨ ∃ l ∈ t.links, name.toList ∈ l.2.pieces) :=
  ht.exists_name_of_leads (resolve_eq_ok_iff_leads.1 h).2 (Text.splitAt_ne_nil _ _)
    (fun _ => not_slash_of_mem_pieces) hnot

/-- **Where no directory stands a path names the entry of its last piece**, in a directory that is
there. -/
theorem exists_name_of_resolveEntry {p : Path} {q : Place} (h : t.resolveEntry p = .ok q)
    (hnot : t.get? q ≠ some .directory) : ∃ parent name last,
      q = parent ++ [name] ∧ t.get? parent = some .directory ∧ IsName name ∧
      p.pieces.getLast? = some last ∧ Component.ofPiece? last = some (.name name) := by
  obtain ⟨last, hlast⟩ := exists_getLast?_pieces p
  obtain ⟨-, directory, -, hstep⟩ := (resolveEntry_eq_ok_iff hlast).1 h
  obtain ⟨name, hname, hthere, hread⟩ := ht.exists_name_of_step hstep hnot
  have hslash := not_slash_of_mem_pieces (List.mem_of_getLast? hlast)
  exact ⟨directory, name, last, hname, hthere, Component.isStep_of_ofPiece? hslash hread, hlast,
    hread⟩

/-- **To where no link leads** steps lead by a name of their own. -/
theorem exists_name_of_unlinked {links : Nat} {place q : Place} {pieces : List (List Char)}
    (h : t.Leads links place pieces q) (hne : pieces ≠ []) (hunlinked : t.Unlinked q)
    (hlinks : links ≤ maxLinks) (hnot : t.get? q ≠ some .directory) : ∃ parent name last,
      q = parent ++ [name] ∧ pieces.getLast? = some last ∧
      Component.ofPiece? last = some (.name name) := by
  induction h with
  | nil => exact absurd rfl hne
  | @step _ place next _ piece rest taken _ later ih =>
    by_cases hend : rest = []
    · subst hend
      cases later
      obtain ⟨name, hname, -, hread⟩ := ht.exists_name_of_step taken hnot
      exact ⟨place, name, piece, hname, rfl, hread⟩
    · rw [List.getLast?_cons_of_ne_nil hend]
      exact ih hend hunlinked hlinks hnot
  | @link fewer place next _ piece rest target taken found later ih =>
    by_cases hend : rest = []
    · -- the link itself would lead there
      subst hend
      have hnext : t.get? next ≠ some .directory := fun hthere => by
        rw [ht.link?_eq_none hthere] at found
        cases found
      obtain ⟨name, rfl, -, -⟩ := ht.exists_name_of_step taken hnext
      rw [List.append_nil] at later
      have hfollow := hunlinked.2 _ (mem_of_lookup found)
      rw [List.dropLast_concat] at hfollow
      exact absurd (follow_eq_ok_iff.2 (later.le (Nat.le_of_succ_le hlinks))) hfollow
    · have happend := List.getLast?_append_of_ne_nil target.pieces hend
      rw [List.getLast?_cons_of_ne_nil hend, ← happend]
      exact ih (by simp [hend]) hunlinked (Nat.le_of_succ_le hlinks) hnot

/-- **Pieces that stand for nothing can be left out.** -/
theorem leads_texts {links : Nat} {place q : Place} {before after : List (List Char)}
    (h : t.Leads links place (before ++ after) q) :
    t.Leads links place
      (before ++ (after.filterMap Component.ofPiece?).map (·.text.toList)) q := by
  generalize hpieces : before ++ after = pieces at h
  induction h generalizing before after with
  | nil =>
    obtain ⟨rfl, rfl⟩ := List.append_eq_nil_iff.1 hpieces
    exact .nil
  | @step _ place next _ piece rest taken free _ ih =>
    cases before with
    | cons _ before =>
      rw [List.cons_append] at hpieces
      obtain ⟨rfl, hrest⟩ := List.cons.inj hpieces
      exact .step taken free (ih hrest)
    | nil =>
      obtain rfl : after = piece :: rest := hpieces
      rw [List.nil_append]
      have hrest := ih (show [] ++ rest = rest from rfl)
      cases hread : Component.ofPiece? piece with
      | none =>
        obtain ⟨-, hnext⟩ := step_eq_ok_iff.1 taken
        rw [hread] at hnext
        rwa [List.filterMap_cons_none hread, ← show next = place from hnext]
      | some c =>
        rw [List.filterMap_cons_some hread, List.map_cons, Component.toList_text hread]
        exact .step taken free hrest
  | @link _ place next _ piece rest target taken found _ ih =>
    cases before with
    | cons _ before =>
      rw [List.cons_append] at hpieces
      obtain ⟨rfl, hrest⟩ := List.cons.inj hpieces
      rw [List.cons_append]
      refine .link taken found ?_
      rw [← List.append_assoc]
      exact ih (by rw [List.append_assoc, hrest])
    | nil =>
      obtain rfl : after = piece :: rest := hpieces
      rw [List.nil_append]
      cases hread : Component.ofPiece? piece with
      | none =>
        -- it leads to the directory where it starts, and no link is there
        obtain ⟨hplace, hnext⟩ := step_eq_ok_iff.1 taken
        rw [hread] at hnext
        rw [show next = place from hnext, ht.link?_eq_none hplace] at found
        cases found
      | some c =>
        rw [List.filterMap_cons_some hread, List.map_cons, Component.toList_text hread]
        exact .link taken found (ih rfl)

/-- **A path leads where its steps do.** -/
theorem leads_steps {p : Path} {q : Place} (h : t.resolve p = .ok q) :
    t.Leads maxLinks (t.start p) (p.steps.map (·.text.toList)) q := by
  have hway : t.Leads maxLinks (t.start p) ([] ++ p.pieces) q := (resolve_eq_ok_iff_leads.1 h).2
  exact ht.leads_texts hway

/-- Without names steps lead from a directory to a directory. -/
theorem leads_of_no_names {place : Place} (hplace : t.get? place = some .directory)
    {cs : List Component} (hcs : ∀ c ∈ cs, c.IsStep) (hnames : ∀ name, .name name ∉ cs)
    (links : Nat) : ∃ q, t.Leads links place (cs.map (·.text.toList)) q ∧
      t.get? q = some .directory := by
  induction cs generalizing place with
  | nil => exact ⟨place, .nil, hplace⟩
  | cons c cs ih =>
    obtain ⟨hc, hrest⟩ := List.forall_mem_cons.1 hcs
    have hparent := ht.get?_dropLast hplace
    match c, hc with
    | .name name, _ => exact absurd List.mem_cons_self (hnames name)
    | .parent, _ =>
      obtain ⟨q, hway, hq⟩ := ih hparent hrest fun name hname =>
        hnames name (List.mem_cons_of_mem _ hname)
      refine ⟨q, .step ?_ (ht.link?_eq_none hparent) hway, hq⟩
      rw [step_of_directory hplace]
      rfl

end WellFormed

/-- Where there are no links, names lead further down. -/
theorem Leads.eq_append_names {links : Nat} {place q : Place} {names : List String}
    (h : t.Leads links place (names.map String.toList) q) (hnames : ∀ name ∈ names, IsName name)
    (hfree : ∀ way, way ≠ [] → t.link? (place ++ way) = none) : q = place ++ names := by
  induction names generalizing place with
  | nil =>
    cases h
    simp
  | cons name names ih =>
    obtain ⟨hname, hrest⟩ := List.forall_mem_cons.1 hnames
    have hstep : ∀ {next}, t.step place name.toList = .ok next → next = place ++ [name] := by
      intro next taken
      rw [step_name hname (step_eq_ok_iff.1 taken).1] at taken
      exact (Except.ok.inj taken).symm
    cases h with
    | step taken _ later =>
      obtain rfl := hstep taken
      rw [ih later hrest fun way hway => ?_, List.append_assoc, List.singleton_append]
      rw [List.append_assoc]
      exact hfree _ (by simp)
    | link taken found =>
      obtain rfl := hstep taken
      rw [hfree [name] (by simp)] at found
      cases found

/-! ## Without links -/

section Plain

variable (hlinks : t.links = [])
include hlinks

/-- **Without links there are only steps.** -/
theorem follow_eq_foldlM (links : Nat) (place : Place) (pieces : List (List Char)) :
    t.follow links place pieces = pieces.foldlM t.step place := by
  have hproceed : ∀ onLink, t.proceed onLink place pieces = pieces.foldlM t.step place := by
    intro onLink
    induction pieces generalizing place with
    | nil => rfl
    | cons piece rest ih =>
      rw [List.foldlM_cons]
      cases hstep : t.step place piece with
      | error e => exact proceed_eq_error rest hstep
      | ok next =>
        rw [proceed_cons rest hstep, link?_eq_none_of_links hlinks]
        exact ih next
  cases links <;> exact hproceed _

theorem resolve_eq_foldlM {p : Path} (htext : p.text ≠ "") :
    t.resolve p = p.pieces.foldlM t.step (t.start p) := by
  rw [resolve, if_neg (by simpa using htext), follow_eq_foldlM hlinks]

theorem unlinked_of_links (q : Place) : t.Unlinked q :=
  ⟨link?_eq_none_of_links hlinks q, by simp [hlinks]⟩

/-- **Without links a path names the place that it leads to.** -/
theorem resolveEntry_eq_resolve (p : Path) : t.resolveEntry p = t.resolve p := by
  obtain ⟨last, hlast⟩ := exists_getLast?_pieces p
  obtain ⟨before, hbefore⟩ := List.getLast?_eq_some_iff.1 hlast
  by_cases htext : p.text = ""
  · rw [resolveEntry, resolve, htext]
    rfl
  · rw [resolveEntry, if_neg (by simpa using htext), resolve_eq_foldlM hlinks htext, hbefore,
      List.dropLast_concat, List.getLastD_concat, List.foldlM_append, follow_eq_foldlM hlinks]
    simp

end Plain

end FileTree

end SwiftStyle
