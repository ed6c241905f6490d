import Mathlib.Data.List.Chain
import SwiftStyle.Proofs.Index.Turns

/-!
# Proofs/Index/Sessions — one cache from run to run

A session is a list of runs on one cache; between them anything may change but what the cache path
leads to.  A run that succeeds leaves its index in the cache and a run that fails leaves there what
it found, so every run begins on the index of the last one that succeeded
(`Session.load_eq_loaded`).  An entry therefore comes from the last run that wrote its name, or it
was there before the first (`Session.get?_lastOutcome?`).
-/

namespace SwiftStyle

open FileTree

/-- **Runs on one cache**, the earliest first. -/
structure Session (cache : Path) (turns : List Turn) : Prop where
  wellFormed : ∀ r ∈ turns, r.tree.WellFormed
  /-- At first there is no index. -/
  start : ∀ r ∈ turns.head?, r.found? cache = none
  /-- What the cache path leads to does not change between two runs. -/
  undisturbed : turns.IsChain fun r s => s.tree.entry? cache = entry? (r.after cache) cache
  /-- The cache path does not go over the very link that its file replaces. -/
  reaching : ∀ r ∈ turns, ¬(r.tree.withWayTo cache).CutsOff cache

/-- The outcome of the last run that succeeded. -/
def lastOutcome? (cache : Path) (turns : List Turn) : Option IndexOutcome :=
  (turns.filterMap (·.outcome? cache)).getLast?

/-- The index that the first run to succeed found in the cache. -/
def base? (cache : Path) (turns : List Turn) : Option DeclarationIndex :=
  (turns.find? fun r => (r.outcome? cache).isSome).bind (·.found? cache)

/-- **The file that was recorded last for a name**: by a run after which none writes the name. -/
def IsWriter (cache : Path) (turns : List Turn) (name : String) (file : Path) : Prop :=
  ∃ earlier r later, turns = earlier ++ r :: later ∧ r.Writes cache name file ∧
    ∀ s ∈ later, ∀ other, ¬s.Writes cache name other

variable {cache : Path} {turns : List Turn} {r : Turn}

/-! ## From run to run -/

theorem lastOutcome?_concat (cache : Path) (turns : List Turn) (r : Turn) :
    lastOutcome? cache (turns ++ [r]) = (r.outcome? cache).or (lastOutcome? cache turns) := by
  rw [lastOutcome?, lastOutcome?, List.filterMap_append]
  cases h : r.outcome? cache <;> simp [h]

theorem lastOutcome?_eq_none_iff :
    lastOutcome? cache turns = none ↔ ∀ r ∈ turns, r.outcome? cache = none := by
  rw [lastOutcome?, List.getLast?_eq_none_iff, List.filterMap_eq_nil_iff]

namespace Session

/-- The earlier runs of a session are one. -/
theorem of_append {earlier later : List Turn} (h : Session cache (earlier ++ later)) :
    Session cache earlier where
  wellFormed r hr := h.wellFormed r (List.mem_append_left _ hr)
  start r hr := by
    cases earlier with
    | nil => simp at hr
    | cons s earlier => exact h.start r hr
  undisturbed := (List.isChain_append.1 h.undisturbed).1
  reaching r hr := h.reaching r (List.mem_append_left _ hr)

/-- A run begins on what the run before it has left. -/
theorem entry?_eq_after {s : Turn} {earlier : List Turn}
    (h : Session cache (earlier ++ [s] ++ [r])) :
    r.tree.entry? cache = entry? (s.after cache) cache :=
  (List.isChain_append.1 h.undisturbed).2.2 s (by simp) r rfl

theorem load_eq_of_after {s : Turn} {earlier : List Turn} {i : DeclarationIndex}
    (h : Session cache (earlier ++ [s] ++ [r]))
    (hload : DeclarationIndex.load (s.after cache) cache = .loaded i) :
    DeclarationIndex.load r.tree cache = .loaded i := by
  rw [DeclarationIndex.load_eq_loaded_iff] at hload ⊢
  rw [h.entry?_eq_after, hload]

/-- **A run begins on the index of the last run that succeeded.** -/
theorem load_eq_loaded {earlier : List Turn} (h : Session cache (earlier ++ [r]))
    {o : IndexOutcome} (ho : lastOutcome? cache earlier = some o) :
    DeclarationIndex.load r.tree cache = .loaded o.index := by
  induction earlier using List.reverseRecOn generalizing r with
  | nil => simp [lastOutcome?] at ho
  | append_singleton earlier s ih =>
    have hs := h.wellFormed s (by simp)
    rw [lastOutcome?_concat] at ho
    refine h.load_eq_of_after ?_
    cases hout : s.outcome? cache with
    | some o' =>
      rw [hout, Option.some_or] at ho
      obtain rfl := Option.some.inj ho
      exact s.load_after_of_ok hs (h.reaching s (by simp)) hout
    | none =>
      rw [hout, Option.none_or] at ho
      exact s.load_after_of_error hs hout (ih h.of_append ho)

/-- **Until a run succeeds there is no index**, unless a run that failed has uncovered one. -/
theorem found?_eq_none_or {earlier : List Turn} (h : Session cache (earlier ++ [r]))
    (hfailed : ∀ s ∈ earlier, s.outcome? cache = none) :
    r.found? cache = none ∨ ∃ s ∈ earlier, s.tree.Uncovers cache (s.after cache) := by
  induction earlier using List.reverseRecOn generalizing r with
  | nil => exact .inl (h.start r rfl)
  | append_singleton earlier s ih =>
    have hs := h.wellFormed s (by simp)
    rcases ih h.of_append fun t ht => hfailed t (by simp [ht]) with hnone | ⟨t, ht, huncovers⟩
    · rcases s.entry?_after_of_error hs (hfailed s (by simp)) with huncovers | hsame
      · exact .inr ⟨s, by simp, huncovers⟩
      · refine .inl ?_
        rw [Turn.found?, DeclarationIndex.index?_load] at hnone ⊢
        rw [h.entry?_eq_after, hsame, hnone]
    · exact .inr ⟨t, by simp [ht], huncovers⟩

end Session

/-! ## Who wrote a name last -/

theorem base?_concat_of_none (h : lastOutcome? cache turns = none) (r : Turn) {o : IndexOutcome}
    (ho : r.outcome? cache = some o) : base? cache (turns ++ [r]) = r.found? cache := by
  have hnone : turns.find? (fun r => (r.outcome? cache).isSome) = none :=
    List.find?_eq_none.2 fun s hs => by simp [lastOutcome?_eq_none_iff.1 h s hs]
  rw [base?, List.find?_append, hnone]
  simp [ho]

theorem base?_concat_of_some {o : IndexOutcome} (h : lastOutcome? cache turns = some o)
    (r : Turn) : base? cache (turns ++ [r]) = base? cache turns := by
  have hsome : (turns.find? fun r => (r.outcome? cache).isSome).isSome := by
    by_contra hnone
    have hall : ∀ s ∈ turns, s.outcome? cache = none := by simpa using hnone
    rw [lastOutcome?_eq_none_iff.2 hall] at h
    simp at h
  obtain ⟨first, hfirst⟩ := Option.isSome_iff_exists.1 hsome
  rw [base?, base?, List.find?_append, hfirst, Option.some_or]

/-- **The last run writes the name, or it leaves the name to the runs before.** -/
theorem isWriter_concat_iff {name : String} {file : Path} :
    IsWriter cache (turns ++ [r]) name file ↔
      r.Writes cache name file ∨
        (∀ other, ¬r.Writes cache name other) ∧ IsWriter cache turns name file := by
  constructor
  · rintro ⟨earlier, s, later, hsplit, hs, hlater⟩
    rcases List.eq_nil_or_concat' later with rfl | ⟨later, last, rfl⟩
    · obtain ⟨-, hlast⟩ := List.append_inj' hsplit rfl
      obtain ⟨rfl, -⟩ := List.cons.inj hlast
      exact .inl hs
    · rw [← List.cons_append, ← List.append_assoc] at hsplit
      obtain ⟨rfl, hlast⟩ := List.append_inj' hsplit rfl
      obtain ⟨rfl, -⟩ := List.cons.inj hlast
      exact .inr ⟨hlater r (by simp), earlier, s, later, rfl, hs,
        fun t ht => hlater t (List.mem_append_left _ ht)⟩
  · rintro (hr | ⟨hr, earlier, s, later, rfl, hs, hlater⟩)
    · exact ⟨turns, r, [], rfl, hr, by simp⟩
    · refine ⟨earlier, s, later ++ [r], by simp, hs, fun t ht => ?_⟩
      rcases List.mem_append.1 ht with ht | ht
      · exact hlater t ht
      · obtain rfl := List.mem_singleton.1 ht
        exact hr

theorem IsWriter.exists_outcome {name : String} {file : Path}
    (h : IsWriter cache turns name file) : ∃ o, lastOutcome? cache turns = some o := by
  obtain ⟨earlier, r, later, rfl, hr, -⟩ := h
  obtain ⟨o, ho⟩ := hr.exists_outcome
  refine Option.ne_none_iff_exists'.1 fun hnone => ?_
  rw [lastOutcome?_eq_none_iff.1 hnone r (by simp)] at ho
  simp at ho

/-- **The index of the last run that succeeded** answers a name with the file that was recorded last
for it, and otherwise as the index did that the first such run found. -/
theorem Session.get?_lastOutcome? (h : Session cache turns) {o : IndexOutcome}
    (ho : lastOutcome? cache turns = some o) (name : String) :
    (∃ file, IsWriter cache turns name file ∧
      (∀ other, IsWriter cache turns name other → other = file) ∧
      o.index.get? name = some file.text) ∨
    (∀ file, ¬IsWriter cache turns name file) ∧
      o.index.get? name = (base? cache turns).bind (·.get? name) := by
  induction turns using List.reverseRecOn generalizing o with
  | nil => simp [lastOutcome?] at ho
  | append_singleton turns r ih =>
    rw [lastOutcome?_concat] at ho
    simp only [isWriter_concat_iff]
    cases hout : r.outcome? cache with
    | none =>
      -- a run that fails writes nothing
      rw [hout, Option.none_or] at ho
      have hnot : ∀ file, ¬r.Writes cache name file := fun file hfile => by
        obtain ⟨o', ho'⟩ := hfile.exists_outcome
        simp [hout] at ho'
      simp only [hnot, false_or, not_false_eq_true, implies_true, true_and]
      rw [base?_concat_of_some ho]
      exact ih h.of_append ho
    | some o' =>
      rw [hout, Option.some_or] at ho
      obtain rfl := Option.some.inj ho
      rcases r.get?_outcome? hout name with ⟨file, hfile, hunique, hget⟩ | ⟨hnot, hget⟩
      · refine .inl ⟨file, .inl hfile, ?_, hget⟩
        rintro other (hother | ⟨hnot, -⟩)
        · exact hunique other hother
        · exact absurd hfile (hnot file)
      · simp only [hnot, false_or, not_false_eq_true, implies_true, true_and]
        cases hbefore : lastOutcome? cache turns with
        | none =>
          refine .inr ⟨fun file hfile => ?_, ?_⟩
          · obtain ⟨o'', ho''⟩ := hfile.exists_outcome
            simp [hbefore] at ho''
          · rw [base?_concat_of_none hbefore r hout, hget]
        | some before =>
          have hfound : r.found? cache = some before.index := by
            rw [Turn.found?, h.load_eq_loaded hbefore]
            rfl
          rw [base?_concat_of_some hbefore, hget, hfound, Option.bind_some]
          exact ih h.of_append hbefore

/-! ## Names stay -/

/-- The trees of a session before and after each run. -/
def points (cache : Path) (turns : List Turn) : List FileTree :=
  turns.flatMap fun r => [r.tree, r.after cache]

/-- **The names in a cache never go away.** -/
theorem Session.pairwise_points (h : Session cache turns) :
    (points cache turns).Pairwise (Grows cache) := by
  refine List.IsChain.pairwise ?_
  obtain ⟨hwellFormed, -, hundisturbed, hreaching⟩ := h
  induction turns with
  | nil => exact .nil
  | cons r turns ih =>
    have hr : Grows cache r.tree (r.after cache) :=
      r.grows_after (hwellFormed r (by simp)) (hreaching r (by simp))
    have hrest := ih (fun s hs => hwellFormed s (List.mem_cons_of_mem _ hs))
      (List.isChain_of_isChain_cons hundisturbed)
      (fun s hs => hreaching s (List.mem_cons_of_mem _ hs))
    cases turns with
    | nil => exact .cons_cons hr (.singleton _)
    | cons s turns =>
      have hsame := (List.isChain_cons_cons.1 hundisturbed).1
      exact .cons_cons hr (.cons_cons (grows_of_entry?_eq hsame) hrest)

/-! ## The invariant of a cache -/

/-- **What holds of a cache from run to run.** -/
structure Session.IsKept (cache : Path) (turns : List Turn) : Prop where
  /-- Without links a run succeeds exactly when nothing fails from outside and the cache can be
  written to. -/
  succeeding : ∀ r ∈ turns, r.tree.links = [] → ((∃ o, r.outcome? cache = some o) ↔
    (∀ step, r.faults.error? step = none) ∧ r.tree.Writable cache)
  /-- A run that succeeds gives back what it built, and leaves its index in the cache. -/
  written : ∀ r ∈ turns, ∀ o, r.outcome? cache = some o → o = r.built cache ∧
    DeclarationIndex.load (r.after cache) cache = .loaded o.index
  /-- After a run that succeeded every run begins on the index of the last such run; there is no
  full rescan, and a run that fails leaves this index. -/
  continued : ∀ earlier r later, turns = earlier ++ r :: later →
    ∀ o, lastOutcome? cache earlier = some o →
      DeclarationIndex.load r.tree cache = .loaded o.index ∧ (r.built cache).fullRescan = false ∧
      (r.outcome? cache = none → DeclarationIndex.load (r.after cache) cache = .loaded o.index)
  /-- Names never go away. -/
  growing : (points cache turns).Pairwise (Grows cache)
  /-- The entries of the cache are those that were recorded last for their names, and of other names
  those that the first run to succeed has found. -/
  entries : ∀ earlier later, turns = earlier ++ later → ∀ o, lastOutcome? cache earlier = some o →
    ∀ name path, (name, path) ∈ o.index.entries ↔
      (∃ file, IsWriter cache earlier name file ∧ path = file.text) ∨
      (∀ file, ¬IsWriter cache earlier name file) ∧
        ∃ i, base? cache earlier = some i ∧ (name, path) ∈ i.entries
  /-- The first run to succeed finds no index, unless a run before it has uncovered one. -/
  found : ∀ i, base? cache turns = some i → ∃ earlier r later, turns = earlier ++ r :: later ∧
    (∀ s ∈ earlier ++ [r], s.outcome? cache = none) ∧ r.tree.Uncovers cache (r.after cache)

theorem Session.mem_entries_iff (h : Session cache turns) {o : IndexOutcome}
    (ho : lastOutcome? cache turns = some o) {name path : String} :
    (name, path) ∈ o.index.entries ↔
      (∃ file, IsWriter cache turns name file ∧ path = file.text) ∨
      (∀ file, ¬IsWriter cache turns name file) ∧
        ∃ i, base? cache turns = some i ∧ (name, path) ∈ i.entries := by
  simp only [DeclarationIndex.mem_entries_iff]
  rcases h.get?_lastOutcome? ho name with ⟨file, hfile, hunique, hget⟩ | ⟨hnot, hget⟩
  · rw [hget]
    constructor
    · intro hpath
      exact .inl ⟨file, hfile, (Option.some.inj hpath).symm⟩
    · rintro (⟨other, hother, rfl⟩ | ⟨hnot, -⟩)
      · rw [hunique other hother]
      · exact absurd hfile (hnot file)
  · simp only [hnot, false_and, exists_false, false_or, not_false_eq_true, implies_true, true_and]
    rw [hget, Option.bind_eq_some_iff]

/-- The first run to succeed. -/
theorem exists_of_base? {i : DeclarationIndex} (h : base? cache turns = some i) :
    ∃ earlier r later, turns = earlier ++ r :: later ∧ r.found? cache = some i ∧
      ∀ s ∈ earlier, s.outcome? cache = none := by
  obtain ⟨r, hr, hfound⟩ := Option.bind_eq_some_iff.1 h
  obtain ⟨-, earlier, later, rfl, hearlier⟩ := List.find?_eq_some_iff_append.1 hr
  exact ⟨earlier, r, later, rfl, hfound, fun s hs => by simpa using hearlier s hs⟩

/-- **A cache is kept from run to run.** -/
theorem Session.isKept (h : Session cache turns) : Session.IsKept cache turns where
  succeeding r hr hlinks := by
    simp only [Turn.outcome?_eq_some_iff]
    exact r.builder.exists_run_eq_ok_iff ⟨h.wellFormed r hr, hlinks⟩ r.extractor r.faults cache
  written r hr o ho :=
    ⟨r.eq_built ho, r.load_after_of_ok (h.wellFormed r hr) (h.reaching r hr) ho⟩
  continued := by
    rintro earlier r later rfl o ho
    have hr : Session cache (earlier ++ [r]) := (List.append_cons earlier r later ▸ h).of_append
    have hload := hr.load_eq_loaded ho
    refine ⟨hload, ?_, fun hout => r.load_after_of_error (h.wellFormed r (by simp)) hout hload⟩
    rw [Turn.built, Turn.found?, hload]
    rfl
  growing := h.pairwise_points
  entries := by
    rintro earlier later rfl o ho name path
    exact h.of_append.mem_entries_iff ho
  found := by
    intro i hi
    obtain ⟨earlier, r, later, rfl, hfound, hearlier⟩ := exists_of_base? hi
    have hr : Session cache (earlier ++ [r]) := (List.append_cons earlier r later ▸ h).of_append
    rcases hr.found?_eq_none_or hearlier with hnone | ⟨s, hs, huncovers⟩
    · simp [hnone] at hfound
    · obtain ⟨before, between, rfl⟩ := List.append_of_mem hs
      refine ⟨before, s, between ++ r :: later, by simp, fun u hu => hearlier u ?_, huncovers⟩
      rcases List.mem_append.1 hu with hu | hu
      · exact List.mem_append_left _ hu
      · simp [List.mem_singleton.1 hu]

/-! ## Three runs -/

namespace Three

def path : Path := ⟨"/cache/index.json"⟩

def index : DeclarationIndex := .ofList [("P", "/a.swift")]

/-- At first there is one file and no cache. -/
def before : {t : FileTree // t.WellFormed} where
  val.entries := [(["a.swift"], .file ⟨#[80]⟩)]
  property := by decide +kernel

/-- Later the file has moved. -/
def moved : {t : FileTree // t.WellFormed} where
  val.entries := [(["b.swift"], .file ⟨#[80]⟩), (["cache"], .directory),
    (["cache", "index.json"], .file index.text.toUTF8)]
  property := by decide +kernel

def first : Turn where
  builder := { fallback := [⟨"."⟩] }
  extractor := IndexBuilder.Conflict.extractor
  faults := {}
  tree := before.val

/-- The cache cannot be replaced. -/
def second : Turn where
  builder := { changed := [⟨"b.swift"⟩], fallback := [⟨"."⟩] }
  extractor := IndexBuilder.Conflict.extractor
  faults.error?
    | .rename => some .busy
    | _ => none
  tree := moved.val

def third : Turn := { second with faults := {} }

theorem built_first : first.built path = ⟨index, [⟨"/a.swift"⟩], true, []⟩ := by
  have hfiles : first.builder.discovery.discover first.tree (first.builder.roots none)
      = [⟨"/a.swift"⟩] :=
    Discovery.discover_eq_of_increasing (by decide +kernel) (by decide +kernel)
  rw [Turn.built_eq (by decide +kernel) hfiles]
  simp only [IndexOutcome.mk.injEq]
  decide +kernel

theorem built_second :
    second.built path = ⟨.ofList [("P", "/b.swift")], [⟨"/b.swift"⟩], false, []⟩ := by
  have hfiles : second.builder.discovery.discover second.tree (second.builder.roots (some index))
      = [⟨"/b.swift"⟩] :=
    Discovery.discover_eq_of_increasing (by decide +kernel) (by decide +kernel)
  rw [Turn.built_eq (by decide +kernel) hfiles]
  simp only [IndexOutcome.mk.injEq]
  decide +kernel

theorem session : Session path [first, second, third] where
  wellFormed r hr := by
    simp only [List.mem_cons, List.not_mem_nil, or_false] at hr
    rcases hr with rfl | rfl | rfl
    · exact before.property
    · exact moved.property
    · exact moved.property
  start r hr := by
    obtain rfl := Option.some.inj hr
    decide +kernel
  undisturbed := by
    have hfirst : entry? second.tree path = entry? (first.after path) path := by
      rw [Turn.after_eq built_first]
      decide +kernel
    have hsecond : entry? third.tree path = entry? (second.after path) path := by
      rw [Turn.after_eq built_second]
      decide +kernel
    exact .cons_cons hfirst (.cons_cons hsecond (.singleton _))
  reaching r hr := by
    simp only [List.mem_cons, List.not_mem_nil, or_false] at hr
    rcases hr with rfl | rfl | rfl
    · exact not_cutsOff_of_links (by decide +kernel) path
    · exact not_cutsOff_of_links (by decide +kernel) path
    · exact not_cutsOff_of_links (by decide +kernel) path

end Three

/-- A name whose file has moved: the run that cannot write leaves the old entry, and the next one
records the new file. -/
theorem Session.isKept_three :
    Session Three.path [Three.first, Three.second, Three.third] ∧
    [Three.first, Three.second, Three.third].map (·.outcome? Three.path)
      = [some ⟨Three.index, [⟨"/a.swift"⟩], true, []⟩, none,
        some ⟨.ofList [("P", "/b.swift")], [⟨"/b.swift"⟩], false, []⟩] ∧
    Session.IsKept Three.path [Three.first, Three.second, Three.third] := by
  refine ⟨Three.session, ?_, Three.session.isKept⟩
  have hthird : Three.third.built Three.path = Three.second.built Three.path := rfl
  have hfirst := Turn.outcome?_eq Three.built_first
  have hsecond := Turn.outcome?_eq Three.built_second
  rw [if_pos (by decide +kernel)] at hfirst
  rw [if_neg (by decide +kernel)] at hsecond
  rw [List.map_cons, List.map_cons, List.map_singleton, hfirst, hsecond,
    Turn.outcome?_eq (hthird.trans Three.built_second), if_pos (by decide +kernel)]

/-! ## Paths that go back -/

namespace GoingBack

def path : Path := ⟨"x/../index.json"⟩

/-- One file, and no cache. -/
def fresh : {t : FileTree // t.WellFormed} where
  val.entries := [(["a.swift"], .file ⟨#[80]⟩)]
  property := by decide +kernel

def run : Turn where
  builder := { fallback := [⟨"."⟩] }
  extractor := IndexBuilder.Conflict.extractor
  faults := {}
  tree := fresh.val

/-- The same run after it, when the directory that the path goes back over is dropped. -/
def rerun : Turn := { run with tree := (run.after path).eraseAll ["x"] }

/-- An old index, and the path does not lead there yet. -/
def old : {t : FileTree // t.WellFormed} where
  val.entries := [(["index.json"], .file (DeclarationIndex.ofList [("Q", "/q.swift")]).text.toUTF8)]
  property := by decide +kernel

/-- A run on no files, that makes the directory and fails. -/
def failing : Turn where
  builder := {}
  extractor := IndexBuilder.Conflict.extractor
  faults.error?
    | .create => some .busy
    | _ => none
  tree := old.val

/-- The next run succeeds. -/
def next : Turn := { failing with tree := failing.after path, faults := {} }

theorem built_run :
    run.built path = ⟨.ofList [("P", "/a.swift")], [⟨"/a.swift"⟩], true, []⟩ := by
  have hfiles : run.builder.discovery.discover run.tree (run.builder.roots none)
      = [⟨"/a.swift"⟩] :=
    Discovery.discover_eq_of_increasing (by decide +kernel) (by decide +kernel)
  rw [Turn.built_eq (by decide +kernel) hfiles]
  simp only [IndexOutcome.mk.injEq]
  decide +kernel

theorem built_failing : failing.built path = ⟨.empty, [], true, []⟩ := by
  have hfiles : failing.builder.discovery.discover failing.tree (failing.builder.roots none) = [] :=
    Discovery.discover_eq_of_increasing (by decide +kernel) (by decide +kernel)
  rw [Turn.built_eq (by decide +kernel) hfiles]
  simp only [IndexOutcome.mk.injEq]
  decide +kernel

theorem built_next : next.built path = ⟨.ofList [("Q", "/q.swift")], [], false, []⟩ := by
  have hfound : next.found? path = some (.ofList [("Q", "/q.swift")]) := by
    rw [Turn.found?, next, Turn.after_eq built_failing]
    decide +kernel
  have hfiles : next.builder.discovery.discover next.tree
      (next.builder.roots (some (.ofList [("Q", "/q.swift")]))) = [] :=
    Discovery.discover_eq_of_increasing rfl .nil
  rw [Turn.built_eq hfound hfiles]
  simp only [IndexOutcome.mk.injEq]
  decide +kernel

/-- A path over the link to the link. -/
def overLink : Path := ⟨"l/../l"⟩

/-- A run on no files. -/
def cutting : Turn where
  builder := {}
  extractor := IndexBuilder.Conflict.extractor
  faults := {}
  tree := DeclarationIndex.Linked.tree.val

theorem built_cutting : cutting.built overLink = ⟨.empty, [], true, []⟩ := by
  have hfiles : cutting.builder.discovery.discover cutting.tree (cutting.builder.roots none) = [] :=
    Discovery.discover_eq_of_increasing (by decide +kernel) (by decide +kernel)
  rw [Turn.built_eq (by decide +kernel) hfiles]
  simp only [IndexOutcome.mk.injEq]
  decide +kernel

end GoingBack

/-- **The file of a cache may be out of reach, or an old one come into reach**, when the path goes
back over a directory that is not there.  Without that directory a run finds no index, though the
file is still what the run before has written; and a run that fails may have made the directory, so
that the next one builds on entries that no run has recorded.  The file is also out of reach when it
has taken the place of a link that the path goes over. -/
theorem Session.cache_out_of_reach :
    (GoingBack.run.found? GoingBack.path = none ∧
      GoingBack.run.outcome? GoingBack.path
        = some ⟨.ofList [("P", "/a.swift")], [⟨"/a.swift"⟩], true, []⟩ ∧
      GoingBack.rerun.tree.get? ["index.json"]
        = FileTree.get? (GoingBack.run.after GoingBack.path) ["index.json"] ∧
      (GoingBack.rerun.built GoingBack.path).fullRescan = true) ∧
    (GoingBack.failing.found? GoingBack.path = none ∧
      GoingBack.failing.outcome? GoingBack.path = none ∧
      GoingBack.next.tree = GoingBack.failing.after GoingBack.path ∧
      GoingBack.next.outcome? GoingBack.path
        = some ⟨.ofList [("Q", "/q.swift")], [], false, []⟩) ∧
    GoingBack.cutting.found? GoingBack.overLink = none ∧
      GoingBack.cutting.outcome? GoingBack.overLink = some ⟨.empty, [], true, []⟩ ∧
      (DeclarationIndex.load (GoingBack.cutting.after GoingBack.overLink) GoingBack.overLink).index?
        = none := by
  refine ⟨⟨by decide +kernel, ?_, ?_, ?_⟩, ⟨by decide +kernel, ?_, rfl, ?_⟩,
    by decide +kernel, ?_, ?_⟩
  · rw [Turn.outcome?_eq GoingBack.built_run, if_pos (by decide +kernel)]
  · rw [GoingBack.rerun, Turn.after_eq GoingBack.built_run]
    decide +kernel
  · have hfound : GoingBack.rerun.found? GoingBack.path = none := by
      rw [Turn.found?, GoingBack.rerun, Turn.after_eq GoingBack.built_run]
      decide +kernel
    rw [Turn.built, hfound]
    rfl
  · rw [Turn.outcome?_eq GoingBack.built_failing, if_neg (by decide +kernel)]
  · rw [Turn.outcome?_eq GoingBack.built_next, GoingBack.next,
      Turn.after_eq GoingBack.built_failing, if_pos (by decide +kernel)]
  · rw [Turn.outcome?_eq GoingBack.built_cutting, if_pos (by decide +kernel)]
  · rw [Turn.after_eq GoingBack.built_cutting]
    decide +kernel

end SwiftStyle
