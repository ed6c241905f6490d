import SwiftStyle.Proofs.Files.Excluding
import SwiftStyle.Proofs.Lint.Roots
import SwiftStyle.Proofs.Text.Words

/-!
# Proofs/Lint/Below — leaving out what lies below a directory

A path *lies below* a name when a component of it, and not the last one, is the name
(`Path.LiesBelow`); that is when an ancestor of it ends in the name (`IsCanonical.liesBelow_iff`).

A canonical path is its steps after a separator each, so `/NAME/` stands in it exactly when it lies
below the name (`IsCanonical.isInfix_text_iff`).  The patterns `**/NAME/**` of plain names therefore
leave out what lies below one of them, and not what has the name for a part of its own.
-/

namespace SwiftStyle

namespace Path

/-- **Below a name**: the name is a component, and not the last one. -/
def LiesBelow (name : String) (p : Path) : Prop := name ∈ p.components.dropLast.map Component.text

instance (name : String) (p : Path) : Decidable (p.LiesBelow name) :=
  inferInstanceAs (Decidable (_ ∈ _))

/-- **An ancestor**: its components begin those of the path, which has more. -/
def IsAncestor (q p : Path) : Prop := ∃ rest, rest ≠ [] ∧ p.components = q.components ++ rest

/-- The text of the component that a path ends in. -/
def lastText? (p : Path) : Option String := p.components.getLast?.map Component.text

/-- The components of a canonical path up to some place are those of a canonical path. -/
theorem IsCanonical.exists_components_eq {p : Path} (h : p.IsCanonical)
    {front rest : List Component} (hne : front ≠ []) (hp : p.components = front ++ rest) :
    ∃ q : Path, q.IsCanonical ∧ q.components = front := by
  obtain ⟨steps, hsteps, rfl⟩ := h
  obtain ⟨first, front, rfl⟩ := List.exists_cons_of_ne_nil hne
  rw [components_ofComponents hsteps, List.cons_append, List.cons.injEq] at hp
  obtain ⟨rfl, rfl⟩ := hp
  have hfront : ∀ c ∈ front, c.IsStep := fun c hc => hsteps c (List.mem_append_left rest hc)
  exact ⟨_, ⟨front, hfront, rfl⟩, components_ofComponents hfront⟩

/-- What is not the last component ends an ancestor. -/
theorem IsCanonical.exists_isAncestor {p : Path} (h : p.IsCanonical) {c : Component}
    (hc : c ∈ p.components.dropLast) :
    ∃ q : Path, q.IsCanonical ∧ q.IsAncestor p ∧ q.lastText? = some c.text := by
  obtain ⟨before, after, hcut⟩ := List.append_of_mem hc
  have hne : p.components ≠ [] := by
    intro hnil
    rw [hnil] at hc
    cases hc
  have hp : p.components = (before ++ [c]) ++ (after ++ [p.components.getLast hne]) :=
    (List.dropLast_append_getLast hne).symm.trans (by rw [hcut]; simp)
  obtain ⟨q, hq, hcomponents⟩ := h.exists_components_eq (by simp) hp
  refine ⟨q, hq, ⟨_, by simp, hcomponents ▸ hp⟩, ?_⟩
  rw [lastText?, hcomponents, List.getLast?_concat, Option.map_some]

/-- **A path lies below a name** exactly when an ancestor of it ends in the name. -/
theorem IsCanonical.liesBelow_iff {p : Path} (h : p.IsCanonical) {name : String} :
    p.LiesBelow name ↔ ∃ q : Path, q.IsCanonical ∧ q.IsAncestor p ∧ q.lastText? = some name := by
  constructor
  · intro hbelow
    obtain ⟨c, hc, rfl⟩ := List.mem_map.1 hbelow
    exact h.exists_isAncestor hc
  · rintro ⟨q, -, ⟨rest, hrest, hp⟩, hlast⟩
    obtain ⟨c, hc, rfl⟩ := Option.map_eq_some_iff.1 hlast
    rw [LiesBelow, hp, List.dropLast_append_of_ne_nil hrest]
    exact List.mem_map_of_mem (List.mem_append_left _ (List.mem_of_getLast? hc))

theorem toList_text_ofComponents (steps : List Component) :
    (ofComponents (.root :: steps)).text.toList
      = '/' :: ['/'].intercalate (steps.map (·.text.toList)) := by
  rw [text_ofComponents]
  simp [Function.comp_def]

/-- **A name between separators** stands in a canonical path exactly when the path lies below the
name. -/
theorem IsCanonical.isInfix_text_iff {p : Path} (h : p.IsCanonical) {name : String}
    (hname : '/' ∉ name.toList) :
    '/' :: (name.toList ++ ['/']) <:+: p.text.toList ↔ p.LiesBelow name := by
  obtain ⟨steps, hsteps, rfl⟩ := h
  have hroot : name ≠ Component.root.text := by
    rintro rfl
    exact hname (by decide)
  have hplain : ∀ piece ∈ steps.map (·.text.toList), '/' ∉ piece := by
    rintro _ hpiece
    obtain ⟨c, hc, rfl⟩ := List.mem_map.1 hpiece
    exact Component.not_mem_text (hsteps c hc)
  rw [LiesBelow, components_ofComponents hsteps]
  by_cases hne : steps = []
  · subst hne
    have hshort : ¬ '/' :: (name.toList ++ ['/']) <:+: ['/'] := fun hinfix => by
      simpa using hinfix.length_le
    exact iff_of_false hshort (by simp)
  · rw [toList_text_ofComponents, Text.isInfix_intercalate_iff (by simpa using hne) hplain hname,
      List.dropLast_cons_of_ne_nil hne, List.map_cons, List.mem_cons, or_iff_right hroot,
      ← List.map_dropLast]
    simp only [List.mem_map, String.toList_inj]

end Path

namespace ExcludePattern

/-- The pattern of everything below directories of a name. -/
def belowName (name : String) : String := "**/" ++ name ++ "/**"

theorem toList_belowName (name : String) : (belowName name).toList = below name.toList := by
  simp [belowName, below]

variable {name : String} {p : Path}

/-- **The pattern of a name leaves out what lies below it.** -/
theorem excludes_belowName_iff (hname : IsPlain name.toList) (hp : p.IsCanonical) :
    excludes (belowName name) p.text = true ↔ p.LiesBelow name := by
  have hslash : '/' ∉ name.toList := fun hc => hname.plain '/' hc (by simp)
  rw [excludes_below_iff hname (toList_belowName name) (beq_iff_eq.1 hp.isAbsolute),
    hp.isInfix_text_iff hslash]

/-- **Matching the pattern and finding it inside** come to the same. -/
theorem matchesText_belowName (hname : IsPlain name.toList) (hp : p.IsCanonical) :
    matchesText (belowName name).toList p.text.toList
      = standsInside (belowName name).toList p.text.toList := by
  obtain ⟨rest, htext⟩ := List.head?_eq_some_iff.1 (beq_iff_eq.1 hp.isAbsolute)
  rw [toList_belowName, htext, Bool.eq_iff_iff, matchesText_below_iff hname,
    standsInside_below_iff hname]

end ExcludePattern

namespace Discovery

open ExcludePattern

section Below

variable {d : Discovery} {names : List String} (hnames : ∀ name ∈ names, IsPlain name.toList)
  (hd : d.exclude = names.map belowName)
include hnames hd

theorem isExcluded_iff {p : Path} (hp : p.IsCanonical) :
    d.isExcluded p = true ↔ ∃ name ∈ names, p.LiesBelow name := by
  rw [isExcluded, hd, List.any_map, List.any_eq_true]
  exact exists_congr fun name => and_congr_right fun hname =>
    excludes_belowName_iff (hnames name hname) hp

/-- **Discovery without the patterns, cut down to what lies below none of the names.** -/
theorem discover_eq_filter {t : FileTree} (ht : t.WellFormed) (roots : List Path) :
    d.discover t roots = (discover { d with exclude := [] } t roots).filter fun p =>
      decide (∀ name ∈ names, ¬ p.LiesBelow name) := by
  have hexclude : d.discover t roots = (discover { d with exclude := [] } t roots).filter fun p =>
      d.exclude.all fun pattern => !excludes pattern p.text :=
    discover_exclude (d := { d with exclude := [] }) ht (by simp)
  refine hexclude.trans (List.filter_congr fun p hp => ?_)
  have hbelow := isExcluded_iff hnames hd (isCanonical_of_mem_discover ht hp)
  rw [← List.not_any_eq_all_not, Bool.eq_iff_iff, Bool.not_eq_true', decide_eq_true_eq,
    ← Bool.not_eq_true, ← isExcluded, hbelow]
  simp

end Below

/-- **The patterns of names leave out exactly what lies below them.**  On a canonical path both
tests of the pattern of a name come to the same, and the path is excluded exactly when it lies below
the name.  With no other patterns a path with the right extension is turned down exactly when it
lies below one of the names, and a file discovered without patterns is dropped exactly when an
ancestor of it ends in one; where the steps above a file only contain the names, it is kept. -/
theorem excludes_exactly_below :
    (∀ (name : String) (p : Path), IsPlain name.toList → p.IsCanonical →
      (isExcluded { exclude := [belowName name] } p = true ↔ p.LiesBelow name) ∧
      matchesText (belowName name).toList p.text.toList
        = standsInside (belowName name).toList p.text.toList) ∧
    ∀ (d : Discovery) (names : List String), (∀ name ∈ names, IsPlain name.toList) →
      d.exclude = names.map belowName →
      (∀ p : Path, p.IsCanonical → p.extension? = some d.extension →
        (d.accepts p = false ↔ ∃ name ∈ names, p.LiesBelow name)) ∧
      ∀ t : FileTree, t.WellFormed → ∀ roots : List Path,
        d.discover t roots = ((discover { d with exclude := [] } t roots).filter fun p =>
          decide (∀ name ∈ names, ¬ p.LiesBelow name)) ∧
        ∀ p ∈ discover { d with exclude := [] } t roots,
          (p ∉ d.discover t roots ↔ ∃ name ∈ names, ∃ q : Path,
            q.IsCanonical ∧ q.IsAncestor p ∧ q.lastText? = some name) ∧
          ((∀ name ∈ names, ∀ step ∈ p.components.dropLast,
            name.toList <:+: step.text.toList → step.text ≠ name) → p ∈ d.discover t roots) := by
  refine ⟨fun name p hname hp => ⟨?_, matchesText_belowName hname hp⟩,
    fun d names hnames hd => ⟨fun p hp hextension => ?_, fun t ht roots =>
      ⟨discover_eq_filter hnames hd ht roots, fun p hp => ?_⟩⟩⟩
  · have hone : ∀ other ∈ [name], IsPlain other.toList := by simpa using hname
    rw [isExcluded_iff hone rfl hp]
    simp
  · rw [← isExcluded_iff hnames hd hp, accepts, hextension]
    simp
  · have hcanonical := isCanonical_of_mem_discover ht hp
    have hkept : p ∈ d.discover t roots ↔ ∀ name ∈ names, ¬ p.LiesBelow name := by
      rw [discover_eq_filter hnames hd ht roots, List.mem_filter, decide_eq_true_eq,
        and_iff_right hp]
    constructor
    · simp only [← hcanonical.liesBelow_iff, hkept]
      simp
    · intro hpart
      refine hkept.2 fun name hname hbelow => ?_
      obtain ⟨step, hstep, rfl⟩ := List.mem_map.1 hbelow
      exact hpart _ hname step hstep List.infix_rfl rfl

namespace Below

/-- Directories and files with a name, or with a part of their name, in common. -/
def tree : {t : FileTree // t.WellFormed} where
  val :=
    { entries :=
        [(["w"], .directory), (["w", "MyPods"], .directory),
          (["w", "MyPods", "b.swift"], .file ⟨#[]⟩), (["w", "Pods"], .directory),
          (["w", "Pods", "a.swift"], .file ⟨#[]⟩), (["w", "Pods.swift"], .file ⟨#[]⟩),
          (["w", "src"], .directory), (["w", "src", "Pods"], .directory),
          (["w", "src", "Pods", "Pods.swift"], .file ⟨#[]⟩)]
      workingDirectory := ["w"] }
  property := by decide +kernel

theorem discover_eq : discover {} tree.val [⟨"."⟩]
    = [⟨"/w/MyPods/b.swift"⟩, ⟨"/w/Pods/a.swift"⟩, ⟨"/w/Pods.swift"⟩,
      ⟨"/w/src/Pods/Pods.swift"⟩] :=
  discover_eq_of_increasing (by decide +kernel) (by decide +kernel)

end Below

/-- `MyPods` and `Pods.swift` are not below `Pods`. -/
theorem excludes_exactly_below_pods :
    isExcluded { exclude := ["**/Pods/**"] } ⟨"/w/MyPods/b.swift"⟩ = false ∧
    discover { exclude := ["**/Pods/**"] } Below.tree.val [⟨"."⟩]
      = [⟨"/w/MyPods/b.swift"⟩, ⟨"/w/Pods.swift"⟩] := by
  obtain ⟨hexcluded, hdiscover⟩ := excludes_exactly_below
  have hpattern : belowName "Pods" = "**/Pods/**" := by decide
  have hcanonical : (⟨"/w/MyPods/b.swift"⟩ : Path).IsCanonical :=
    ⟨[.name "w", .name "MyPods", .name "b.swift"], by simp [Path.Component.IsStep, Path.IsName],
      by decide⟩
  obtain ⟨hiff, -⟩ := hexcluded "Pods" _ (by decide) hcanonical
  obtain ⟨-, htree⟩ := hdiscover { exclude := ["**/Pods/**"] } ["Pods"] (by decide) (by decide)
  obtain ⟨hkept, -⟩ := htree Below.tree.val Below.tree.property [⟨"."⟩]
  rw [hpattern] at hiff
  refine ⟨?_, ?_⟩
  · rw [← Bool.not_eq_true, hiff]
    decide +kernel
  · rw [hkept, Below.discover_eq]
    decide +kernel

end Discovery

end SwiftStyle
