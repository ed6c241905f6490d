import SwiftStyle.Proofs.Source.Lines
import SwiftStyle.Suppression

/-!
# Proofs/Suppression — directives are a matter of the lines

A line with a directive has the marker in it, so contents without the marker have no directive and
need not be looked at line by line (`Suppressions.collect_eq`).  A rule is silenced where some line
silences it (`Line.Silences`), so the directives of a unit add up, and each reaches no further than
its own line and the one below.
-/

namespace SwiftStyle

/-- A line with a directive has the marker in it. -/
theorem Directive.isInfix_of_parse? {line : List Char} {d : Directive} (h : parse? line = some d) :
    marker <:+: line := by
  obtain ⟨⟨before, after⟩, hcut, _⟩ := Option.bind_eq_some_iff.1 h
  exact ⟨before, after, (Text.append_of_splitLast? hcut).symm⟩

namespace Suppressions

/-- **The directives of a unit are those of its lines**, whether or not the marker is looked for
first. -/
theorem collect_eq (unit : SourceUnit) : collect unit = ofLines unit.lines := by
  rw [collect]
  split
  · rfl
  · next hmarker =>
    have hnone : ∀ line ∈ unit.lines, Directive.parse? line.text = none := by
      intro line hline
      refine Option.eq_none_iff_forall_ne_some.2 fun d hd => hmarker ?_
      exact Text.contains_iff_isInfix.2
        ((Directive.isInfix_of_parse? hd).trans (isInfix_of_mem_lineTable hline))
    have hempty : unit.lines.filterMap (fun line =>
        (Directive.parse? line.text).map fun d => (d.target line.index, d.rules)) = [] :=
      List.filterMap_eq_nil_iff.2 fun line hline => by rw [hnone line hline, Option.map_none]
    rw [ofLines, hempty]

end Suppressions

/-! ## Line by line -/

/-- **A line silences a rule on a line**: its directive names the rule, or all, and speaks of that
line. -/
def Line.Silences (line : Line) (target : Nat) (rule : String) : Prop :=
  ∃ d, Directive.parse? line.text = some d ∧ (rule ∈ d.rules ∨ "all" ∈ d.rules) ∧
    (d.scope = .thisLine ∧ line.index = target ∨ d.scope = .nextLine ∧ line.index + 1 = target)

theorem Directive.target_eq_iff {d : Directive} {index target : Nat} :
    d.target index = target ↔
      d.scope = .thisLine ∧ index = target ∨ d.scope = .nextLine ∧ index + 1 = target := by
  rw [Directive.target]
  cases d.scope <;> simp

namespace Suppressions

/-- **A rule is silenced where some line silences it.** -/
theorem isSuppressed_ofLines_iff {lines : List Line} {target : Nat} {rule : String} :
    (ofLines lines).isSuppressed target rule ↔ ∃ line ∈ lines, line.Silences target rule := by
  rw [isSuppressed, List.any_eq_true, ofLines]
  constructor
  · rintro ⟨⟨target', rules⟩, hentry, hnames⟩
    obtain ⟨line, hline, hentry⟩ := List.mem_filterMap.1 hentry
    obtain ⟨d, hd, hpair⟩ := Option.map_eq_some_iff.1 hentry
    obtain ⟨rfl, rfl⟩ := Prod.mk.inj hpair
    simp only [Bool.and_eq_true, Bool.or_eq_true, beq_iff_eq, List.contains_iff_mem] at hnames
    exact ⟨line, hline, d, hd, hnames.2, Directive.target_eq_iff.1 hnames.1⟩
  · rintro ⟨line, hline, d, hd, hnames, htarget⟩
    refine ⟨(d.target line.index, d.rules),
      List.mem_filterMap.2 ⟨line, hline, by rw [hd, Option.map_some]⟩, ?_⟩
    simp only [Bool.and_eq_true, Bool.or_eq_true, beq_iff_eq, List.contains_iff_mem]
    exact ⟨Directive.target_eq_iff.2 htarget, hnames⟩

/-- **Directives add up**: each line answers for itself. -/
theorem isSuppressed_ofLines_eq (lines : List Line) (target : Nat) (rule : String) :
    (ofLines lines).isSuppressed target rule
      = lines.any fun line => (ofLines [line]).isSuppressed target rule := by
  rw [Bool.eq_iff_iff, isSuppressed_ofLines_iff, List.any_eq_true]
  refine exists_congr fun line => and_congr_right fun _ => ?_
  rw [isSuppressed_ofLines_iff]
  simp

theorem isEmpty_ofLines_iff {lines : List Line} :
    (ofLines lines).isEmpty ↔ ∀ line ∈ lines, Directive.parse? line.text = none := by
  rw [isEmpty, ofLines, List.isEmpty_iff, List.filterMap_eq_nil_iff]
  exact forall₂_congr fun _ _ => Option.map_eq_none_iff

/-- **A directive is a matter of the texts of the lines**, one after the other. -/
theorem isSuppressed_lineTable_iff {contents : List Char} {target : Nat} {rule : String} :
    (ofLines (lineTable contents)).isSuppressed target rule ↔
      ∃ i text, ((lineTable contents)[i]?).map Line.text = some text ∧
        Line.Silences ⟨i + 1, 0, ⟨text, .none⟩⟩ target rule := by
  rw [isSuppressed_ofLines_iff]
  constructor
  · rintro ⟨line, hline, hsilences⟩
    obtain ⟨i, hi⟩ := List.mem_iff_getElem?.1 hline
    refine ⟨i, line.text, by rw [hi, Option.map_some], ?_⟩
    rw [← index_of_getElem?_lineTable hi]
    exact hsilences
  · rintro ⟨i, text, htext, hsilences⟩
    obtain ⟨line, hline, rfl⟩ := Option.map_eq_some_iff.1 htext
    rw [← index_of_getElem?_lineTable hline] at hsilences
    exact ⟨line, List.mem_of_getElem? hline, hsilences⟩

/-- **Other lines do not count**: what is silenced on a line depends on its text and on that of the
line above. -/
theorem isSuppressed_lineTable_congr {contents contents' : List Char} {k : Nat}
    (h : ∀ i, i + 1 ≠ k →
      ((lineTable contents')[i]?).map Line.text = ((lineTable contents)[i]?).map Line.text)
    {target : Nat} (hthis : target ≠ k) (hnext : target ≠ k + 1) (rule : String) :
    (ofLines (lineTable contents')).isSuppressed target rule
      = (ofLines (lineTable contents)).isSuppressed target rule := by
  rw [Bool.eq_iff_iff, isSuppressed_lineTable_iff, isSuppressed_lineTable_iff]
  refine exists₂_congr fun i text => and_congr_left fun hsilences => ?_
  obtain ⟨d, _, _, hscope⟩ := hsilences
  have hi : i + 1 ≠ k := by
    rcases hscope with ⟨_, rfl⟩ | ⟨_, rfl⟩
    · exact hthis
    · exact fun he => hnext (congrArg (· + 1) he)
  rw [h i hi]

end Suppressions

end SwiftStyle
