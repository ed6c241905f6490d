import Mathlib.Data.Finset.Card
import Mathlib.Data.List.Flatten
import SwiftStyle.Rules.MultilineArguments

/-!
# Proofs/Rules/Arguments — which arguments of a call are reported

The arguments of a call may all begin on one line, or on a line each, and a placement may ask for
more (`Placement.Accepts`).  If they do not, the first argument is reported when its line will not
do (`Placement.Wants`), and every later one on whose line an earlier one begins (`latecomers`).  The
check goes through the arguments with a list of the lines it has seen; this list stands for the
arguments before, in whatever order it holds their lines (`crowded_eq_filter`).
-/

namespace SwiftStyle

namespace Placement

/-- Line `first` will do for the first argument of a call on line `call`. -/
def Wants : Placement → (call first : Nat) → Prop
  | anyLine, _, _ => True
  | sameLine, call, first => first = call
  | nextLine, call, first => first ≠ call

instance (p : Placement) (call first : Nat) : Decidable (p.Wants call first) :=
  match p with
  | anyLine => inferInstanceAs (Decidable True)
  | sameLine => inferInstanceAs (Decidable (first = call))
  | nextLine => inferInstanceAs (Decidable (first ≠ call))

/-- **The arguments of a call on line `call` are accepted**: they begin on one line, or on a line
each. -/
def Accepts : Placement → (call : Nat) → (arguments : List Position) → Prop
  | anyLine, _, arguments =>
      (∀ a ∈ arguments, ∀ b ∈ arguments, a.line = b.line) ∨ (arguments.map Position.line).Nodup
  | sameLine, call, arguments =>
      (∀ a ∈ arguments, a.line = call) ∨
        (arguments.map Position.line).Nodup ∧
          ∀ first, arguments.head? = some first → first.line = call
  | nextLine, call, arguments =>
      (∀ a ∈ arguments, ∀ b ∈ arguments, a.line = b.line) ∨
        (arguments.map Position.line).Nodup ∧
          ∀ first, arguments.head? = some first → first.line ≠ call

theorem misplaced_iff {p : Placement} {call first : Nat} :
    p.misplaced call first = true ↔ ¬p.Wants call first := by
  cases p <;> simp [misplaced, Wants]

end Placement

namespace MultilineArguments

/-- **The arguments on whose line an earlier one begins.** -/
def latecomers (arguments : List Position) : List Position :=
  (arguments.zipIdx.filter fun entry =>
    (arguments.take entry.2).any (·.line == entry.1.line)).map Prod.fst

/-- The first argument, if its line will not do. -/
def strays (placement : Placement) (call : Nat) (arguments : List Position) : List Position :=
  (arguments.take 1).filter fun first => ¬placement.Wants call first.line

/-- **What a call on line `call` is to report of its arguments**: nothing if they are accepted, and
otherwise the first one if its line will not do, and those that come late. -/
structure Reports (placement : Placement) (call : Nat) (arguments reported : List Position) :
    Prop where
  silent : reported = [] ↔ placement.Accepts call arguments
  listed : reported ≠ [] → reported = strays placement call arguments ++ latecomers arguments
  counted : reported ≠ [] → reported.length + (arguments.map Position.line).toFinset.card
    = arguments.length +
      if ∃ first ∈ arguments.head?, ¬placement.Wants call first.line then 1 else 0

/-! ## Lines that are taken -/

/-- **The lines that were seen stand for the arguments before.** -/
theorem crowded_eq_filter {occupied : List Nat} {earlier : List Position}
    (h : ∀ line, line ∈ occupied ↔ ∃ a ∈ earlier, a.line = line) (positions : List Position) :
    crowded occupied positions = ((positions.zipIdx earlier.length).filter fun entry =>
      ((earlier ++ positions).take entry.2).any (·.line == entry.1.line)).map Prod.fst := by
  induction positions generalizing occupied earlier with
  | nil => rfl
  | cons p rest ih =>
    have hp : ((earlier ++ p :: rest).take earlier.length).any (·.line == p.line)
        = occupied.contains p.line := by
      rw [List.take_left, Bool.eq_iff_iff, List.contains_iff_mem, h, List.any_eq_true]
      simp only [beq_iff_eq]
    have hrest : ∀ occupied' : List Nat,
        (∀ line, line ∈ occupied' ↔ line = p.line ∨ line ∈ occupied) →
        crowded occupied' rest = ((rest.zipIdx (earlier.length + 1)).filter fun entry =>
          ((earlier ++ p :: rest).take entry.2).any (·.line == entry.1.line)).map Prod.fst := by
      intro occupied' hoccupied
      have hseen : ∀ line, line ∈ occupied' ↔ ∃ a ∈ earlier ++ [p], a.line = line := by
        intro line
        rw [hoccupied, h]
        simp [or_and_right, exists_or, or_comm, eq_comm]
      simpa using ih hseen
    rw [crowded, List.zipIdx_cons, List.filter_cons, hp]
    split
    · next hmem =>
      rw [List.map_cons, hrest occupied fun line => ?_]
      have := List.contains_iff_mem.1 hmem
      exact ⟨.inr, fun hline => hline.elim (fun heq => heq ▸ this) id⟩
    · exact hrest _ fun line => List.mem_cons

theorem crowded_nil_eq (positions : List Position) :
    crowded [] positions = latecomers positions := by
  have hseen : ∀ line, line ∈ ([] : List Nat) ↔ ∃ a ∈ ([] : List Position), a.line = line := by
    simp
  exact crowded_eq_filter hseen positions

theorem crowded_eq_latecomers (first : Position) (rest : List Position) :
    crowded [first.line] rest = latecomers (first :: rest) :=
  crowded_nil_eq (first :: rest)

/-- **Nobody comes late** when the arguments begin on a line each, and on none that is taken. -/
theorem crowded_eq_nil_iff {occupied : List Nat} {positions : List Position} :
    crowded occupied positions = [] ↔
      (positions.map Position.line).Nodup ∧ ∀ p ∈ positions, p.line ∉ occupied := by
  fun_induction crowded occupied positions with
  | case1 => simp
  | case2 occupied p rest hp ih =>
    refine iff_of_false (List.cons_ne_nil _ _) fun h => ?_
    exact h.2 p List.mem_cons_self (List.contains_iff_mem.1 hp)
  | case3 occupied p rest hp ih =>
    rw [List.contains_iff_mem] at hp
    rw [ih, List.map_cons, List.nodup_cons, List.mem_map, List.forall_mem_cons]
    simp only [List.mem_cons, not_or, forall_and, not_exists, not_and]
    constructor
    · rintro ⟨hnodup, hne, hfree⟩
      exact ⟨⟨hne, hnodup⟩, hp, hfree⟩
    · rintro ⟨⟨hne, hnodup⟩, -, hfree⟩
      exact ⟨hnodup, hne, hfree⟩

/-- **Every argument takes a line or comes late**, and never both. -/
theorem length_crowded_add_card (occupied : List Nat) (positions : List Position) :
    (crowded occupied positions).length
      + ((positions.map Position.line).toFinset \ occupied.toFinset).card = positions.length := by
  fun_induction crowded occupied positions with
  | case1 => simp
  | case2 occupied p rest hp ih =>
    have hmem : p.line ∈ occupied.toFinset := List.mem_toFinset.2 (List.contains_iff_mem.1 hp)
    rw [List.map_cons, List.toFinset_cons, Finset.insert_sdiff_of_mem _ hmem, List.length_cons,
      List.length_cons]
    omega
  | case3 occupied p rest hp ih =>
    have hmem : p.line ∉ occupied.toFinset :=
      fun h => hp (List.contains_iff_mem.2 (List.mem_toFinset.1 h))
    have hline : (insert p.line (rest.map Position.line).toFinset) \ occupied.toFinset
        = insert p.line ((rest.map Position.line).toFinset \ (p.line :: occupied).toFinset) := by
      rw [List.toFinset_cons, ← Finset.insert_sdiff_insert,
        Finset.sdiff_insert_insert_of_mem_of_notMem (Finset.mem_insert_self _ _) hmem]
    have hfree : p.line ∉ (rest.map Position.line).toFinset \ (p.line :: occupied).toFinset := by
      simp
    rw [List.map_cons, List.toFinset_cons, hline, Finset.card_insert_of_notMem hfree,
      List.length_cons]
    omega

/-! ## One call -/

/-- Arguments that all begin on one line, and on that of the call if this is asked for. -/
def Tolerates (placement : Placement) (call : Nat) (arguments : List Position) : Prop :=
  (∀ a ∈ arguments, ∀ b ∈ arguments, a.line = b.line) ∧
    (placement = .sameLine → ∀ a ∈ arguments, a.line = call)

theorem accepts_iff {placement : Placement} {call : Nat} {arguments : List Position} :
    placement.Accepts call arguments ↔ Tolerates placement call arguments ∨
      (arguments.map Position.line).Nodup ∧ strays placement call arguments = [] := by
  have hstrays : strays placement call arguments = [] ↔
      ∀ first, arguments.head? = some first → placement.Wants call first.line := by
    cases arguments <;> simp [strays]
  rw [hstrays, Tolerates]
  cases placement with
  | anyLine => simp [Placement.Accepts, Placement.Wants]
  | nextLine => simp [Placement.Accepts, Placement.Wants]
  | sameLine =>
    have hcall : (∀ a ∈ arguments, a.line = call) →
        ∀ a ∈ arguments, ∀ b ∈ arguments, a.line = b.line :=
      fun h a ha b hb => (h a ha).trans (h b hb).symm
    simp only [Placement.Accepts, Placement.Wants, forall_const]
    rw [and_iff_right_of_imp hcall]

/-- What is tested of the first argument and the others. -/
theorem tolerates_cons_iff {placement : Placement} {call : Nat} {first : Position}
    {rest : List Position} :
    Tolerates placement call (first :: rest) ↔
      (rest.all (·.line == first.line) && placement.acceptsSingleLine call first.line) = true := by
  have hline : (∀ a ∈ first :: rest, ∀ b ∈ first :: rest, a.line = b.line) ↔
      ∀ a ∈ rest, a.line = first.line := by
    constructor
    · exact fun h a ha => h a (List.mem_cons_of_mem _ ha) first List.mem_cons_self
    · intro h
      have hfirst : ∀ a ∈ first :: rest, a.line = first.line :=
        List.forall_mem_cons.2 ⟨rfl, h⟩
      exact fun a ha b hb => (hfirst a ha).trans (hfirst b hb).symm
  rw [Tolerates, hline, Bool.and_eq_true, List.all_eq_true]
  simp only [beq_iff_eq]
  refine and_congr_right fun h => ?_
  cases placement with
  | anyLine => simp [Placement.acceptsSingleLine]
  | nextLine => simp [Placement.acceptsSingleLine]
  | sameLine =>
    rw [Placement.acceptsSingleLine, beq_iff_eq, imp_iff_right rfl, List.forall_mem_cons]
    exact and_iff_left_of_imp fun hfirst a ha => (h a ha).trans hfirst

/-- **The check of one call**: nothing when its arguments are tolerated, and otherwise the first one
if it is out of place, and those that come late. -/
theorem offending_cases (placement : Placement) (call : Nat) (arguments : List Position) :
    Tolerates placement call arguments ∧ offending placement call arguments = [] ∨
      ¬Tolerates placement call arguments ∧ offending placement call arguments
        = strays placement call arguments ++ latecomers arguments := by
  cases arguments with
  | nil => exact .inl ⟨⟨by simp, by simp⟩, rfl⟩
  | cons first rest =>
    rw [tolerates_cons_iff, offending]
    split
    · next h => exact .inl ⟨h, rfl⟩
    · next h =>
      refine .inr ⟨h, ?_⟩
      rw [crowded_eq_latecomers, strays, List.take_one, List.head?_cons, Option.toList_some,
        List.filter_singleton]
      simp [Placement.misplaced_iff]

theorem latecomers_eq_nil_iff {arguments : List Position} :
    latecomers arguments = [] ↔ (arguments.map Position.line).Nodup := by
  rw [← crowded_nil_eq, crowded_eq_nil_iff]
  simp

theorem length_latecomers_add_card (arguments : List Position) :
    (latecomers arguments).length + (arguments.map Position.line).toFinset.card
      = arguments.length := by
  rw [← crowded_nil_eq]
  simpa using length_crowded_add_card [] arguments

theorem length_strays (placement : Placement) (call : Nat) (arguments : List Position) :
    (strays placement call arguments).length =
      if ∃ first ∈ arguments.head?, ¬placement.Wants call first.line then 1 else 0 := by
  cases arguments with
  | nil => simp [strays]
  | cons first rest =>
    by_cases h : placement.Wants call first.line <;> simp [strays, h]

/-- **The check of a call reports what it is to report.** -/
theorem offending_reports (placement : Placement) (call : Nat) (arguments : List Position) :
    Reports placement call arguments (offending placement call arguments) := by
  rcases offending_cases placement call arguments with ⟨htolerates, hnone⟩ | ⟨htolerates, hlist⟩
  · have haccepts := accepts_iff.2 (.inl htolerates)
    exact ⟨iff_of_true hnone haccepts, absurd hnone, absurd hnone⟩
  · refine ⟨?_, fun _ => hlist, fun _ => ?_⟩
    · rw [hlist, List.append_eq_nil_iff, latecomers_eq_nil_iff, accepts_iff,
        or_iff_right htolerates, and_comm]
    · rw [hlist, List.length_append, ← length_strays, ← length_latecomers_add_card arguments]
      omega

/-- **No placement reports less than the one that asks for nothing.** -/
theorem offending_anyLine_sublist (placement : Placement) (call : Nat) (arguments : List Position) :
    (offending .anyLine call arguments).Sublist (offending placement call arguments) := by
  rcases offending_cases .anyLine call arguments with ⟨_, hnone⟩ | ⟨hany, hlate⟩
  · rw [hnone]
    exact List.nil_sublist _
  · have hstrict : ¬Tolerates placement call arguments := fun h => hany ⟨h.1, by simp⟩
    obtain ⟨h, _⟩ | ⟨_, hlist⟩ := offending_cases placement call arguments
    · exact absurd h hstrict
    · rw [hlate, hlist, strays]
      simp [Placement.Wants]

/-! ## A unit -/

theorem offendingIn_anyLine_sublist (lines : List Line) (placement : Placement) (node : Node) :
    (offendingIn lines .anyLine node).Sublist (offendingIn lines placement node) := by
  unfold offendingIn
  split
  · split
    · exact .refl _
    · exact offending_anyLine_sublist _ _ _
  · exact .refl _

theorem offendingIn_eq_nil {unit : SourceUnit} {node : Node}
    (h : node.kind ≠ .call ∨ unit.position? node.offset = none) (placement : Placement) :
    offendingIn unit.lines placement node = [] := by
  unfold offendingIn
  split
  · next hkind =>
    rw [show positionIn? unit.lines node.offset = none from h.resolve_left (not_not_intro hkind)]
  · rfl

theorem findings_anyLine_sublist (unit : SourceUnit) {options : Options}
    (h : placementOf options = .anyLine) (options' : Options) :
    (findings unit options).Sublist (findings unit options') := by
  refine List.Sublist.map _ (List.Sublist.flatMap_right _ fun node _ => ?_)
  rw [h]
  exact offendingIn_anyLine_sublist _ _ _

/-- **The rule reports what its definition says.**  Its findings are what the nodes report, in the
order of a walk: a call with a position reports what it is to report, of those of its arguments that
have a position, and any other node nothing.  What is reported under the placement that asks for
nothing is reported under every other. -/
theorem validate_exact (unit : SourceUnit) :
    (∀ settings, rule.validate unit settings = .ok ((unit.tree.walk.flatMap
      (offendingIn unit.lines (placementOf settings.options))).map (finding unit.path))) ∧
    (∀ (placement : Placement) (call : Node) (position : Position), call.kind = .call →
      unit.position? call.offset = some position →
      Reports placement position.line
        ((call.children.filter (·.kind = .argument)).filterMap (unit.position? ·.offset))
        (offendingIn unit.lines placement call)) ∧
    (∀ (placement : Placement) (node : Node),
      node.kind ≠ .call ∨ unit.position? node.offset = none →
      offendingIn unit.lines placement node = []) ∧
    (∀ (placement : Placement) (node : Node),
      (offendingIn unit.lines .anyLine node).Sublist (offendingIn unit.lines placement node)) ∧
    ∀ options options', placementOf options = .anyLine →
      (findings unit options).Sublist (findings unit options') := by
  refine ⟨fun settings => rfl, fun placement call position hkind hposition => ?_,
    fun placement node h => offendingIn_eq_nil h placement, offendingIn_anyLine_sublist unit.lines,
    fun options options' h => findings_anyLine_sublist unit h options'⟩
  rw [offendingIn, if_pos hkind,
    show positionIn? unit.lines call.offset = some position from hposition]
  exact offending_reports placement position.line _

namespace Mixed

/-- A call with two arguments on its line and two on the next. -/
def call : Node :=
  .mk .call (some "f") 1 24 [.mk .argument none 2 1 [], .mk .argument (some "g") 5 4 [],
    .mk .argument (some "h") 13 4 [], .mk .argument (some "i") 19 4 []]

/-- A file with this call. -/
def unit : SourceUnit where
  contents := "f(0, g: 1,\n  h: 2, i: 3)\n"
  tree := Node.fileRoot 25 [call]

/-- The first argument is to begin on another line. -/
def options : Options := [("first_argument_location", .string "next_line")]

end Mixed

/-- The second and the last argument come late, and the first one is on the line of the call. -/
theorem validate_exact_mixed :
    offendingIn Mixed.unit.lines .nextLine Mixed.call = [⟨1, 3⟩, ⟨1, 6⟩, ⟨2, 9⟩] ∧
      offendingIn Mixed.unit.lines .nextLine (.mk .argument none 2 1 []) = [] ∧
      (findings Mixed.unit []).Sublist (findings Mixed.unit Mixed.options) := by
  obtain ⟨_, hcalls, hothers, _, hfindings⟩ := validate_exact Mixed.unit
  have hreports := hcalls .nextLine Mixed.call ⟨1, 2⟩ rfl (by decide +kernel)
  refine ⟨(hreports.listed ?_).trans ?_, hothers _ _ (.inl (by decide)),
    hfindings [] Mixed.options (by decide)⟩
  · decide +kernel
  · decide +kernel

end MultilineArguments

end SwiftStyle
