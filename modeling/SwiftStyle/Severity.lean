/-!
# Severity — how serious a finding is

Three levels, ordered so that a threshold is an inequality.
-/

namespace SwiftStyle

/-- The level of a finding. -/
inductive Severity
  | low
  | medium
  | high
deriving DecidableEq, Repr, Inhabited

namespace Severity

/-- The place of a level in the order. -/
def rank : Severity → Nat
  | low => 0
  | medium => 1
  | high => 2

instance : LE Severity := ⟨fun a b => a.rank ≤ b.rank⟩

instance (a b : Severity) : Decidable (a ≤ b) := inferInstanceAs (Decidable (a.rank ≤ b.rank))

/-- The name of a level. -/
def text : Severity → String
  | low => "low"
  | medium => "medium"
  | high => "high"

/-- The level of a name, letter case included. -/
def ofText? : String → Option Severity
  | "low" => some low
  | "medium" => some medium
  | "high" => some high
  | _ => none

/-- A word that names no level, with its ASCII letters lowered. -/
structure Unknown where
  lowered : String
deriving DecidableEq, Repr

/-- The wording of the error. -/
def Unknown.message (e : Unknown) : String := s!"unknown severity '{e.lowered}'"

/-- Read a level without regard to ASCII letter case. -/
def parse (word : String) : Except Unknown Severity :=
  let lowered := word.map Char.toLower
  match ofText? lowered with
  | some severity => .ok severity
  | none => .error ⟨lowered⟩

end Severity

end SwiftStyle
