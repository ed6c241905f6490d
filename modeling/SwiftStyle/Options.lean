import SwiftStyle.Toml.Value

/-!
# Options — the options of one rule

A table of TOML values, read with a default: a missing or ill-typed option counts as its default, so
reading never fails.
-/

namespace SwiftStyle

/-- The options of a rule. -/
abbrev Options := Toml.Table

namespace Options

/-- A boolean option. -/
def flag (o : Options) (key : String) (default : Bool) : Bool :=
  ((Toml.Table.get? o key).bind Toml.Value.asBoolean?).getD default

/-- A count; a negative number is ill-typed. -/
def count (o : Options) (key : String) (default : Nat) : Nat :=
  match (Toml.Table.get? o key).bind Toml.Value.asInteger? with
  | some (.ofNat n) => n
  | _ => default

/-- A text option. -/
def text (o : Options) (key : String) (default : String) : String :=
  ((Toml.Table.get? o key).bind Toml.Value.asString?).getD default

/-- One of several spellings. An unknown spelling counts as the default. -/
def choice {α : Type} (o : Options) (key : String) (read : String → Option α) (default : α) : α :=
  (((Toml.Table.get? o key).bind Toml.Value.asString?).bind read).getD default

end Options

end SwiftStyle
