import SwiftStyle.Options
import SwiftStyle.Path
import SwiftStyle.Severity
import SwiftStyle.Source.Structure

/-!
# Config — settings of the linter, the index and single rules

Every setting has a default, so the empty configuration is a configuration. What is not said about a
rule is taken from `RuleSettings` with nothing set.
-/

namespace SwiftStyle

/-- Settings of a lint run. -/
structure LinterSettings where
  /-- Extension of the files to lint and index, without the dot. -/
  extension : String := "swift"
  /-- Patterns of paths to leave out. -/
  exclude : List String := []
  /-- Whether ignore files count when directories are searched. -/
  respectIgnoreFiles : Bool := true
  /-- How many workers check files; none and 0 leave it to the system. A report does not depend on
  them, but a run whose workers cannot be started fails. -/
  jobs : Option Nat := none
  /-- The level at which a finding makes a run fail. -/
  failOn : Severity := .low
deriving DecidableEq, Repr

/-- Settings of the declaration index. -/
structure IndexSettings where
  trackedKind : NodeKind := .protocol
  cachePath : Option Path := none
deriving DecidableEq, Repr

/-- Settings of one rule. -/
structure RuleSettings where
  enabled : Option Bool := none
  /-- A level that replaces the one of the rule's findings. -/
  severity : Option Severity := none
  options : Options := []
deriving Repr

/-- A configuration. -/
structure Config where
  linter : LinterSettings := {}
  index : IndexSettings := {}
  /-- Settings by rule identifier. -/
  rules : List (String × RuleSettings) := []
deriving Repr

namespace Config

/-- What is set for a rule, if anything is. -/
def settings? (c : Config) (identifier : String) : Option RuleSettings :=
  (c.rules.find? (·.1 == identifier)).map (·.2)

/-- Whether a rule runs. Rules run unless they are switched off. -/
def isEnabled (c : Config) (identifier : String) : Bool :=
  ((c.settings? identifier).bind (·.enabled)).getD true

/-- Whether a rule is switched on by name. -/
def isOptedIn (c : Config) (identifier : String) : Bool :=
  ((c.settings? identifier).bind (·.enabled)).getD false

/-- The level that replaces the one of a rule's findings. -/
def severity? (c : Config) (identifier : String) : Option Severity :=
  (c.settings? identifier).bind (·.severity)

/-- The settings that a rule runs under: those that are set for it, or none. -/
def settings (c : Config) (identifier : String) : RuleSettings :=
  (c.settings? identifier).getD {}

/-- The options of a rule. -/
def options (c : Config) (identifier : String) : Options := (c.settings identifier).options

end Config

end SwiftStyle
