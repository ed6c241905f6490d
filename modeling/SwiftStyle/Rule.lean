import SwiftStyle.Config
import SwiftStyle.Source.Unit
import SwiftStyle.Violation

/-!
# Rule — what a style rule is

A rule is a description and a function from a unit and the rule's settings to findings. A rule may
also give up on a unit; that is a `Fault`, which the linter reports without losing other findings.
-/

namespace SwiftStyle

/-- What is known about a rule without running it. In examples, `↓` marks an expected finding. -/
structure RuleDescriptor where
  identifier : String
  name : String
  description : String
  nonTriggeringExamples : List String := []
  triggeringExamples : List String := []
deriving DecidableEq, Repr

/-- Why a rule gave up on a unit. -/
inductive Fault
  | explained (message : String)
  | unexplained
deriving DecidableEq, Repr

/-- The wording of a fault. -/
def Fault.reason : Fault → String
  | explained message => message
  | unexplained => "unknown fault"

/-- A style rule for one file. -/
structure Rule where
  descriptor : RuleDescriptor
  validate : SourceUnit → RuleSettings → Except Fault (List Violation)

namespace Rule

/-- The identifier of a rule. -/
def identifier (r : Rule) : String := r.descriptor.identifier

/-- A rule that never gives up and reads no more of its settings than the options. -/
def ofFindings (descriptor : RuleDescriptor) (findings : SourceUnit → Options → List Violation) :
    Rule where
  descriptor
  validate unit settings := .ok (findings unit settings.options)

end Rule

/-- Two limits on one measure: past `warning` a finding is medium, past `error` it is high. -/
structure Thresholds where
  warning : Nat
  error : Nat
deriving DecidableEq, Repr

namespace Thresholds

/-- The thresholds of a rule's options. -/
def ofOptions (options : Options) (default : Thresholds) : Thresholds where
  warning := options.count "warning" default.warning
  error := options.count "error" default.error

/-- The level of a measure and the limit that it passes. The upper limit is looked at first. -/
def exceeded? (t : Thresholds) (measure : Nat) : Option (Severity × Nat) :=
  if t.error < measure then some (.high, t.error)
  else if t.warning < measure then some (.medium, t.warning)
  else none

end Thresholds

end SwiftStyle
