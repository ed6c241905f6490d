import SwiftStyle.Files.Tree

/-!
# Faults — what goes wrong from outside

A run depends on more than files: on room on the disk, on workers that can be started, on an input
that can be read. `Faults` says for one run what of this fails, and how.
-/

namespace SwiftStyle

/-- The steps of a replacement, in their order. -/
inductive ReplacementStep
  | makeDirectory
  | create
  | write
  | synchronize
  | rename
deriving DecidableEq, Repr

/-- Why no pool of workers can be started. -/
structure PoolError where
  cause : String
  /-- What lies behind the cause, the nearest first. -/
  causes : List String := []
deriving DecidableEq, Repr

/-- The wording of a pool error. -/
def PoolError.message (e : PoolError) : String := "Failed to build worker pool: " ++ e.cause

/-- The wording of a pool error with what caused it. -/
def PoolError.chain (e : PoolError) : String := ": ".intercalate (e.message :: e.cause :: e.causes)

/-- What goes wrong from outside, such as a full disk. -/
structure Faults where
  /-- The error that a step meets. -/
  error? : ReplacementStep → Option FileError := fun _ => none
  /-- How many steps of its way a failing making of directories leaves made. -/
  made : Nat := 0
  /-- How many bytes a failing write leaves behind. -/
  written : Nat := 0
  /-- The error that writing a file in its place meets before anything is written. -/
  inPlace? : Option FileError := none
  /-- Why a pool of so many workers cannot be started, if it cannot. -/
  workers? : Nat → Option PoolError := fun _ => none
  /-- The error that reading standard input meets. -/
  input? : Option FileError := none
  /-- Paths with a name that is no Unicode text. The text of such a path stands for it, and JSON has
  no place for it. -/
  unprintable : Path → Bool := fun _ => false

end SwiftStyle
