import Unbundle.Package
import Unbundle.StableSort

/-! What a build tells about its units: the packages that were built, the number of `types`
directories written, and the failures with the module that each counts against. -/

namespace Unbundle.Build

structure FailureRecord where
  module : String
  failure : Failure
deriving DecidableEq, Repr

structure Report where
  packages : List String := []
  typesWritten : Nat := 0
  failures : List FailureRecord := []
deriving DecidableEq, Repr

def dropRepeats : List String → List String
  | [] => []
  | [x] => [x]
  | x :: y :: rest => if x = y then dropRepeats (y :: rest) else x :: dropRepeats (y :: rest)

namespace Report

def isSuccess (report : Report) : Bool := report.failures.isEmpty

/-- The modules of the failures, one name for each run of failures of one module. -/
def failedModules (report : Report) : List String :=
  dropRepeats (report.failures.map (·.module))

def append (a b : Report) : Report :=
  ⟨a.packages ++ b.packages, a.typesWritten + b.typesWritten, a.failures ++ b.failures⟩

/-- Orders the failures by module; those of one module keep their order. -/
def sortFailures (report : Report) : Report :=
  { report with
    failures := stableSort (fun a b => decide (a.module ≤ b.module)) report.failures }

end Report

end Unbundle.Build
