import Unbundle.Declaration.Issue
import Unbundle.Declaration.Slice

/-! What reading a declaration stream gives: the slices of every module that was captured, and the
damage that was found. -/

namespace Unbundle.Declaration
open Std (ExtTreeMap)

structure Options where
  /-- The first line of every slice. -/
  header : String
  /-- Versions get slices of their own instead of staying inside their module's slice. -/
  splitVersions : Bool
deriving DecidableEq, Repr

structure Stream where
  direction : Direction
  modules : ExtTreeMap String ModuleSlices
  issues : List Issue

namespace Stream

def isClean (stream : Stream) : Bool := stream.issues.isEmpty

def issuesOf (stream : Stream) (module : String) : List Issue :=
  stream.issues.filter fun issue => issue.scope.module == module

end Stream

end Unbundle.Declaration
