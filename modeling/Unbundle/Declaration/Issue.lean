import Unbundle.Scope

/-! Damage found in a declaration stream. A block that is still open where it cannot be any more is
unclosed; a block whose scope has been captured before is reopened. -/

namespace Unbundle.Declaration

inductive IssueKind where
  | unclosed
  | reopened (line : Nat)
deriving DecidableEq, Repr

structure Issue where
  scope : Scope
  direction : Direction
  kind : IssueKind
deriving DecidableEq, Repr

def Issue.message (issue : Issue) : String :=
  let scope := issue.scope.name
  let stream := issue.direction.stem
  match issue.kind with
  | .unclosed => "namespace '" ++ scope ++ "' in " ++ stream ++ " declarations was never closed"
  | .reopened line => "namespace '" ++ scope ++ "' reopened at line " ++ toString line ++ " of " ++
      stream ++ " declarations; second block was not captured"

end Unbundle.Declaration
