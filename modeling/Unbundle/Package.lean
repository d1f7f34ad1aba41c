import Unbundle.Failure
import Unbundle.Layout

/-! The packages that an SDK is divided into: the core package and one for each module. A module is
a directory of the source root that is not ignored. -/

namespace Unbundle

structure Package where
  name : String
  path : Files.Path
  dependsOnCore : Bool
deriving DecidableEq, Repr

namespace Package

def core (packages : PackagesLayout) : Package := ⟨coreName, packages.core, false⟩

def module (packages : PackagesLayout) (module : String) : Package :=
  ⟨module, packages.module module, true⟩

end Package

def defaultIgnored : List String := ["scripts", typesName]

/-- The names of an SDK's modules, in ascending order. -/
def moduleNames (root : Files.Path) (ignored : List String) : Work (List String) := do
  return (directoryNames (← Work.list root)).filter fun name => !ignored.contains name

def packagesOf (root : Files.Path) (packages : PackagesLayout) (ignored : List String) :
    Work (List Package) := do
  return .core packages :: (← moduleNames root ignored).map (.module packages)

end Unbundle
