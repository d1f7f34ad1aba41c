import Unbundle.Files.Path
import Unbundle.Scope

/-! Where things lie in the source tree of the whole SDK and in the tree of packages made of it. -/

namespace Unbundle

def typesName : String := "types"

def enumsName : String := "enums"

def coreName : String := "core"

/-- The file that stands for the directory it is in. -/
def indexStem : String := "index"

def fileName (stem extension : String) : String := stem ++ "." ++ extension

structure SdkLayout where
  root : Files.Path
  extension : String
deriving DecidableEq, Repr

namespace SdkLayout

def fileName (sdk : SdkLayout) (stem : String) : String := Unbundle.fileName stem sdk.extension

/-- The declaration stream of a direction. -/
def declarations (sdk : SdkLayout) (direction : Direction) : Files.Path :=
  (sdk.root.join typesName).join (sdk.fileName direction.stem)

def enums (sdk : SdkLayout) : Files.Path := (sdk.root.join typesName).join enumsName

def moduleEnums (sdk : SdkLayout) (module : String) : Files.Path :=
  (sdk.enums.join module).join (sdk.fileName indexStem)

def versionEnums (sdk : SdkLayout) (module version : String) : Files.Path :=
  ((sdk.enums.join module).join version).join (sdk.fileName indexStem)

def module (sdk : SdkLayout) (module : String) : Files.Path := sdk.root.join module

def rootFile (sdk : SdkLayout) (stem : String) : Files.Path := sdk.root.join (sdk.fileName stem)

end SdkLayout

structure PackagesLayout where
  root : Files.Path
deriving DecidableEq, Repr

namespace PackagesLayout

def module (packages : PackagesLayout) (module : String) : Files.Path := packages.root.join module

def version (packages : PackagesLayout) (module version : String) : Files.Path :=
  (packages.root.join module).join version

def core (packages : PackagesLayout) : Files.Path := packages.root.join coreName

end PackagesLayout

/-- The directory of a scope's types, below the scope's own directory. -/
def typesDirectory (scope : Files.Path) : Files.Path := scope.join typesName

end Unbundle
