import Unbundle.Layout
import Unbundle.Text.Recognize

/-! Namespace imports: the ones put before every implementation file, and which of a file's own
imports are dropped because they do not hold in a package of its own. -/

namespace Unbundle.Implementation
open Unbundle.Text

/-- The path of `import * as name from "path";`. -/
def importPath? (line : String) : Option String := do
  let rest ← after? "import * as ".toList line.toList
  let (_, rest) ← identifier? rest
  let rest ← after? " from \"".toList rest
  let (path, rest) ← many1? (· != '"') rest
  let rest ← after? "\";".toList rest
  if allBlank rest then some (String.ofList path) else none

def namespaceImport (name path : String) : String :=
  "import * as " ++ name ++ " from \"" ++ path ++ "\";"

structure Imports where
  /-- The import of the framework, put first in every file. -/
  framework : String
  /-- What the names of the packages begin with. -/
  packagePrefix : String
deriving DecidableEq, Repr

namespace Imports

/-- The import of the utilities in the core package. -/
def core (imports : Imports) : String :=
  namespaceImport "utilities" (imports.packagePrefix ++ coreName ++ "/utilities")

/-- A path that leaves the package, or the framework's, which is put back at the top. -/
def drops (imports : Imports) (path : String) : Bool :=
  "../".toList.isPrefixOf path.toList || importPath? imports.framework == some path

end Imports

def defaultFrameworkImport : String := "import * as pulumi from \"@pulumi/pulumi\";"

end Unbundle.Implementation
