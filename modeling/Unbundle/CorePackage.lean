import Unbundle.Package
import Unbundle.Text.Search

/-! The core package: the provider, the utilities that all packages share, and the SDK's own index
without the exports of its modules. -/

namespace Unbundle
open Unbundle.Files Unbundle.Text

/-- The line above the exports of the modules. -/
def exportsMarker : String := "// Export sub-modules"

/-- The call that follows them and has to stay. -/
def registrationMarker : String := "pulumi.runtime.registerResourcePackage"

/-- What stands before the exports and what follows them, when the text has both marks in order. -/
def exportsCut? (index : String) : Option (List Char × List Char) := do
  let (before, rest) ← breakAt? exportsMarker.toList index.toList
  let (_, rest) ← breakAt? registrationMarker.toList rest
  return (before, rest)

/-- An index without the exports of modules; one that lacks a mark stays as it is. -/
def cutExports (index : String) : String :=
  match exportsCut? index with
  | some (before, rest) => String.ofList (before ++ rest)
  | none => index

def copiedStems : List String := ["utilities", "provider"]

def copyCoreFile (sdk : SdkLayout) (package : Package) (stem : String) : Work Unit :=
  Work.at (sdk.rootFile stem) do
    DiskM.copyFile (sdk.rootFile stem) (package.path.join (sdk.fileName stem))

def writeCore (sdk : SdkLayout) (packages : PackagesLayout) : Work Package := do
  let package := Package.core packages
  Work.makeDirectories package.path
  let index ← Work.readText (sdk.rootFile indexStem)
  Work.writeText (package.path.join (sdk.fileName indexStem)) (cutExports index)
  copiedStems.forM (copyCoreFile sdk package)
  return package

end Unbundle
