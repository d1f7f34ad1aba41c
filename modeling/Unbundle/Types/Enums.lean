import Std.Data.ExtTreeMap
import Unbundle.Failure
import Unbundle.Layout
import Unbundle.Text.Search

/-! The enum sources of a module and of its versions, and the index of an enums directory that holds
them together. -/

namespace Unbundle.Types
open Std (ExtTreeMap)
open Unbundle.Text

/-- The text from the first exported constant on; a version's source has other imports before it. -/
def fromFirstConstant (text : String) : String :=
  match breakAt? "export const ".toList text.toList with
  | some (_, rest) => String.ofList rest
  | none => text

def moduleEnums? (sdk : SdkLayout) (module : String) : Work (Option String) :=
  Work.readText? (sdk.moduleEnums module)

def versionEnums? (sdk : SdkLayout) (module version : String) : Work (Option String) := do
  return (← Work.readText? (sdk.versionEnums module version)).map fromFirstConstant

def addVersionEnums (sdk : SdkLayout) (module : String) (sources : ExtTreeMap String String)
    (version : String) : Work (ExtTreeMap String String) := do
  match ← versionEnums? sdk module version with
  | some text => return sources.insert version text
  | none => return sources

/-- The enum sources of all versions of a module that have one. They are read in the order of their
names, so that the first that cannot be read is the fault. -/
def allVersionEnums (sdk : SdkLayout) (module : String) : Work (ExtTreeMap String String) := do
  let entries ← Work.listIfPresent (sdk.enums.join module)
  (directoryNames entries).foldlM (addVersionEnums sdk module) ∅

def versionExport (version : String) : String :=
  "import * as " ++ version ++ " from \"./" ++ version ++ "\";\n" ++
    "export \x7b " ++ version ++ " \x7d;\n"

/-- Adds a version to an index, on a line of its own, unless the index imports it already. -/
def addVersion (index version : String) : String :=
  if contains ("from \"./" ++ version ++ "\"") index then index
  else
    let broken := index.isEmpty || index.toList.getLast? = some '\n'
    (if broken then index else index ++ "\n") ++ versionExport version

/-- A module's own enums followed by those of its versions. -/
def enumsIndex (own : Option String) (versions : List String) : String :=
  versions.foldl addVersion (own.getD "")

end Unbundle.Types
