import Unbundle.Declaration.Slice
import Unbundle.Types.Enums

/-! The `types` directory of one scope: a file for each direction, the enums, and an index of what
there is. Enums are one file, or a directory of their own when versions stay inline. A scope without
enums has neither an export nor an import of them. -/

namespace Unbundle.Types
open Std (ExtTreeMap)
open Unbundle.Declaration (Slice)

structure ScopeTypes where
  inputs : Option Slice := none
  outputs : Option Slice := none
  enums : Option String := none
  /-- The enums of versions that have no directory of their own. -/
  versionEnums : ExtTreeMap String String := ∅

structure TypesSummary where
  directory : Files.Path
  hasInputs : Bool
  hasOutputs : Bool
  hasEnums : Bool
deriving DecidableEq, Repr

def enumsImport : String := "import * as enums from \"./enums\";"

def enumsExport : String := "export * as enums from \"./enums\";"

def sliceExport (direction : Direction) : String :=
  "export * as " ++ direction.namespaceName ++ " from \"./" ++ direction.stem ++ "\";"

namespace ScopeTypes

def slice (types : ScopeTypes) : Direction → Option Slice
  | .inputs => types.inputs
  | .outputs => types.outputs

def hasEnums (types : ScopeTypes) : Bool := types.enums.isSome || !types.versionEnums.isEmpty

/-- The file text of a slice; slices of a scope with enums import them. -/
def sliceText (types : ScopeTypes) (slice : Slice) : String :=
  (if types.hasEnums then slice.cons enumsImport else slice).text

def index (types : ScopeTypes) : List String :=
  (if types.hasEnums then [enumsExport] else []) ++
    [Direction.inputs, .outputs].flatMap fun direction =>
      if (types.slice direction).isSome then [sliceExport direction] else []

def writeEnumsDirectory (types : ScopeTypes) (directory : Files.Path) (extension : String) :
    Work Unit := do
  let directory := directory.join enumsName
  Work.makeDirectories directory
  types.versionEnums.toList.forM fun (version, text) =>
    Work.writeText (directory.join (fileName version extension)) text
  Work.writeText (directory.join (fileName indexStem extension))
    (enumsIndex types.enums types.versionEnums.keys)

def writeEnums (types : ScopeTypes) (directory : Files.Path) (extension : String) : Work Unit := do
  if !types.versionEnums.isEmpty then types.writeEnumsDirectory directory extension
  else if let some text := types.enums then
    Work.writeText (directory.join (fileName enumsName extension)) text

def writeSlice (types : ScopeTypes) (directory : Files.Path) (extension : String)
    (direction : Direction) : Work Unit := do
  if let some slice := types.slice direction then
    Work.writeText (directory.join (fileName direction.stem extension)) (types.sliceText slice)

/-- Writes the types of a scope below the scope's directory, the index last. -/
def write (types : ScopeTypes) (scope : Files.Path) (extension : String) : Work TypesSummary := do
  let directory := typesDirectory scope
  Work.makeDirectories directory
  types.writeEnums directory extension
  types.writeSlice directory extension .inputs
  types.writeSlice directory extension .outputs
  Work.writeText (directory.join (fileName indexStem extension)) (Text.joinLines types.index)
  return ⟨directory, types.inputs.isSome, types.outputs.isSome, types.hasEnums⟩

end ScopeTypes

end Unbundle.Types
