import Unbundle.Failure
import Unbundle.Implementation.Source
import Unbundle.Layout

/-! The implementation files of one module. A module's directory holds files and the directories of
its versions, and a version's directory holds files alone. They are taken in the order of their
names, and the first entry that is neither ends the work. -/

namespace Unbundle.Implementation
open Unbundle.Files

structure ModuleSummary where
  files : Nat := 0
  versions : List String := []
deriving DecidableEq, Repr

/-- What is the same for the files of every module. -/
structure Adapter where
  sdk : SdkLayout
  packages : PackagesLayout
  imports : Imports
  splitVersions : Bool
deriving DecidableEq, Repr

namespace Adapter

def isEntry (adapter : Adapter) (name : String) : Bool :=
  name == adapter.sdk.fileName indexStem

def moduleContext (adapter : Adapter) (module name : String) : Context where
  scope := ⟨module, none⟩
  isEntry := adapter.isEntry name
  typesPath := "./" ++ typesName

/-- A version without types of its own uses those of its module, one directory up. -/
def versionContext (adapter : Adapter) (module version name : String) : Context where
  scope := ⟨module, if adapter.splitVersions then some version else none⟩
  version := some version
  isEntry := adapter.isEntry name
  typesPath := (if adapter.splitVersions then "./" else "../") ++ typesName

def adaptFile (adapter : Adapter) (context : Context) (source target : Files.Path) : Work Unit := do
  let content ← Work.readText source
  Work.writeText target (adaptSource adapter.imports context content)

def adaptVersionEntry (adapter : Adapter) (module version : String) (source target : Files.Path)
    (entry : String × Entry) : Work Unit :=
  match entry with
  | (name, .file _) =>
    adapter.adaptFile (adapter.versionContext module version name) (source.join name)
      (target.join name)
  | (name, _) => throw (.unknownEntry (source.join name))

/-- Adapts the files of a version and counts them. -/
def adaptVersion (adapter : Adapter) (module version : String) : Work Nat := do
  let source := (adapter.sdk.module module).join version
  let target := adapter.packages.version module version
  Work.makeDirectories target
  let entries ← Work.list source
  entries.forM (adapter.adaptVersionEntry module version source target)
  return entries.length

def adaptModuleEntry (adapter : Adapter) (module : String) (source target : Files.Path)
    (summary : ModuleSummary) (entry : String × Entry) : Work ModuleSummary :=
  match entry with
  | (name, .file _) => do
    adapter.adaptFile (adapter.moduleContext module name) (source.join name) (target.join name)
    return { summary with files := summary.files + 1 }
  | (name, .directory) => do
    let files ← adapter.adaptVersion module name
    return ⟨summary.files + files, summary.versions ++ [name]⟩
  | (name, .link _) => throw (.unknownEntry (source.join name))

def adaptModule (adapter : Adapter) (module : String) : Work ModuleSummary := do
  let source := adapter.sdk.module module
  let target := adapter.packages.module module
  Work.makeDirectories target
  (← Work.list source).foldlM (adapter.adaptModuleEntry module source target) {}

end Adapter

end Unbundle.Implementation
