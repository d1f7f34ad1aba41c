import Std.Data.ExtTreeSet
import Unbundle.Build.Report
import Unbundle.CorePackage
import Unbundle.Declaration.Capture
import Unbundle.Settings
import Unbundle.Types.Directory

/-! The units of a build: the core package, the implementation files of a module, and the types of a
module with all its versions. A unit that fails does so alone. -/

namespace Unbundle.Build
open Std (ExtTreeSet)
open Unbundle.Declaration (Stream)
open Unbundle.Files
open Unbundle.Types

inductive WorkUnit where
  | core
  | implementation (module : String)
  | types (module : String)
deriving DecidableEq, Repr

/-- The name that a unit's failures are recorded under. -/
def WorkUnit.name : WorkUnit → String
  | .core => coreName
  | .implementation module => module
  | .types module => module

/-- What is done about the metadata of a package once its files are written. -/
abbrev MetadataHook := Package → Except Failure Unit

structure Outcome where
  unit : WorkUnit
  typesWritten : Nat := 0
  /-- The unit made a package. -/
  built : Bool := false
  failures : List Failure := []
  /-- The packages that were handed to the metadata hook. -/
  announced : List Package := []

/-- The two streams that the types come from. -/
structure Streams where
  inputs : Stream
  outputs : Stream

namespace Streams

def issuesOf (streams : Streams) (module : String) : List Declaration.Issue :=
  streams.inputs.issuesOf module ++ streams.outputs.issuesOf module

/-- The versions of a module that either stream has. -/
def versionsOf (streams : Streams) (module : String) : List String :=
  let versions (stream : Stream) : List String :=
    match stream.modules[module]? with
    | some types => types.versions.keys
    | none => []
  (ExtTreeSet.ofList (versions streams.inputs ++ versions streams.outputs)).toList

end Streams

/-- The units of one build share these. -/
structure Setup where
  settings : Settings
  hook : MetadataHook

namespace Setup

/-- Writes a package and then hands it to the metadata hook. -/
def makePackage (setup : Setup) (unit : WorkUnit) (package : Package) (work : Work Unit) :
    StateM Disk Outcome := do
  match ← work.run with
  | .error failure => return { unit, failures := [failure] }
  | .ok () =>
    match setup.hook package with
    | .error failure => return { unit, failures := [failure], announced := [package] }
    | .ok () => return { unit, built := true, announced := [package] }

def runCore (setup : Setup) : StateM Disk Outcome :=
  let settings := setup.settings
  setup.makePackage .core (.core settings.packages) do
    discard (writeCore settings.sdk settings.packages)

def runImplementation (setup : Setup) (module : String) : StateM Disk Outcome :=
  let settings := setup.settings
  setup.makePackage (.implementation module) (.module settings.packages module) do
    discard (settings.adapter.adaptModule module)

/-- Versions that stay inline bring their enums into those of the module. -/
def writeModuleTypes (setup : Setup) (streams : Streams) (module : String) : Work TypesSummary := do
  let settings := setup.settings
  let enums ← moduleEnums? settings.sdk module
  let versionEnums ←
    if settings.splitVersions then pure ∅ else allVersionEnums settings.sdk module
  let slice (stream : Stream) := stream.modules[module]?.map (·.own)
  let types : ScopeTypes := ⟨slice streams.inputs, slice streams.outputs, enums, versionEnums⟩
  types.write (settings.packages.module module) settings.extension

def writeVersionTypes (setup : Setup) (streams : Streams) (module version : String) :
    Work TypesSummary := do
  let settings := setup.settings
  let enums ← versionEnums? settings.sdk module version
  let slice (stream : Stream) := stream.modules[module]?.bind (·.versions[version]?)
  let types : ScopeTypes := ⟨slice streams.inputs, slice streams.outputs, enums, ∅⟩
  types.write (settings.packages.version module version) settings.extension

/-- Writes the types of one scope; a failure leaves the other scopes to be written. -/
def countTypes (outcome : Outcome) (work : Work TypesSummary) : StateM Disk Outcome := do
  match ← work.run with
  | .ok _ => return { outcome with typesWritten := outcome.typesWritten + 1 }
  | .error failure => return { outcome with failures := outcome.failures ++ [failure] }

/-- No types are written for a module whose declarations are damaged. -/
def runTypes (setup : Setup) (streams : Streams) (module : String) : StateM Disk Outcome := do
  let issues := streams.issuesOf module
  if issues.isEmpty then
    let outcome ← countTypes { unit := .types module } (setup.writeModuleTypes streams module)
    (streams.versionsOf module).foldlM
      (fun outcome version => countTypes outcome (setup.writeVersionTypes streams module version))
      outcome
  else return { unit := .types module, failures := issues.map .structural }

end Setup

end Unbundle.Build
