import Unbundle.Build.WorkUnit
import Unbundle.Declaration.File

/-! A session runs builds with one group of settings and remembers the declaration streams that it
has read. A build prepares the output root and goes through two stages, the types and then the
packages; each plans its units and runs them. A stage that cannot be planned is reported under its
name, and the other one goes on.

The units of a build do not wait for each other. Here they are run one by one in the order in which
they are planned; the builds that take them in any other order are those of `Setup.Orders`. -/

namespace Unbundle.Build
open Std (ExtTreeSet)
open Unbundle.Declaration (Stream)
open Unbundle.Files

/-- The streams read so far. -/
structure Memory where
  inputs : Option Stream := none
  outputs : Option Stream := none

namespace Memory

def get (memory : Memory) : Direction → Option Stream
  | .inputs => memory.inputs
  | .outputs => memory.outputs

def remember (memory : Memory) (stream : Stream) : Direction → Memory
  | .inputs => { memory with inputs := some stream }
  | .outputs => { memory with outputs := some stream }

end Memory

/-- What one session works with: what it remembers, and the disk as it is now. -/
structure Session where
  memory : Memory := {}
  disk : Disk

abbrev SessionM := ExceptT Failure (StateM Session)

namespace SessionM

def onDisk {α : Type} (work : StateM Disk α) : StateM Session α := fun session =>
  let (result, disk) := work.run session.disk
  (result, { session with disk })

def ofWork {α : Type} (work : Work α) : SessionM α := onDisk work.run

end SessionM

/-- The types stage: the streams and the modules whose types are written. -/
structure TypesPlan where
  streams : Streams
  modules : List String

/-- What the stages of a build do; one that cannot start has a failure in its place. -/
structure Plan where
  types : Except Failure TypesPlan
  modules : Except Failure (List String)

/-- The report of a build and the packages that were handed to the metadata hook. -/
structure Result where
  report : Report
  announced : List Package := []

def TypesPlan.units (plan : TypesPlan) : List WorkUnit := plan.modules.map .types

/-- The units that are run for a stage; none when it cannot start. -/
def planned : Except Failure (List WorkUnit) → List WorkUnit
  | .ok units => units
  | .error _ => []

namespace Plan

def typesUnits (plan : Plan) : Except Failure (List WorkUnit) := plan.types.map (·.units)

def implementationUnits (plan : Plan) : Except Failure (List WorkUnit) :=
  plan.modules.map fun modules => .core :: modules.map .implementation

def units (plan : Plan) : List WorkUnit :=
  planned plan.typesUnits ++ planned plan.implementationUnits

end Plan

/-- The outcomes of some units in the order of the units, whatever order they were run in. -/
def collect (units : List WorkUnit) (outcomes : List Outcome) : Report :=
  let outcomes := units.filterMap fun unit => outcomes.find? (·.unit = unit)
  { packages := (outcomes.filter (·.built)).map (·.unit.name)
    typesWritten := outcomes.foldl (fun count outcome => count + outcome.typesWritten) 0
    failures := outcomes.flatMap fun outcome => outcome.failures.map (⟨outcome.unit.name, ·⟩) }

def typesStage : String := "types"

def modulesStage : String := "modules"

def stageReport (stage : String) (units : Except Failure (List WorkUnit))
    (outcomes : List Outcome) : Report :=
  match units with
  | .ok units => collect units outcomes
  | .error failure => { failures := [⟨stage, failure⟩] }

def Plan.report (plan : Plan) (outcomes : List Outcome) : Report :=
  ((stageReport modulesStage plan.implementationUnits outcomes).append
    (stageReport typesStage plan.typesUnits outcomes)).sortFailures

namespace Setup

def runUnit (setup : Setup) (types : Except Failure TypesPlan) :
    WorkUnit → StateM Disk Outcome
  | .core => setup.runCore
  | .implementation module => setup.runImplementation module
  | .types module =>
    match types with
    | .ok plan => setup.runTypes plan.streams module
    | .error _ => return { unit := .types module }

/-- Runs units one after another in the order given. -/
def runUnits (setup : Setup) (types : Except Failure TypesPlan) (units : List WorkUnit) :
    StateM Disk (List Outcome) :=
  units.mapM (setup.runUnit types)

/-- A stream, read from its file unless the session remembers it. -/
def stream (setup : Setup) (direction : Direction) : SessionM Stream := do
  match (← get).memory.get direction with
  | some stream => return stream
  | none =>
    let path := setup.settings.sdk.declarations direction
    let stream ← SessionM.ofWork (Declaration.readStream path direction setup.settings.capture)
    modify fun session => { session with memory := session.memory.remember stream direction }
    return stream

/-- Both streams. Each is read even if the other one cannot be. -/
def streams (setup : Setup) : SessionM Streams := do
  let inputs ← ExceptT.lift (setup.stream .inputs).run
  let outputs ← ExceptT.lift (setup.stream .outputs).run
  return ⟨← liftExcept inputs, ← liftExcept outputs⟩

/-- Makes the output root, emptied first when the build is to be clean. -/
def makeOutputRoot (setup : Setup) : Work Unit := do
  let root := setup.settings.outputRoot
  if setup.settings.clean && (← get).pathExists root then Work.at root (DiskM.removeAll root)
  Work.makeDirectories root

def allPackages (setup : Setup) : Work (List Package) :=
  let settings := setup.settings
  packagesOf settings.sourceRoot settings.packages settings.ignoredDirs

/-- Types are written for every module that a stream has, or has an issue with, and for every one
that has a directory of enums; in ascending order. -/
def planTypes (setup : Setup) : SessionM TypesPlan := do
  let streams ← setup.streams
  let enums ← SessionM.ofWork (Work.listIfPresent setup.settings.sdk.enums)
  let named (stream : Stream) := stream.modules.keys ++ stream.issues.map (·.scope.module)
  let modules := named streams.inputs ++ named streams.outputs ++ directoryNames enums
  return ⟨streams, (ExtTreeSet.ofList modules).toList⟩

def planModules (setup : Setup) : StateM Session (Except Failure (List String)) :=
  SessionM.onDisk (moduleNames setup.settings.sourceRoot setup.settings.ignoredDirs).run

/-- Goes through both stages. The second one is planned when the first one has been run. -/
def runStages (setup : Setup) : StateM Session (Plan × List Outcome) := do
  let types ← setup.planTypes.run
  let first ← SessionM.onDisk (setup.runUnits types (planned (types.map (·.units))))
  let plan : Plan := ⟨types, ← setup.planModules⟩
  let second ← SessionM.onDisk (setup.runUnits types (planned plan.implementationUnits))
  return (plan, first ++ second)

/-- Writes the types of all modules and nothing else. -/
def createTypes (setup : Setup) : SessionM Result := do
  SessionM.ofWork setup.makeOutputRoot
  let plan ← setup.planTypes
  let outcomes ← ExceptT.lift (SessionM.onDisk (setup.runUnits (.ok plan) plan.units))
  return ⟨(collect plan.units outcomes).sortFailures, outcomes.flatMap (·.announced)⟩

def build (setup : Setup) : SessionM Result := do
  SessionM.ofWork setup.makeOutputRoot
  let (plan, outcomes) ← ExceptT.lift setup.runStages
  return ⟨plan.report outcomes, outcomes.flatMap (·.announced)⟩

end Setup

end Unbundle.Build
