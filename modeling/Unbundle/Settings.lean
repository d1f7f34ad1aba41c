import Unbundle.Implementation.Module
import Unbundle.Declaration.Stream
import Unbundle.Package

/-! The settings of a build, and when a build can be started with them. -/

namespace Unbundle

structure Settings where
  sourceRoot : Files.Path := ⟨""⟩
  outputRoot : Files.Path := ⟨"output/packages"⟩
  packagePrefix : String := "@azure-native-split/"
  frameworkImport : String := Implementation.defaultFrameworkImport
  extension : String := "ts"
  splitVersions : Bool := true
  /-- The output root is emptied before a build. -/
  clean : Bool := false
  /-- The number of workers, 0 for one on each core. -/
  jobs : Nat := 0
  ignoredDirs : List String := defaultIgnored
deriving DecidableEq, Repr

inductive InvalidSettings where
  | noSource
  | noOutput
  | tooManyJobs (jobs : Nat)
  | noPackagePrefix
  | badExtension (extension : String)
deriving DecidableEq, Repr

def maxJobs : Nat := 256

def InvalidSettings.message : InvalidSettings → String
  | .noSource => "source_root is not set (config file or --source)"
  | .noOutput => "output_root is empty"
  | .tooManyJobs jobs =>
    "jobs = " ++ toString jobs ++ " exceeds the maximum of " ++ toString maxJobs
  | .noPackagePrefix => "package_prefix is empty"
  | .badExtension extension =>
    "extension '" ++ extension ++ "' must be non-empty and given without a leading dot"

namespace Settings

def validate (settings : Settings) : Except InvalidSettings Unit := do
  if settings.sourceRoot.isEmpty then throw .noSource
  if settings.outputRoot.isEmpty then throw .noOutput
  if settings.jobs > maxJobs then throw (.tooManyJobs settings.jobs)
  if settings.packagePrefix.isEmpty then throw .noPackagePrefix
  if settings.extension.isEmpty || settings.extension.toList.head? == some '.' then
    throw (.badExtension settings.extension)

/-- An output root given from outside counts unless it is empty. -/
def overrideOutput (settings : Settings) (output : Option String) : Settings :=
  match output with
  | some output => if output.isEmpty then settings else { settings with outputRoot := ⟨output⟩ }
  | none => settings

/-- The number of workers, unless it is left to the machine. -/
def workers? (settings : Settings) : Option Nat :=
  if settings.jobs = 0 then none else some settings.jobs

def sdk (settings : Settings) : SdkLayout := ⟨settings.sourceRoot, settings.extension⟩

def packages (settings : Settings) : PackagesLayout := ⟨settings.outputRoot⟩

def imports (settings : Settings) : Implementation.Imports :=
  ⟨settings.frameworkImport, settings.packagePrefix⟩

def capture (settings : Settings) : Declaration.Options :=
  ⟨settings.frameworkImport, settings.splitVersions⟩

def adapter (settings : Settings) : Implementation.Adapter :=
  ⟨settings.sdk, settings.packages, settings.imports, settings.splitVersions⟩

end Settings

end Unbundle
