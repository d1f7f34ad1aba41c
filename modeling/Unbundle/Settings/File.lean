import Unbundle.Settings
import Unbundle.Settings.Toml

/-! Settings kept in a file. Each setting may be given once; an unknown name or a value of another
type makes the whole file malformed, and settings that are not given have their defaults. -/

namespace Unbundle
open Unbundle.Files

inductive SettingsError where
  | unreadable (path : Files.Path) (fault : Fault)
  | malformed (path : Files.Path)
  | invalid (reason : InvalidSettings)
deriving DecidableEq, Repr

def SettingsError.message : SettingsError → String
  | .unreadable path fault => "failed to read config '" ++ path.text ++ "': " ++ fault.message
  | .malformed path => "failed to parse config '" ++ path.text ++ "'"
  | .invalid reason => "invalid config: " ++ reason.message

namespace Settings

def assign? (settings : Settings) (entry : String × Toml.Value) : Option Settings :=
  match entry with
  | ("source_root", .text root) => some { settings with sourceRoot := ⟨root⟩ }
  | ("output_root", .text root) => some { settings with outputRoot := ⟨root⟩ }
  | ("package_prefix", .text value) => some { settings with packagePrefix := value }
  | ("framework_import", .text value) => some { settings with frameworkImport := value }
  | ("extension", .text extension) => some { settings with extension }
  | ("split_versions", .flag splitVersions) => some { settings with splitVersions }
  | ("clean", .flag clean) => some { settings with clean }
  | ("jobs", .number jobs) => if 0 ≤ jobs then some { settings with jobs := jobs.toNat } else none
  | ("ignored_dirs", .texts ignoredDirs) => some { settings with ignoredDirs }
  | _ => none

def ofText? (text : String) : Option Settings := do
  let entries ← Toml.ofText? text
  if (entries.map (·.1)).Nodup then entries.foldlM assign? {} else none

def ofFile (disk : Disk) (path : Files.Path) : Except SettingsError Settings :=
  match disk.readText path with
  | .error fault => .error (.unreadable path fault)
  | .ok text =>
    match ofText? text with
    | some settings => .ok settings
    | none => .error (.malformed path)

def defaultFile : Files.Path := ⟨"sdksplit.toml"⟩

/-- The file that was asked for; without one, the default file if it is there. -/
def load (disk : Disk) (path : Option Files.Path) : Except SettingsError Settings :=
  match path with
  | some path => ofFile disk path
  | none => if disk.isFile defaultFile then ofFile disk defaultFile else .ok {}

end Settings

end Unbundle
