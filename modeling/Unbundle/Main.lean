import Unbundle.CommandLine

/-! The program. What a run may touch is read from the file system into a disk, the run is done on
the disk, and what it changed is written back. -/

namespace Unbundle.Main
open Unbundle.Files

def absoluteText (loc : Location) : String := "/" ++ "/".intercalate loc.reverse

def locationOf (path : Files.Path) (start : Location) : Location :=
  path.steps.foldl (fun loc step =>
    match step with
    | .here | .slash => loc
    | .up => loc.tail
    | .into name => name :: loc) start

/-- What is at a location of the file system. A link's target is given from the root. -/
def entryAt? (loc : Location) : IO (Option Entry) := do
  let path := (← IO.currentDir) / absoluteText loc
  try
    match (← path.symlinkMetadata).type with
    | .file => return some (.file (← IO.FS.readBinFile path))
    | .dir => return some .directory
    | .symlink => return some (.link ⟨(← IO.FS.realPath path).toString⟩)
    | .other => return none
  catch _ => return none

/-- Adds an entry to the tree with all that is below it, and what a link leads to. -/
partial def capture (tree : FileTree) (loc : Location) : IO FileTree := do
  if (tree.find? loc).isSome && !tree.isDirectory loc then return tree
  match ← entryAt? loc with
  | none => return tree
  | some (.link target) =>
    let tree := tree.plant loc (.link target)
    let targetLocation := locationOf target []
    if (tree.find? targetLocation).isSome then return tree
    capture tree targetLocation
  | some entry =>
    let mut tree := tree.plant loc entry
    if entry.isDirectory then
      for child in ← ((← IO.currentDir) / absoluteText loc).readDir do
        tree ← capture tree (child.fileName :: loc)
    return tree

/-- Follows a path through the file system and adds what it leads to. -/
def captureRoute (tree : FileTree) (loc : Location) : List Step → IO FileTree
  | [] => capture tree loc
  | .here :: rest | .slash :: rest => captureRoute tree loc rest
  | .up :: rest => captureRoute tree loc.tail rest
  | .into name :: rest => do
    match ← entryAt? (name :: loc) with
    | none => return tree
    | some (.link target) =>
      captureRoute (tree.plant (name :: loc) (.link target)) (locationOf target []) rest
    | some entry => captureRoute (tree.plant (name :: loc) entry) (name :: loc) rest

def capturePath (home : Location) (tree : FileTree) (path : Files.Path) : IO FileTree :=
  captureRoute tree (if path.isAbsolute then [] else home) path.steps

/-- Brings the file system from one tree to another. -/
def writeBack (before after : FileTree) : IO Unit := do
  let inner := fun (a b : Location × Entry) => decide (b.1.length ≤ a.1.length)
  for (loc, entry) in before.entries.toList.mergeSort inner do
    unless after.find? loc = some entry do
      let path := (← IO.currentDir) / absoluteText loc
      match entry, after.find? loc with
      | .directory, _ => IO.FS.removeDir path
      | .file _, some (.file _) => pure ()
      | _, _ => IO.FS.removeFile path
  for (loc, entry) in (after.entries.toList.mergeSort inner).reverse do
    unless before.find? loc = some entry do
      let path := (← IO.currentDir) / absoluteText loc
      match entry with
      | .directory => IO.FS.createDir path
      | .file content => IO.FS.writeBinFile path content
      | .link _ => pure ()

def run (arguments : List String) : IO UInt32 := do
  let home := locationOf ⟨(← IO.currentDir).toString⟩ []
  let output ← IO.getEnv "OUTPUT_PATH"
  let mut tree := FileTree.empty.plant home .directory
  for path in CommandLine.settingsFiles arguments do tree ← capturePath home tree path
  for path in CommandLine.touched { home, tree } arguments output do
    tree ← capturePath home tree path
  let (answer, disk) := (CommandLine.run arguments output).run { home, tree }
  writeBack tree disk.tree
  match CommandLine.Request.ofArguments arguments with
  | .help => for line in CommandLine.usage do IO.println line
  | .misused => for line in CommandLine.usage do IO.eprintln line
  | _ => for line in answer.lines do IO.println line
  return answer.exitCode.toUInt32

end Unbundle.Main

def main (arguments : List String) : IO UInt32 := Unbundle.Main.run arguments
