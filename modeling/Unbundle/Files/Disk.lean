import Unbundle.Files.Walk

/-! A tree with a working directory, and the operations on it that paths name. An operation gives a
result or a fault, and whatever it changed before the fault stays changed. The disk also remembers
which files were opened for writing.

A directory is listed in the order of its names, where a file system may give its entries in any
order. A copy has the content of its source alone, where the system copies the permissions too. -/

namespace Unbundle.Files

structure Disk where
  /-- The working directory, where relative paths begin. -/
  home : Location
  tree : FileTree
  /-- The files opened for writing so far, the latest first. -/
  written : List Location := []

/-- A computation on a disk. -/
abbrev DiskM (ε : Type) := ExceptT ε (StateM Disk)

namespace Disk

def start (disk : Disk) (path : Path) : Location := if path.isAbsolute then [] else disk.home

/-- Follows steps from where a path starts. An empty path names nothing. -/
def follow (disk : Disk) (path : Path) (purpose : Purpose) (steps : List Step) :
    Except Fault Location :=
  if path.text.toList.contains '\x00' then .error .nulInName
  else if maxPathBytes < path.text.utf8ByteSize then .error .nameTooLong
  else if path.isEmpty then .error .notFound
  else disk.tree.walk purpose FileTree.maxLinks (disk.start path) steps

/-- What a path names, links followed to the end. -/
def entry (disk : Disk) (path : Path) : Except Fault (Location × Entry) := do
  let loc ← disk.follow path .target path.route
  match disk.tree.find? loc with
  | some entry => .ok (loc, entry)
  | none => .error .notFound

/-- What a path names, a link at its end not followed. -/
def entryItself (disk : Disk) (path : Path) : Except Fault (Location × Entry) := do
  let loc ← disk.follow path .entry path.route
  match disk.tree.find? loc with
  | some entry => .ok (loc, entry)
  | none => .error .notFound

def pathExists (disk : Disk) (path : Path) : Bool := (disk.entry path).isOk

def isDirectory (disk : Disk) (path : Path) : Bool :=
  match disk.entry path with
  | .ok (_, .directory) => true
  | _ => false

def isFile (disk : Disk) (path : Path) : Bool :=
  match disk.entry path with
  | .ok (_, .file _) => true
  | _ => false

def readBytes (disk : Disk) (path : Path) : Except Fault ByteArray := do
  match (← disk.entry path).2 with
  | .file content => .ok content
  | _ => .error .isDirectory

def readText (disk : Disk) (path : Path) : Except Fault String := do
  match String.fromUTF8? (← disk.readBytes path) with
  | some text => .ok text
  | none => .error .notText

/-- The entries of a directory, in the order of their names. -/
def list (disk : Disk) (path : Path) : Except Fault (List (String × Entry)) := do
  let (loc, entry) ← disk.entry path
  if entry.isDirectory then .ok (disk.tree.children loc) else .error .notDirectory

/-- The directory that the last step of a path starts from, and that step. -/
def lastStep (disk : Disk) (path : Path) : Except Fault (Location × Option Step) := do
  let above ← disk.follow path .target (path.steps.dropLast ++ [.slash])
  .ok (above, path.steps.getLast?)

/-- The file that writing to a path would write, there already or not. -/
def target (disk : Disk) (path : Path) : Except Fault Location := do
  let loc ← disk.follow path .writing path.route
  if disk.tree.isDirectory loc then .error .isDirectory else .ok loc

end Disk

namespace DiskM
variable {ε : Type}

def ofDisk {α : Type} (read : Disk → Except ε α) : DiskM ε α := do
  match read (← get) with
  | .ok result => return result
  | .error fault => throw fault

/-- Puts an entry where there is a directory to hold it. -/
def put (loc : Location) (entry : Entry) : DiskM Fault Unit := do
  let disk ← get
  match disk.tree.put? loc entry with
  | some tree => set { disk with tree }
  | none => throw .notFound

def makeDirectory (path : Path) : DiskM Fault Unit := do
  match ← ofDisk (·.lastStep path) with
  | (dir, some (.into name)) =>
    if maxNameBytes < name.utf8ByteSize then throw .nameTooLong
    if ((← get).tree.find? (name :: dir)).isSome then throw .alreadyExists
    put (name :: dir) .directory
  | _ => throw .alreadyExists

/-- Makes a directory unless it is there. `onMissing` says what to do when the one above is not. -/
def makeDirectoryOr (path : Path) (onMissing : DiskM Fault Unit) : DiskM Fault Unit := do
  if path.isEmpty then return
  try makeDirectory path
  catch
    | .notFound => onMissing
    | fault => unless (← get).isDirectory path do throw fault

/-- Makes a directory and the missing ones of those above it, the nearest of which comes first. -/
def makeDirectoriesBelow (path : Path) : List Path → DiskM Fault Unit
  | [] => makeDirectoryOr path (throw .notFound)
  | parent :: above => makeDirectoryOr path do
    makeDirectoriesBelow parent above
    makeDirectoryOr path (throw .notFound)

def makeDirectories (path : Path) : DiskM Fault Unit := makeDirectoriesBelow path path.ancestors

/-- Empties the file that a path names, or makes it, and gives its location. -/
def openForWriting (path : Path) : DiskM Fault Location := do
  let loc ← ofDisk (·.target path)
  put loc (.file ByteArray.empty)
  modify fun disk => { disk with written := loc :: disk.written }
  return loc

def writeBytes (path : Path) (content : ByteArray) : DiskM Fault Unit := do
  let loc ← openForWriting path
  put loc (.file content)

def writeText (path : Path) (text : String) : DiskM Fault Unit := writeBytes path text.toUTF8

/-- Copies a file's content. The copy is emptied first, so that copying a file onto itself leaves
nothing of it. -/
def copyFile (source copy : Path) : DiskM Fault Unit := do
  let (loc, entry) ← ofDisk (·.entry source)
  if entry.isDirectory then throw .notRegularFile
  let copied ← openForWriting copy
  match (← get).tree.find? loc with
  | some entry => put copied entry
  | none => throw .notFound

/-- Removes a directory with all it holds. A link is removed itself. When the way to the directory
led through something that it held, it cannot be reached any more and is left, empty, without a
fault. -/
def removeAll (path : Path) : DiskM Fault Unit := do
  let (loc, entry) ← ofDisk (·.entryItself path)
  let erase := modify fun disk => { disk with tree := disk.tree.erase loc }
  match entry with
  | .link _ => erase
  | .file _ => throw .notDirectory
  | .directory =>
    modify fun disk => { disk with tree := disk.tree.eraseBelow loc }
    match (← get).lastStep path with
    | .error .notFound => return
    | .error fault => throw fault
    | .ok (dir, some (.into name)) => if name :: dir = loc then erase else throw .notDirectory
    | .ok (_, some .up) => throw .notEmpty
    | .ok _ => throw .invalidArgument

end DiskM

end Unbundle.Files
