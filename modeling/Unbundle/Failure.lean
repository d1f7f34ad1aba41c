import Unbundle.Declaration.Issue
import Unbundle.Files.Disk

/-! What can go wrong in the work on one package. -/

namespace Unbundle
open Unbundle.Files

inductive Failure where
  | io (path : Files.Path) (fault : Fault)
  | structural (issue : Declaration.Issue)
  /-- An entry of a module's source tree that is neither a file nor a version directory. -/
  | unknownEntry (path : Files.Path)
  | metadata (package message : String)
deriving DecidableEq, Repr

def Failure.message : Failure → String
  | .io path fault => "I/O error at '" ++ path.text ++ "': " ++ fault.message
  | .structural issue => issue.message
  | .unknownEntry path => "unsupported entry in module source tree: '" ++ path.text ++ "'"
  | .metadata package message => "package metadata for '" ++ package ++ "' failed: " ++ message

/-- Work on a disk whose faults are failures at a path. -/
abbrev Work := DiskM Failure

/-- The failure of an operation is recorded at the path that was asked for. -/
def Work.at {α : Type} (path : Files.Path) (operation : DiskM Fault α) : Work α :=
  operation.adapt (Failure.io path)

namespace Work

def readText (path : Files.Path) : Work String := Work.at path (DiskM.ofDisk (·.readText path))

/-- A file that is missing is no failure. -/
def readText? (path : Files.Path) : Work (Option String) :=
  Work.at path do
    try some <$> DiskM.ofDisk (·.readText path)
    catch
      | .notFound => return none
      | fault => throw fault

def list (path : Files.Path) : Work (List (String × Entry)) :=
  Work.at path (DiskM.ofDisk (·.list path))

/-- A directory that is missing has no entries. -/
def listIfPresent (path : Files.Path) : Work (List (String × Entry)) :=
  Work.at path do
    try DiskM.ofDisk (·.list path)
    catch
      | .notFound => return []
      | fault => throw fault

def writeText (path : Files.Path) (text : String) : Work Unit :=
  Work.at path (DiskM.writeText path text)

def makeDirectories (path : Files.Path) : Work Unit := Work.at path (DiskM.makeDirectories path)

end Work

/-- The names of the directories among some entries. -/
def directoryNames (entries : List (String × Entry)) : List String :=
  (entries.filter fun entry => entry.2.isDirectory).map (·.1)

end Unbundle
