import Unbundle.Files.Tree

/-! Following a path through a tree. A link met on the way is replaced by its target; after a fixed
number of links the walk gives up. The last step may name nothing yet, so that a walk also finds
the location where a new file would go. A file that is to be written is never asked for as a
directory, be it by its own path or by the target of a link, whether or not one is there. -/

namespace Unbundle.Files

inductive Fault where
  | notFound
  | alreadyExists
  | notDirectory
  | isDirectory
  | invalidArgument
  | notEmpty
  | nameTooLong
  | linkLoop
  | nulInName
  | notText
  | notRegularFile
deriving DecidableEq, Repr

def Fault.message : Fault → String
  | .notFound => "No such file or directory (os error 2)"
  | .alreadyExists => "File exists (os error 17)"
  | .notDirectory => "Not a directory (os error 20)"
  | .isDirectory => "Is a directory (os error 21)"
  | .invalidArgument => "Invalid argument (os error 22)"
  | .nameTooLong => "File name too long (os error 36)"
  | .notEmpty => "Directory not empty (os error 39)"
  | .linkLoop => "Too many levels of symbolic links (os error 40)"
  | .nulInName => "file name contained an unexpected NUL byte"
  | .notText => "stream did not contain valid UTF-8"
  | .notRegularFile =>
    "the source path is neither a regular file nor a symlink to a regular file"

/-- What a walk is for, which decides about its last step. -/
inductive Purpose where
  /-- To find an entry; a link is one. -/
  | entry
  /-- To find what a link leads to. -/
  | target
  /-- To find where a file is to be written. -/
  | writing
deriving DecidableEq, Repr

namespace FileTree

/-- Takes the steps one by one. `onLink` goes on, from a location, with the steps of a link's target
and those that were left. -/
def walkWith (tree : FileTree) (purpose : Purpose)
    (onLink : Location → List Step → Except Fault Location) :
    Location → List Step → Except Fault Location
  | dir, [] => .ok dir
  | dir, .here :: rest => walkWith tree purpose onLink dir rest
  | dir, .slash :: rest => walkWith tree purpose onLink dir rest
  | dir, .up :: rest => walkWith tree purpose onLink dir.tail rest
  | dir, .into name :: rest =>
    if purpose = .writing ∧ rest = [.slash] then .error .isDirectory
    else if maxNameBytes < name.utf8ByteSize then .error .nameTooLong
    else
      match tree.find? (name :: dir) with
      | none => if rest.isEmpty then .ok (name :: dir) else .error .notFound
      | some (.file _) => if rest.isEmpty then .ok (name :: dir) else .error .notDirectory
      | some .directory => walkWith tree purpose onLink (name :: dir) rest
      | some (.link target) =>
        if rest.isEmpty && purpose = .entry then .ok (name :: dir)
        else onLink (if target.isAbsolute then [] else dir) (target.route ++ rest)

/-- A walk that may pass at most `links` links. -/
def walk (tree : FileTree) (purpose : Purpose) : Nat → Location → List Step → Except Fault Location
  | 0 => tree.walkWith purpose fun _ _ => .error .linkLoop
  | links + 1 => tree.walkWith purpose (tree.walk purpose links)

def maxLinks : Nat := 40

end FileTree

end Unbundle.Files
