/-! Paths as they are written. A path keeps its spelling, since messages show it; what it names is
read off its steps. -/

namespace Unbundle.Files

structure Path where
  text : String
deriving DecidableEq, Repr

/-- The longest name an entry of a directory can have. -/
def maxNameBytes : Nat := 255

/-- The longest path that can be asked for. -/
def maxPathBytes : Nat := 4095

/-- What an entry of a directory can be called. -/
def isFileName (name : String) : Bool :=
  name != "" && name != "." && name != ".." && !name.toList.contains '/' &&
    !name.toList.contains '\x00' && decide (name.utf8ByteSize ≤ maxNameBytes)

inductive Step where
  /-- `.`, which stays where it is. -/
  | here
  /-- `..` -/
  | up
  | into (name : String)
  /-- A slash at the end of a path, which asks for a directory. -/
  | slash
deriving DecidableEq, Repr

def Step.ofName (name : String) : Step :=
  if name = "." then .here else if name = ".." then .up else .into name

def Step.name : Step → String
  | .here => "."
  | .up => ".."
  | .into name => name
  | .slash => ""

namespace Path

/-- The pieces between slashes; one more than there are slashes. -/
def pieces : List Char → List (List Char)
  | [] => [[]]
  | c :: s =>
    if c = '/' then [] :: pieces s
    else
      match pieces s with
      | [] => [[c]]
      | piece :: more => (c :: piece) :: more

def isEmpty (path : Path) : Bool := path.text.isEmpty

def isAbsolute (path : Path) : Bool := path.text.toList.head? == some '/'

def endsInSlash (path : Path) : Bool := path.text.toList.getLast? == some '/'

/-- Appends a piece behind a slash; an absolute piece takes the place of all before it. -/
def join (path : Path) (piece : String) : Path :=
  if (Path.mk piece).isAbsolute then ⟨piece⟩
  else if path.isEmpty || path.endsInSlash then ⟨path.text ++ piece⟩
  else ⟨path.text ++ "/" ++ piece⟩

/-- Slashes that follow each other count as one, and one at the end adds no step. -/
def steps (path : Path) : List Step :=
  ((pieces path.text.toList).filter fun piece => !piece.isEmpty).map fun piece =>
    Step.ofName (String.ofList piece)

/-- The steps to what the path names, with one for a slash at the end. -/
def route (path : Path) : List Step :=
  path.steps ++ if path.endsInSlash then [.slash] else []

def ofSteps (absolute : Bool) (steps : List Step) : Path :=
  ⟨(if absolute then "/" else "") ++ "/".intercalate (steps.map Step.name)⟩

/-- The steps without those that stay, except one that a relative path begins with. -/
def plainSteps (path : Path) : List Step :=
  match path.steps with
  | [] => []
  | first :: rest =>
    let rest := rest.filter (· != .here)
    if path.isAbsolute && first == .here then rest else first :: rest

/-- The paths of the directories above, the nearest first. -/
def ancestors (path : Path) : List Path :=
  let steps := path.plainSteps
  (List.range steps.length).reverse.map fun n => ofSteps path.isAbsolute (steps.take n)

end Path

end Unbundle.Files
