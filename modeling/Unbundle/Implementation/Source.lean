import Unbundle.Implementation.Imports
import Unbundle.Reference.Rules
import Unbundle.Text.Lines

/-! The text of one implementation file in its own package: foreign imports and generator banners
are dropped, references to the module's own types go through its `types` module, and the imports
that this needs are put on top. -/

namespace Unbundle.Implementation
open Unbundle.Text

/-- What a file's place in the tree says about it. -/
structure Context where
  /-- The scope whose types are the file's own. -/
  scope : Scope
  /-- The version directory that the file is in. -/
  version : Option String := none
  isEntry : Bool
  /-- The path from the file to the `types` module. -/
  typesPath : String
deriving DecidableEq, Repr

/-- A generator banner: a comment whose text stands between two groups of three stars. -/
def isBanner (line : String) : Bool :=
  match after? "// *** ".toList line.toList with
  | none => false
  | some rest =>
    match after? " ***".toList.reverse (rest.reverse.dropWhile isBlank) with
    | none => false
    | some middle => !middle.contains '\n'

def dropClimbs : List Char → List Char
  | '.' :: '.' :: '/' :: rest => dropClimbs rest
  | rest => rest

/-- The module and the version named by a re-export from the tree of all enums. -/
def sharedEnums? (line : String) : Option (String × Option String) := do
  let rest ← after? "export * from \"../".toList line.toList
  let rest ← after? "types/enums/".toList (dropClimbs rest)
  let (module, rest) ← many1? isIdentifierPart rest
  let (version, rest) ←
    match after? ['/'] rest with
    | none => some (none, rest)
    | some rest => (many1? isIdentifierPart rest).map fun read => (some read.1, read.2)
  let rest ← after? "\";".toList rest
  if allBlank rest then some (String.ofList module, version.map String.ofList) else none

namespace Context

/-- Where the enums of a version lie depends on whether the version has types of its own. -/
def enumsPath (context : Context) (version : Option String) : String :=
  let enums := context.typesPath ++ "/" ++ enumsNamespace
  match version, context.scope.version with
  | some version, none => enums ++ "/" ++ version
  | _, _ => enums

/-- Points a re-export of the scope's own enums at the enums beside its types. -/
def redirect (context : Context) (line : String) : String :=
  match sharedEnums? line with
  | none => line
  | some (module, version) =>
    if module = context.scope.module ∧ version = context.version then
      "export * from \"" ++ context.enumsPath version ++ "\";"
    else line

def adapt (context : Context) (line : String) : String :=
  let line := (Reference.Rules.inImplementation context.scope).apply line
  if context.isEntry then context.redirect line else line

end Context

def Imports.keeps (imports : Imports) (line : String) : Bool :=
  !((importPath? line).any imports.drops || isBanner line)

/-- The file's own lines, adapted. The last one ends as it did in the source. -/
def body (imports : Imports) (context : Context) (content : String) : String :=
  let kept := (lines content).filter imports.keeps
  let text := joinLines (kept.map context.adapt)
  if content.toList.getLast? = some '\n' then text ++ "\n" else text

def needsTypes (text : String) : Bool :=
  sharedNamespaces.any fun space => contains (typesNamespace ++ "." ++ space ++ ".") text

def header (imports : Imports) (context : Context) (text : String) : List String :=
  [imports.framework, imports.core] ++
    if needsTypes text then [namespaceImport typesNamespace context.typesPath] else []

def adaptSource (imports : Imports) (context : Context) (content : String) : String :=
  let text := body imports context content
  joinLines (header imports context text) ++ "\n" ++ text

end Unbundle.Implementation
