/-! What the generated code is divided by: the two directions of the types and the scopes, a module
or one version of it, that types belong to. -/

namespace Unbundle

inductive Direction where
  | inputs
  | outputs
deriving DecidableEq, Repr

/-- The namespace under which implementation code reaches the types of a direction. -/
def Direction.namespaceName : Direction → String
  | .inputs => "inputs"
  | .outputs => "outputs"

/-- The name of a direction in file names and messages. -/
def Direction.stem : Direction → String
  | .inputs => "input"
  | .outputs => "output"

structure Scope where
  module : String
  version : Option String := none
deriving DecidableEq, Repr

/-- A version is named behind its module and a dot. -/
def Scope.name (scope : Scope) : String :=
  match scope.version with
  | none => scope.module
  | some version => scope.module ++ "." ++ version

/-- What stands between a namespace and a type's own name: `module.` or `module.version.`. -/
def Scope.qualification (scope : Scope) : String := scope.name ++ "."

def enumsNamespace : String := "enums"

def typesNamespace : String := "types"

/-- The namespaces under which implementation code reaches the types of all modules. -/
def sharedNamespaces : List String :=
  [Direction.inputs.namespaceName, Direction.outputs.namespaceName, enumsNamespace]

end Unbundle
