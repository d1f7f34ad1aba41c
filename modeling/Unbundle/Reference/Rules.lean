import Unbundle.Reference.Rule
import Unbundle.Scope
import Unbundle.StableSort

/-! Rules applied one after another, those with the longer pattern first. A pattern with a version
begins with the pattern of its module, so it has to take its occurrences before the shorter one
does. Length is counted in bytes; rules of one length keep the order in which they were given. -/

namespace Unbundle.Reference

def Rule.precedes (a b : Rule) : Bool := b.pattern.utf8ByteSize ≤ a.pattern.utf8ByteSize

structure Rules where
  toList : List Rule
  ordered : toList.Pairwise fun a b => a.precedes b = true

def Rules.ofList (rules : List Rule) : Rules where
  toList := stableSort Rule.precedes rules
  ordered := pairwise_stableSort
    (fun a b => by simp only [Rule.precedes, decide_eq_true_eq]; omega)
    (fun a b c => by simp only [Rule.precedes, decide_eq_true_eq]; omega) rules

def Rules.apply (rules : Rules) (line : String) : String :=
  rules.toList.foldl (fun line rule => rule.apply line) line

/-- In a slice of types a module's own types lose their qualification, and its enums are reached
through the one enums module beside the slice. -/
def Rules.inTypes (scope : Scope) (direction : Direction) : Rules :=
  .ofList [⟨direction.namespaceName ++ "." ++ scope.qualification, ""⟩,
    ⟨enumsNamespace ++ "." ++ scope.qualification, enumsNamespace ++ "."⟩]

/-- In implementation code a module's own types are reached through its `types` module. -/
def Rules.inImplementation (scope : Scope) : Rules :=
  .ofList (sharedNamespaces.map fun space =>
    ⟨space ++ "." ++ scope.qualification, typesNamespace ++ "." ++ space ++ "."⟩)

/-- Takes one level of indentation off a line that has it. -/
def unindent (line : String) : String :=
  match line.toList with
  | ' ' :: ' ' :: ' ' :: ' ' :: rest => String.ofList rest
  | _ => line

/-- A line of a namespace body as it stands in the slice of a scope. -/
def localize (scope : Scope) (direction : Direction) (line : String) : String :=
  (Rules.inTypes scope direction).apply (unindent line)

end Unbundle.Reference
