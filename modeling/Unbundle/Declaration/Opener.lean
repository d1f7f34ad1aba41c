import Unbundle.Text.Recognize

/-! The lines that open and close namespaces. A module opens at column 0 and a version one level in;
a version's name begins with `v`. -/

namespace Unbundle.Declaration
open Unbundle.Text

/-- The end of every opening line: a brace and nothing but blanks behind it. -/
def opensBlock (s : List Char) : Bool :=
  match after? " \x7b".toList s with
  | some rest => allBlank rest
  | none => false

def moduleOpened? (line : String) : Option String := do
  let rest ← after? "export namespace ".toList line.toList
  let (name, rest) ← identifier? rest
  if opensBlock rest then some (String.ofList name) else none

def versionOpened? (line : String) : Option String := do
  let rest ← after? "    export namespace ".toList line.toList
  let ('v' :: _) := rest | none
  let (name, rest) ← identifier? rest
  if opensBlock rest then some (String.ofList name) else none

def moduleClose : String := "\x7d"

def versionClose : String := "    \x7d"

end Unbundle.Declaration
