import Unbundle.Text.Blank
import Unbundle.Text.Search
import Unbundle.Text.Word

/-! The parts that the recognised lines are made of. A recogniser gives what it read and the rest of
the text, or nothing. -/

namespace Unbundle.Text

def isIdentifierStart (c : Char) : Bool := c.isAlpha || c == '_' || c == '$'

def isIdentifierPart (c : Char) : Bool := isWord c || c == '$'

def identifier? : List Char → Option (List Char × List Char)
  | [] => none
  | c :: s =>
    if isIdentifierStart c then
      let (name, rest) := spanChars isIdentifierPart s
      some (c :: name, rest)
    else none

/-- One or more characters of a class, as many as there are. -/
def many1? (p : Char → Bool) (s : List Char) : Option (List Char × List Char) :=
  let (run, rest) := spanChars p s
  if run.isEmpty then none else some (run, rest)

def allBlank (s : List Char) : Bool := s.all isBlank

end Unbundle.Text
