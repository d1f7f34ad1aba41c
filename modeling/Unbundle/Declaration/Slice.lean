import Std.Data.ExtTreeMap
import Unbundle.Text.Lines

/-! Slices: the lines of one scope that were cut out of a declaration stream, and the slices of one
module with all its versions. -/

namespace Unbundle.Declaration
open Std (ExtTreeMap)

structure Slice where
  lines : List String := []
deriving DecidableEq, Repr

namespace Slice

/-- A slice that holds a header and nothing yet below it. -/
def ofHeader (header : String) : Slice := ⟨[header]⟩

def push (slice : Slice) (line : String) : Slice := ⟨slice.lines ++ [line]⟩

/-- Puts a line on top. -/
def cons (line : String) (slice : Slice) : Slice := ⟨line :: slice.lines⟩

/-- The lines with a newline between them and none at the end. -/
def text (slice : Slice) : String := Text.joinLines slice.lines

end Slice

structure ModuleSlices where
  own : Slice
  versions : ExtTreeMap String Slice := ∅

end Unbundle.Declaration
