import Unbundle.Declaration.Capture
import Unbundle.Failure

/-! Declaration streams kept in files. -/

namespace Unbundle.Declaration
open Unbundle.Files

def readStream (path : Files.Path) (direction : Direction) (options : Options) : Work Stream :=
  Work.at path do
    match Stream.ofBytes? direction options (← DiskM.ofDisk (·.readBytes path)) with
    | some stream => return stream
    | none => throw .notText

end Unbundle.Declaration
