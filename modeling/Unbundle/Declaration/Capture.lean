import Unbundle.Declaration.Opener
import Unbundle.Declaration.Stream
import Unbundle.Reference.Rules

/-! Reading a declaration stream. The stream has no structure beyond the lines that open and close
namespaces, so one pass over its lines, a `Capture`, finds the blocks and copies their lines into
slices. It never fails: damage is noted, and a damaged block is left out. -/

namespace Unbundle.Declaration
open Std (ExtTreeMap)

structure ModuleBlock where
  name : String
  slices : ModuleSlices

structure VersionBlock where
  name : String
  slice : Slice

/-- What a module block is open for. -/
inductive Inner where
  /-- Lines of the module itself. -/
  | body
  | version (block : VersionBlock)
  /-- A version that was captured before in this block and is passed over to its end. -/
  | repeated

inductive Place where
  | outside
  | inside (block : ModuleBlock) (inner : Inner)
  /-- In a module that was captured before and is passed over to its end. -/
  | repeated

structure Capture where
  direction : Direction
  options : Options
  place : Place := .outside
  modules : ExtTreeMap String ModuleSlices := ∅
  issues : List Issue := []
  /-- The lines taken so far, which is the number of the line taken last. -/
  line : Nat := 0

def ModuleBlock.push (block : ModuleBlock) (line : String) : ModuleBlock :=
  { block with slices.own := block.slices.own.push line }

def ModuleBlock.keep (block : ModuleBlock) (version : VersionBlock) : ModuleBlock :=
  { block with slices.versions := block.slices.versions.insert version.name version.slice }

def VersionBlock.push (block : VersionBlock) (line : String) : VersionBlock :=
  { block with slice := block.slice.push line }

namespace Capture

def note (capture : Capture) (scope : Scope) (kind : IssueKind) : Capture :=
  { capture with issues := capture.issues ++ [⟨scope, capture.direction, kind⟩] }

def enterModule (capture : Capture) (name : String) : Capture :=
  if capture.modules.contains name then
    { capture.note ⟨name, none⟩ (.reopened capture.line) with place := .repeated }
  else
    let block : ModuleBlock := ⟨name, { own := .ofHeader capture.options.header }⟩
    { capture with place := .inside block .body }

def enterVersion (capture : Capture) (block : ModuleBlock) (name : String) : Capture :=
  if block.slices.versions.contains name then
    { capture.note ⟨block.name, some name⟩ (.reopened capture.line) with
      place := .inside block .repeated }
  else
    let version : VersionBlock := ⟨name, .ofHeader capture.options.header⟩
    { capture with place := .inside block (.version version) }

/-- A version that is open when its module ends is unclosed. -/
def abandon (capture : Capture) (block : ModuleBlock) : Inner → Capture
  | .version version => capture.note ⟨block.name, some version.name⟩ .unclosed
  | .body | .repeated => capture

def keepModule (capture : Capture) (block : ModuleBlock) : Capture :=
  { capture with
    place := .outside
    modules := capture.modules.insert block.name block.slices }

/-- A module that is open when another one opens or the stream ends is unclosed. -/
def abandonModule (capture : Capture) (block : ModuleBlock) (inner : Inner) : Capture :=
  (capture.abandon block inner).note ⟨block.name, none⟩ .unclosed

def opensVersion? (capture : Capture) (line : String) : Option String :=
  if capture.options.splitVersions then versionOpened? line else none

/-- A line inside a module block that neither closes the block nor opens another module. -/
def within (capture : Capture) (block : ModuleBlock) (inner : Inner) (line : String) : Capture :=
  match inner with
  | .body =>
    match capture.opensVersion? line with
    | some name => capture.enterVersion block name
    | none =>
      let line := Reference.localize ⟨block.name, none⟩ capture.direction line
      { capture with place := .inside (block.push line) .body }
  | .version version =>
    if line = versionClose then { capture with place := .inside (block.keep version) .body }
    else
      let line := Reference.localize ⟨block.name, some version.name⟩ capture.direction line
      { capture with place := .inside block (.version (version.push line)) }
  | .repeated =>
    if line = versionClose then { capture with place := .inside block .body } else capture

/-- What a line does where the capture stands, the line already counted. -/
def step (capture : Capture) (line : String) : Capture :=
  match capture.place with
  | .outside =>
    match moduleOpened? line with
    | some name => capture.enterModule name
    | none => capture
  | .repeated =>
    if line = moduleClose then { capture with place := .outside }
    else
      match moduleOpened? line with
      | some name => capture.enterModule name
      | none => capture
  | .inside block inner =>
    if line = moduleClose then (capture.abandon block inner).keepModule block
    else
      match moduleOpened? line with
      | some name => (capture.abandonModule block inner).enterModule name
      | none => capture.within block inner line

def take (capture : Capture) (line : String) : Capture :=
  { capture with line := capture.line + 1 }.step line

def takeAll (capture : Capture) (lines : List String) : Capture := lines.foldl take capture

/-- The end of the stream. -/
def stream (capture : Capture) : Stream :=
  let ended :=
    match capture.place with
    | .inside block inner => capture.abandonModule block inner
    | .outside | .repeated => capture
  ⟨ended.direction, ended.modules, ended.issues⟩

end Capture

namespace Stream

def ofLines (direction : Direction) (options : Options) (lines : List String) : Stream :=
  (Capture.takeAll { direction, options } lines).stream

def ofText (direction : Direction) (options : Options) (text : String) : Stream :=
  ofLines direction options (Text.lines text)

/-- The stream of an encoded text; nothing when the bytes are not UTF-8. -/
def ofBytes? (direction : Direction) (options : Options) (bytes : ByteArray) : Option Stream :=
  (Text.decodeLines? bytes).map (ofLines direction options)

end Stream

end Unbundle.Declaration
