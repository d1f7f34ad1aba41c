import Unbundle.Declaration.Capture
import Unbundle.Proofs.Declaration.Openers

/-! Documents: what an undamaged stream is made of, as trees. A document has a text, and it says
what the slices of its modules and their versions are. -/

namespace Unbundle.Declaration
open Std (ExtTreeMap)

/-- A version block: the line that opens it and the lines up to the one that closes it. -/
structure VersionText where
  name : String
  opener : String
  body : List String
  opens : OpensVersion opener name
  inside : ∀ line ∈ body, StaysInModule line ∧ line ≠ versionClose

/-- What a module block consists of. Versions are blocks of their own only if they are split off. -/
inductive Item (split : Bool) where
  | plain (line : String) (stays : StaysInModule line)
      (opensNone : split = true → ∀ name, ¬ OpensVersion line name)
  | version (text : VersionText) (isSplit : split = true)

namespace VersionText

/-- The lines of the block without the one that closes it. -/
def head (text : VersionText) : List String := text.opener :: text.body

def lines (text : VersionText) : List String := text.head ++ [versionClose]

end VersionText

variable {split : Bool}

namespace Item

def lines : Item split → List String
  | .plain line _ _ => [line]
  | .version text _ => text.lines

def plain? : Item split → Option String
  | .plain line _ _ => some line
  | .version _ _ => none

def version? : Item split → Option VersionText
  | .plain _ _ _ => none
  | .version text _ => some text

end Item

def versionNames (items : List (Item split)) : List String :=
  (items.filterMap Item.version?).map VersionText.name

structure ModuleText (split : Bool) where
  name : String
  opener : String
  items : List (Item split)
  opens : OpensModule opener name
  distinct : (versionNames items).Nodup

namespace ModuleText

def head (text : ModuleText split) : List String := text.opener :: text.items.flatMap Item.lines

def lines (text : ModuleText split) : List String := text.head ++ [moduleClose]

/-- The lines of the block that belong to the module itself. -/
def plainLines (text : ModuleText split) : List String := text.items.filterMap Item.plain?

def versions (text : ModuleText split) : List VersionText := text.items.filterMap Item.version?

end ModuleText

/-- What a stream consists of; a line between the blocks may be anything that opens no module. -/
inductive Part (split : Bool) where
  | junk (line : String) (opensNone : ∀ name, ¬ OpensModule line name)
  | module (text : ModuleText split)

namespace Part

def lines : Part split → List String
  | .junk line _ => [line]
  | .module text => text.lines

def module? : Part split → Option (ModuleText split)
  | .junk _ _ => none
  | .module text => some text

end Part

def moduleNames (parts : List (Part split)) : List String :=
  (parts.filterMap Part.module?).map ModuleText.name

structure Document (split : Bool) where
  parts : List (Part split)
  distinct : (moduleNames parts).Nodup

namespace Document

def lines (doc : Document split) : List String := doc.parts.flatMap Part.lines

def modules (doc : Document split) : List (ModuleText split) := doc.parts.filterMap Part.module?

end Document

/-! What a document says, and what is found under a name. -/

section Contents
variable (direction : Direction) (header : String)

def VersionText.slice (module : String) (text : VersionText) : Slice :=
  ⟨header :: text.body.map (Reference.localize ⟨module, some text.name⟩ direction)⟩

/-- A module block with further items read into it. -/
def ModuleBlock.absorb (block : ModuleBlock) (items : List (Item split)) : ModuleBlock where
  name := block.name
  slices :=
    { own := ⟨block.slices.own.lines ++
        (items.filterMap Item.plain?).map (Reference.localize ⟨block.name, none⟩ direction)⟩
      versions := block.slices.versions.insertMany
        ((items.filterMap Item.version?).map fun text =>
          (text.name, text.slice direction header block.name)) }

theorem absorb_plain (block : ModuleBlock) (items : List (Item split)) {line : String}
    (hstays : StaysInModule line) (hnone : split = true → ∀ name, ¬ OpensVersion line name) :
    block.absorb direction header (.plain line hstays hnone :: items) =
      (block.push (Reference.localize ⟨block.name, none⟩ direction line)).absorb direction header
        items := by
  simp [ModuleBlock.absorb, ModuleBlock.push, Slice.push, Item.plain?, Item.version?,
    List.filterMap_cons]

theorem absorb_version (block : ModuleBlock) (items : List (Item split)) (text : VersionText)
    (hsplit : split = true) :
    block.absorb direction header (.version text hsplit :: items) =
      (block.keep ⟨text.name, text.slice direction header block.name⟩).absorb direction header
        items := by
  simp [ModuleBlock.absorb, ModuleBlock.keep, Item.plain?, Item.version?, List.filterMap_cons,
    ExtTreeMap.insertMany_cons]

def ModuleText.slices (text : ModuleText split) : ModuleSlices :=
  (ModuleBlock.absorb direction header ⟨text.name, { own := .ofHeader header }⟩ text.items).slices

/-- What a stream adds to the modules it finds. -/
def entries (parts : List (Part split)) : List (String × ModuleSlices) :=
  (parts.filterMap Part.module?).map fun text => (text.name, text.slices direction header)

end Contents

theorem getElem?_ofList_of_nodup {β : Type} {list : List (String × β)} {key : String} {value : β}
    (hnodup : (list.map Prod.fst).Nodup) (h : (key, value) ∈ list) :
    (ExtTreeMap.ofList list)[key]? = some value := by
  have hdistinct : list.Pairwise fun a b => ¬ compare a.1 b.1 = .eq := by
    refine (List.pairwise_map.1 hnodup).imp fun hne heq => ?_
    exact hne (Std.LawfulEqOrd.compare_eq_iff_eq.1 heq)
  exact ExtTreeMap.getElem?_ofList_of_mem Std.ReflCmp.compare_self hdistinct h

section Lookup
variable (direction : Direction) (header : String)

theorem slices_own (text : ModuleText split) :
    (text.slices direction header).own.lines =
      header :: text.plainLines.map (Reference.localize ⟨text.name, none⟩ direction) := by
  simp [ModuleText.slices, ModuleBlock.absorb, Slice.ofHeader, ModuleText.plainLines]

theorem slices_versions (text : ModuleText split) :
    (text.slices direction header).versions = .ofList (text.versions.map fun version =>
      (version.name, version.slice direction header text.name)) := by
  rw [ExtTreeMap.ofList_eq_insertMany_empty]
  rfl

theorem mem_slices_versions {text : ModuleText split} {name : String} :
    name ∈ (text.slices direction header).versions ↔ name ∈ versionNames text.items := by
  rw [ModuleText.slices, ModuleBlock.absorb, ExtTreeMap.mem_insertMany_list]
  simp [versionNames]

theorem getElem?_slices_versions {text : ModuleText split} {version : VersionText}
    (h : version ∈ text.versions) :
    (text.slices direction header).versions[version.name]? =
      some (version.slice direction header text.name) := by
  rw [slices_versions]
  refine getElem?_ofList_of_nodup ?_ (List.mem_map.2 ⟨version, h, rfl⟩)
  rw [List.map_map]
  exact text.distinct

theorem mem_entries {parts : List (Part split)} {name : String} :
    name ∈ ExtTreeMap.ofList (entries direction header parts) ↔
      name ∈ moduleNames parts := by
  rw [ExtTreeMap.mem_ofList, List.contains_iff_mem]
  simp [entries, moduleNames]

theorem getElem?_entries (doc : Document split) {text : ModuleText split}
    (h : text ∈ doc.modules) :
    (ExtTreeMap.ofList (entries direction header doc.parts))[text.name]? =
      some (text.slices direction header) := by
  refine getElem?_ofList_of_nodup ?_ (List.mem_map.2 ⟨text, h, rfl⟩)
  rw [entries, List.map_map]
  exact doc.distinct

end Lookup

end Unbundle.Declaration
