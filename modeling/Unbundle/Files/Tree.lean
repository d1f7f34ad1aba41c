import Std.Data.ExtTreeMap
import Unbundle.Files.Path

/-! A tree of files as a value. A location is the list of names that lead to it, the innermost name
first, so that the locations below a directory are those that end in it. Everything in a tree has a
proper name and lies in a directory of the tree, and two trees with the same entries are equal.

What a file system has beside this is left out. Entries have no permissions, so nothing is refused
for the lack of one. A file has a single place, where a file system may know it by several hard
links. Names are texts, where a file system takes names that are not UTF-8 as well. -/

namespace Unbundle.Files
open Std (ExtTreeMap)

abbrev Location := List String

inductive Entry where
  | file (content : ByteArray)
  | directory
  | link (target : Path)

/-- Files are equal when their bytes are. -/
instance : DecidableEq Entry
  | .file a, .file b => decidable_of_iff (a.data = b.data) (by simp [ByteArray.ext_iff])
  | .link a, .link b => decidable_of_iff (a = b) (by simp)
  | .directory, .directory => isTrue rfl
  | .file _, .directory | .file _, .link _ | .directory, .file _ | .directory, .link _
  | .link _, .file _ | .link _, .directory => isFalse nofun

def Entry.isDirectory (entry : Entry) : Bool := entry = .directory

structure FileTree where
  entries : ExtTreeMap Location Entry
  root : entries[([] : Location)]? = some .directory
  parent : ∀ {name dir}, (name :: dir) ∈ entries → entries[dir]? = some .directory
  named : ∀ {name dir}, (name :: dir) ∈ entries → isFileName name = true

namespace FileTree

def find? (tree : FileTree) (loc : Location) : Option Entry := tree.entries[loc]?

theorem ext {t u : FileTree} (h : ∀ loc, t.find? loc = u.find? loc) : t = u := by
  cases t
  cases u
  congr
  exact ExtTreeMap.ext_getElem? h

def isDirectory (tree : FileTree) (loc : Location) : Bool := tree.find? loc = some .directory

/-- The tree that holds its root and nothing else. -/
def empty : FileTree where
  entries := (∅ : ExtTreeMap Location Entry).insert [] .directory
  root := by simp
  parent := by
    intro name dir h
    simp [ExtTreeMap.mem_insert] at h
  named := by
    intro name dir h
    simp [ExtTreeMap.mem_insert] at h

/-- Puts an entry into a directory, over any other that is not itself a directory. -/
def put? (tree : FileTree) (loc : Location) (entry : Entry) : Option FileTree :=
  match loc with
  | [] => none
  | name :: dir =>
    if h : tree.find? dir = some .directory ∧ tree.find? (name :: dir) ≠ some .directory ∧
        isFileName name = true then
      some {
        entries := tree.entries.insert (name :: dir) entry
        root := by simp [ExtTreeMap.getElem?_insert, tree.root]
        parent := by
          intro name' dir' hm
          rw [ExtTreeMap.getElem?_insert]
          split
          · next he =>
            have he := Std.LawfulEqOrd.eq_of_compare he
            subst he
            rcases ExtTreeMap.mem_insert.1 hm with hm | hm
            · have hm := Std.LawfulEqOrd.eq_of_compare hm
              have := congrArg List.length hm
              simp at this
            · exact absurd (tree.parent hm) h.2.1
          · rcases ExtTreeMap.mem_insert.1 hm with hm | hm
            · have hm := Std.LawfulEqOrd.eq_of_compare hm
              simp only [List.cons.injEq] at hm
              exact hm.2 ▸ h.1
            · exact tree.parent hm
        named := by
          intro name' dir' hm
          rcases ExtTreeMap.mem_insert.1 hm with hm | hm
          · have hm := Std.LawfulEqOrd.eq_of_compare hm
            simp only [List.cons.injEq] at hm
            exact hm.1 ▸ h.2.2
          · exact tree.named hm }
    else none

theorem find?_put? {tree result : FileTree} {loc : Location} {entry : Entry}
    (h : tree.put? loc entry = some result) (l : Location) :
    result.find? l = if loc = l then some entry else tree.find? l := by
  cases loc with
  | nil => simp [put?] at h
  | cons name dir =>
    simp only [put?] at h
    split at h
    · obtain rfl := Option.some.inj h
      simp only [find?, ExtTreeMap.getElem?_insert, Std.compare_eq_iff_eq]
    · simp at h

/-- The tree without the locations that are `gone`, which no location below them outlives. -/
def without (tree : FileTree) (gone : Location → Bool) (root : gone [] = false)
    (below : ∀ name dir, gone dir = true → gone (name :: dir) = true) : FileTree where
  entries := tree.entries.filter fun loc _ => !gone loc
  root := by simp [tree.root, root]
  parent := by
    intro name dir h
    rw [ExtTreeMap.mem_iff_isSome_getElem?, ExtTreeMap.getElem?_filter'] at h
    obtain ⟨e, he⟩ := Option.isSome_iff_exists.1 h
    obtain ⟨hm, hk⟩ := Option.filter_eq_some_iff.1 he
    have hdir := tree.parent (ExtTreeMap.mem_iff_isSome_getElem?.2 (by rw [hm]; rfl))
    have hg : gone dir = false := by
      cases hc : gone dir
      · rfl
      · simp [below name dir hc] at hk
    simp [hdir, hg]
  named := by
    intro name dir h
    rw [ExtTreeMap.mem_iff_isSome_getElem?, ExtTreeMap.getElem?_filter'] at h
    obtain ⟨e, he⟩ := Option.isSome_iff_exists.1 h
    have hm := (Option.filter_eq_some_iff.1 he).1
    exact tree.named (ExtTreeMap.mem_iff_isSome_getElem?.2 (by rw [hm]; rfl))

theorem find?_without {tree : FileTree} {gone : Location → Bool} {root below} (l : Location) :
    (tree.without gone root below).find? l = if gone l then none else tree.find? l := by
  simp only [find?, without, ExtTreeMap.getElem?_filter']
  cases tree.entries[l]? <;> cases gone l <;> simp [Option.filter]

theorem isSuffixOf_cons {loc dir : Location} (name : String) (h : loc.isSuffixOf dir = true) :
    loc.isSuffixOf (name :: dir) = true := by
  rw [List.isSuffixOf_iff_suffix] at h ⊢
  exact h.trans (List.suffix_cons name dir)

/-- Takes a location and all below it out of the tree. The root itself stays. -/
def erase (tree : FileTree) (loc : Location) : FileTree :=
  tree.without (fun l => !l.isEmpty && loc.isSuffixOf l) rfl fun name dir h => by
    simp only [Bool.and_eq_true] at h
    simp [isSuffixOf_cons name h.2]

/-- Takes all that lies below a location out of the tree. -/
def eraseBelow (tree : FileTree) (loc : Location) : FileTree :=
  tree.without (fun l => l != loc && loc.isSuffixOf l) (by cases loc <;> simp) fun name dir h => by
    simp only [Bool.and_eq_true] at h
    have hs := h.2
    rw [List.isSuffixOf_iff_suffix] at hs
    have : name :: dir ≠ loc := fun he => by
      have := hs.length_le
      rw [← he, List.length_cons] at this
      omega
    simp [isSuffixOf_cons name h.2, this]

/-- The entries of a directory, in the order of their names. -/
def children (tree : FileTree) (dir : Location) : List (String × Entry) :=
  tree.entries.toList.filterMap fun
    | (name :: above, entry) => if above = dir then some (name, entry) else none
    | ([], _) => none

/-- Makes a location a directory, and so all above it, in place of whatever else is there. -/
def ensureDirectory (tree : FileTree) : Location → FileTree
  | [] => tree
  | name :: dir =>
    let tree := tree.ensureDirectory dir
    if tree.isDirectory (name :: dir) then tree
    else ((tree.erase (name :: dir)).put? (name :: dir) .directory).getD tree

/-- Puts an entry at a location, in place of whatever is there. -/
def plant (tree : FileTree) (loc : Location) (entry : Entry) : FileTree :=
  if entry.isDirectory then tree.ensureDirectory loc
  else
    let tree := tree.ensureDirectory loc.tail
    ((tree.erase loc).put? loc entry).getD tree

end FileTree

end Unbundle.Files
