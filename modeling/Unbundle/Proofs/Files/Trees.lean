import Mathlib.Data.List.Induction
import Unbundle.Proofs.Files.Leads

/-! Trees after a change. What is taken away, what is put where nothing or another file was, and
what the directories that are kept mean for the ways and the paths that lead through them. -/

namespace Unbundle.Files
open Std (ExtTreeMap)

def Beneath (dir loc : Location) : Prop := dir <:+ loc ∧ loc ≠ dir

instance (dir loc : Location) : Decidable (Beneath dir loc) :=
  inferInstanceAs (Decidable (dir <:+ loc ∧ loc ≠ dir))

section Trees
variable {tree result : FileTree} {trees grounds : List FileTree} {home dir loc : Location}
  {entry : Entry} {names more : List String} {path : Path} {n : Nat}

theorem FileTree.find?_eraseBelow :
    (tree.eraseBelow dir).find? loc = if Beneath dir loc then none else tree.find? loc := by
  have hgone : (loc != dir && dir.isSuffixOf loc) = decide (Beneath dir loc) := by
    rw [Bool.eq_iff_iff]
    simp [Beneath, List.isSuffixOf_iff_suffix, and_comm]
  rw [eraseBelow, find?_without, hgone]
  simp only [decide_eq_true_eq]

theorem FileTree.find?_ne_directory_of_put? (h : tree.put? loc entry = some result) :
    tree.find? loc ≠ some .directory := by
  cases loc with
  | nil => cases h
  | cons name dir =>
    simp only [put?] at h
    split at h
    · next hput => exact hput.2.1
    · cases h

theorem noLink_of_all {tree : FileTree} (h : (tree.entries.toList.all fun entry =>
      match entry.2 with
      | .link _ => false
      | _ => true) = true) (loc : Location) : tree.NoLink loc := by
  intro target hlink
  have hmem := ExtTreeMap.mem_toList_iff_getElem?_eq_some.2 hlink
  simpa using List.all_eq_true.1 h _ hmem

theorem eq_of_toList {tree other : FileTree}
    (h : tree.entries.toList = other.entries.toList) : tree = other := by
  refine FileTree.ext fun loc => ?_
  unfold FileTree.find?
  rw [ExtTreeMap.toList_inj.1 h]

theorem FileTree.NoLink.put (h : tree.NoLink loc) (hentry : ∀ target, entry ≠ .link target)
    {other : Location} (hput : tree.put? other entry = some result) : result.NoLink loc := by
  intro target hlink
  rw [FileTree.find?_put? hput] at hlink
  split at hlink
  · exact hentry target (Option.some.inj hlink)
  · exact h target hlink

theorem FileTree.Keeps.put {ground : FileTree} (h : tree.Keeps ground) (hlink : tree.NoLink loc)
    (hput : tree.put? loc entry = some result) : result.Keeps ground := by
  intro other
  have hother : loc ≠ other → result.find? other = tree.find? other := fun hne => by
    rw [FileTree.find?_put? hput, if_neg hne]
  constructor
  · intro hdirectory
    have hkept := (h other).1 hdirectory
    refine (hother ?_).trans hkept
    rintro rfl
    exact FileTree.find?_ne_directory_of_put? hput hkept
  · intro target hfound
    have hkept := (h other).2 target hfound
    refine (hother ?_).trans hkept
    rintro rfl
    exact hlink target hkept

theorem Disk.Over.put {disk : Disk} {grounds : List FileTree} {home : Location}
    (h : disk.Over grounds home) (hlink : disk.tree.NoLink loc)
    (hput : disk.tree.put? loc entry = some result) :
    Disk.Over { disk with tree := result } grounds home := by
  obtain ⟨ground, hground, hkeeps⟩ := h.keeps
  exact ⟨h.home, ground, hground, hkeeps.put hlink hput⟩

theorem Disk.over_self (disk : Disk) : disk.Over [disk.tree] disk.home :=
  ⟨rfl, disk.tree, List.mem_singleton_self _, fun _ => ⟨id, fun _ => id⟩⟩

theorem suffix_or_suffix {a b : Location} (ha : a <:+ loc) (hb : b <:+ loc) : a <:+ b ∨ b <:+ a :=
  (Nat.le_total a.length b.length).imp (List.suffix_of_suffix_length_le ha hb)
    (List.suffix_of_suffix_length_le hb ha)

theorem reverse_append_suffix {first : List String} :
    first.reverse ++ dir <:+ names.reverse ++ dir ↔ first <+: names := by
  rw [← List.reverse_suffix]
  constructor
  · rintro ⟨more, hmore⟩
    rw [← List.append_assoc] at hmore
    exact ⟨more, List.append_cancel_right hmore⟩
  · rintro ⟨more, hmore⟩
    exact ⟨more, by rw [← hmore, List.append_assoc]⟩

theorem along_of_forall {A : Location → Prop}
    (h : ∀ first, first ≠ [] → first <+: names → A (first.reverse ++ dir)) :
    FileTree.Along A dir names := by
  induction names generalizing dir with
  | nil => trivial
  | cons name names ih =>
    refine ⟨h [name] (by simp) (by simp), ih fun first hne hfirst => ?_⟩
    have := h (name :: first) (by simp) (List.cons_prefix_cons.2 ⟨rfl, hfirst⟩)
    simpa using this

theorem FileTree.find?_erase (h : dir ≠ []) :
    (tree.erase dir).find? loc = if dir <:+ loc then none else tree.find? loc := by
  have hgone : (!loc.isEmpty && dir.isSuffixOf loc) = decide (dir <:+ loc) := by
    rw [Bool.eq_iff_iff]
    simp only [Bool.and_eq_true, Bool.not_eq_true', List.isEmpty_eq_false_iff,
      List.isSuffixOf_iff_suffix, decide_eq_true_eq, and_iff_right_iff_imp]
    rintro hsuffix rfl
    exact h (List.suffix_nil.1 hsuffix)
  rw [erase, find?_without, hgone]
  simp only [decide_eq_true_eq]

theorem FileTree.find?_erase_of_suffix {name : String} (h : name :: dir <:+ loc) :
    (tree.erase (name :: dir)).find? loc = none := by
  rw [find?_erase (by simp), if_pos h]

theorem FileTree.find?_erase_of_not_suffix {name : String} (h : ¬ name :: dir <:+ loc) :
    (tree.erase (name :: dir)).find? loc = tree.find? loc := by
  rw [find?_erase (by simp), if_neg h]

theorem FileTree.find?_dir {name : String} (h : tree.find? (name :: dir) = some entry) :
    tree.find? dir = some .directory :=
  tree.parent (ExtTreeMap.mem_iff_isSome_getElem?.2 (Option.isSome_of_eq_some h))

theorem FileTree.find?_above (h : tree.find? (more ++ dir) = some .directory) :
    tree.find? dir = some .directory := by
  induction more with
  | nil => exact h
  | cons name more ih => exact ih (find?_dir h)

theorem FileTree.isFileName_of_find? {name : String} (h : tree.find? (name :: dir) = some entry) :
    isFileName name = true :=
  tree.named (ExtTreeMap.mem_iff_isSome_getElem?.2 (Option.isSome_of_eq_some h))

theorem FileTree.size_le_of_find? {name : String} (h : tree.find? (name :: dir) = some entry) :
    name.utf8ByteSize ≤ maxNameBytes := by
  have hname := isFileName_of_find? h
  simp only [isFileName, Bool.and_eq_true, decide_eq_true_eq] at hname
  exact hname.2

theorem FileTree.isFileName_of_names (h : tree.find? (names.reverse ++ dir) = some entry) :
    ∀ name ∈ names, isFileName name = true := by
  induction names using List.reverseRecOn generalizing entry with
  | nil => simp
  | append_singleton names name ih =>
    have hfound : tree.find? (name :: (names.reverse ++ dir)) = some entry := by simpa using h
    exact List.forall_mem_append.2
      ⟨ih (find?_dir hfound), List.forall_mem_singleton.2 (isFileName_of_find? hfound)⟩

theorem FileTree.isName_of_names (h : tree.find? (names.reverse ++ dir) = some entry) :
    ∀ name ∈ names, IsName name :=
  fun name hname => isName_of_isFileName (isFileName_of_names h name hname)

theorem FileTree.Way.append {steps rest : List Step} {mid left : Nat} {base : Location}
    (h : tree.Way n dir steps mid loc) (hrest : tree.Way mid loc rest left base) :
    tree.Way n dir (steps ++ rest) left base := by
  induction h with
  | stop => exact hrest
  | here _ ih => exact .here (ih hrest)
  | slash _ ih => exact .slash (ih hrest)
  | up _ ih => exact .up (ih hrest)
  | into size found _ ih => exact .into size found (ih hrest)
  | link size found _ ih =>
    have hmore := ih hrest
    rw [List.append_assoc] at hmore
    exact .link size found hmore

theorem FileTree.way_of_directory (h : tree.find? (names.reverse ++ dir) = some .directory) :
    tree.Way n dir (names.map .into) n (names.reverse ++ dir) := by
  induction names generalizing dir with
  | nil => exact .stop
  | cons name names ih =>
    rw [List.reverse_cons, List.append_assoc, List.singleton_append] at h ⊢
    have hfound : tree.find? (name :: dir) = some .directory := FileTree.find?_above h
    exact .into (FileTree.size_le_of_find? hfound) hfound (ih h)

theorem Path.Leads.mono (h : path.Leads grounds home dir names)
    (hkeeps : ∀ tree ∈ trees, ∃ ground ∈ grounds, tree.Keeps ground) :
    path.Leads trees home dir names := by
  obtain ⟨found, steps, hsteps, hway⟩ := h
  refine ⟨fun tree htree => ?_, steps, hsteps, fun tree htree => ?_⟩
  · obtain ⟨ground, hground, hkeeps⟩ := hkeeps tree htree
    exact (hkeeps dir).1 (found ground hground)
  · obtain ⟨ground, hground, hkeeps⟩ := hkeeps tree htree
    obtain ⟨left, hway⟩ := hway ground hground
    exact ⟨left, hway.mono hkeeps⟩

theorem Path.Leads.enter (h : path.Leads trees home dir names)
    (hfound : ∀ tree ∈ trees, tree.find? (names.reverse ++ dir) = some .directory) :
    path.Leads trees home (names.reverse ++ dir) [] := by
  obtain ⟨-, steps, hsteps, hway⟩ := h
  refine ⟨hfound, path.steps, by simp, fun tree htree => ?_⟩
  obtain ⟨left, hway⟩ := hway tree htree
  refine ⟨left, ?_⟩
  rw [hsteps]
  exact hway.append (FileTree.way_of_directory (hfound tree htree))

end Trees

end Unbundle.Files
