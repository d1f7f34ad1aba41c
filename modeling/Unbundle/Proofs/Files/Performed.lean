import Unbundle.Proofs.Files.Deeds

/-! Deeds that were all done. Each file among them was opened for writing, in the order of the
deeds, and no other; and none of them was to be called `.` or `..`, which are no names of files. -/

namespace Unbundle.Files

/-- A piece of a path that stands for a directory already. -/
def IsDots (name : String) : Prop := name = "." ∨ name = ".."

theorem isName_or_isDots {name : String} (hne : name ≠ "") (hslash : '/' ∉ name.toList) :
    IsName name ∨ IsDots name := by
  by_cases hhere : name = "."
  · exact .inr (.inl hhere)
  · by_cases hup : name = ".."
    · exact .inr (.inr hup)
    · exact .inl ⟨hne, hhere, hup, hslash⟩

section Dots
variable {path : Path} {disk : Disk} {dir : Location} {name : String} {content : ByteArray}

theorem Path.Leads.exists_target_dots (h : path.Leads [disk.tree] disk.home dir [])
    (hdots : IsDots name) : ∃ fault, disk.target (path.join name) = .error fault := by
  have hne : name ≠ "" := by rcases hdots with rfl | rfl <;> decide
  have hslash : '/' ∉ name.toList := by rcases hdots with rfl | rfl <;> decide
  have hdir : disk.tree.find? dir = some .directory := h.find? disk.over_self
  obtain ⟨steps, hsteps, hwalk⟩ := h.walk
  obtain ⟨left, hwalk⟩ := hwalk disk disk.over_self
  rw [List.map_nil, List.append_nil] at hsteps
  have hroute : (path.join name).route = steps ++ [Step.ofName name] := by
    rw [route_join_piece hne hslash, steps_join_piece hne hslash, hsteps]
  have hstart : disk.start (path.join name) = disk.start path := by
    rw [Disk.start, Disk.start, isAbsolute_join_piece hslash]
  -- either step leads to a directory, which cannot be written
  obtain ⟨loc, hend, hloc⟩ : ∃ loc, disk.tree.walk .writing left dir [Step.ofName name] = .ok loc ∧
      disk.tree.find? loc = some .directory := by
    rcases hdots with rfl | rfl
    · exact ⟨dir, by rw [Step.ofName, if_pos rfl, FileTree.walk_here, FileTree.walk_nil], hdir⟩
    · refine ⟨dir.tail, ?_, FileTree.find?_tail hdir⟩
      rw [Step.ofName, if_neg (by decide), if_pos rfl, FileTree.walk_up, FileTree.walk_nil]
  have hgoes : FileTree.GoesOn .writing [Step.ofName name] := by
    rcases hdots with rfl | rfl <;> exact .inr (by decide)
  have htaken : disk.tree.isDirectory loc = true := by simpa [FileTree.isDirectory] using hloc
  unfold Disk.target
  rw [Disk.follow_eq, hroute, hstart]
  cases (path.join name).fault? with
  | some fault => exact ⟨fault, rfl⟩
  | none => exact ⟨.isDirectory, by simp [hwalk .writing _ hgoes, hend, bind, Except.bind, htaken]⟩

end Dots

namespace Deed

/-- A deed that would write a file called like a directory. -/
def Dotted : Deed → Prop
  | .make _ => False
  | .write _ dir name _ => (∀ name ∈ dir, IsName name) ∧ IsDots name

def opened (base : Location) : Deed → List Location
  | .make _ => []
  | .write _ dir name _ => [(dir ++ [name]).reverse ++ base]

section Done
variable {root : Path} {base : Location} {d d' : Disk} {deed : Deed} {made : List (List String)}

theorem written_of_run (hd : Standing root base d) (hnamed : deed.Named)
    (hfounded : deed.FoundedOn made) (hmade : d.tree.Has base made)
    (hrun : (deed.work root).run.run d = (.ok (), d')) :
    d'.written = deed.opened base ++ d.written := by
  cases deed with
  | make names =>
    rw [hd.run_make hnamed] at hrun
    split at hrun
    · cases hrun
    · obtain rfl := (Prod.mk.inj hrun).2
      rfl
  | write blame dir name content =>
    have hdir := hmade dir hfounded
    cases hfault : ((root.joins dir).join name).writeFault? name
        (d.tree.isDirectory (name :: (dir.reverse ++ base))) with
    | some fault =>
      rw [hd.run_write_error hnamed hdir hfault] at hrun
      cases hrun
    | none =>
      obtain ⟨-, tree, -, hwrite⟩ := hd.exists_run_write hnamed hdir hfault
      rw [hwrite] at hrun
      cases hrun
      simp [opened]

theorem not_dotted_of_run (hd : Standing root base d) (hfounded : deed.FoundedOn made)
    (hmade : d.tree.Has base made) (hrun : (deed.work root).run.run d = (.ok (), d')) :
    ¬ deed.Dotted := by
  intro hdotted
  cases deed with
  | make names => exact hdotted
  | write blame dir name content =>
    obtain ⟨fault, htarget⟩ :=
      (hd.leads_directory hdotted.1 (hmade dir hfounded)).exists_target_dots hdotted.2
    rw [run_write, DiskM.run_writeBytes, htarget] at hrun
    cases hrun

end Done

end Deed

section Perform
variable {root : Path} {base : Location} {d d' : Disk} {made : List (List String)}
  {deeds : List Deed} {deed : Deed}

theorem named_of_perform (hd : Standing root base d)
    (hdeeds : ∀ deed ∈ deeds, deed.Named ∨ deed.Dotted) (hfounded : Founded made deeds)
    (hmade : d.tree.Has base made) (hok : (perform root deeds).run.run d = (.ok (), d')) :
    ∀ deed ∈ deeds, deed.Named := by
  induction deeds generalizing made d with
  | nil => exact fun _ h => nomatch h
  | cons deed deeds ih =>
    obtain ⟨hdeed, hrest⟩ := List.forall_mem_cons.1 hdeeds
    obtain ⟨d₁, hfirst, hmore⟩ := exists_of_run_perform_cons hok
    have hnamed : deed.Named :=
      hdeed.resolve_right (Deed.not_dotted_of_run hd hfounded.1 hmade hfirst)
    obtain ⟨hd₁, hmade₁⟩ := Deed.standing_of_run hd hnamed hfounded.1 hmade hfirst
    exact List.forall_mem_cons.2 ⟨hnamed, ih hd₁ hrest hfounded.2 hmade₁ hmore⟩

theorem written_perform (hd : Standing root base d) (hnamed : ∀ deed ∈ deeds, deed.Named)
    (hfounded : Founded made deeds) (hmade : d.tree.Has base made)
    (hok : (perform root deeds).run.run d = (.ok (), d')) :
    d'.written = (deeds.flatMap (Deed.opened base)).reverse ++ d.written := by
  induction deeds generalizing made d with
  | nil =>
    cases hok
    rfl
  | cons deed deeds ih =>
    obtain ⟨hdeed, hrest⟩ := List.forall_mem_cons.1 hnamed
    obtain ⟨d₁, hfirst, hmore⟩ := exists_of_run_perform_cons hok
    obtain ⟨hd₁, hmade₁⟩ := Deed.standing_of_run hd hdeed hfounded.1 hmade hfirst
    have hopened : (deed.opened base).reverse = deed.opened base := by
      cases deed <;> rfl
    rw [ih hd₁ hrest hfounded.2 hmade₁ hmore,
      Deed.written_of_run hd hdeed hfounded.1 hmade hfirst, List.flatMap_cons, List.reverse_append,
      List.append_assoc, hopened]

theorem mem_opened_of_mem {blame : Path} {dir : List String} {name : String} {content : ByteArray}
    (h : .write blame dir name content ∈ deeds) :
    (dir ++ [name]).reverse ++ base ∈ (deeds.flatMap (Deed.opened base)).reverse :=
  List.mem_reverse.2 (List.mem_flatMap.2 ⟨_, h, List.mem_singleton_self _⟩)

end Perform

end Unbundle.Files
