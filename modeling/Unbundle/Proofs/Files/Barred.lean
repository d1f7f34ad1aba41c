import Unbundle.Proofs.Files.Deeds

/-! Files whose name has a slash. Such a name asks for a directory, which no work makes that gives
its directories names without a dot: so the file is not written, and nothing changes. -/

namespace Unbundle.Files

section Slashed
variable {path : Path} {first piece : String} {more : List Char} {dir : Location} {disk : Disk}
  {content : ByteArray}

theorem Path.exists_mem_pieces {s : List Char} {c : Char} (h : c ∈ s) (hc : c ≠ '/') :
    ∃ piece ∈ pieces s, piece ≠ [] := by
  induction s with
  | nil => cases h
  | cons a s ih =>
    rw [pieces]
    split
    · next ha =>
      have hmem : c ∈ s := (List.mem_cons.1 h).resolve_left fun heq => hc (heq.trans ha)
      obtain ⟨piece, hpiece, hne⟩ := ih hmem
      exact ⟨piece, List.mem_cons_of_mem _ hpiece, hne⟩
    · split
      · exact ⟨[a], List.mem_cons_self, by simp⟩
      · next piece rest _ => exact ⟨a :: piece, List.mem_cons_self, by simp⟩

theorem Path.steps_behind_ne_nil :
    stepsIn more ++ (if ('/' :: more).getLast? = some '/' then [.slash] else []) ≠ [] := by
  intro h
  obtain ⟨hsteps, hslash⟩ := List.append_eq_nil_iff.1 h
  have hmore : ∀ c ∈ more, c = '/' := by
    intro c hc
    by_contra hne
    obtain ⟨piece, hpiece, hnonempty⟩ := exists_mem_pieces hc hne
    rw [stepsIn, List.map_eq_nil_iff, List.filter_eq_nil_iff] at hsteps
    simpa [hnonempty] using hsteps piece hpiece
  have hall : ∀ c ∈ '/' :: more, c = '/' := List.forall_mem_cons.2 ⟨rfl, hmore⟩
  have hlast : ('/' :: more).getLast? = some '/' := by
    rw [List.getLast?_eq_some_getLast (List.cons_ne_nil _ _)]
    exact congrArg some (hall _ (List.getLast_mem _))
  rw [if_pos hlast] at hslash
  cases hslash

theorem Path.toList_join_behind (hfirst : IsName first)
    (hpiece : piece.toList = first.toList ++ '/' :: more) :
    (path.join piece).text.toList = (path.join first).text.toList ++ '/' :: more := by
  obtain ⟨c, s, hs⟩ := List.exists_cons_of_ne_nil (l := first.toList) (by simpa using hfirst.nonempty)
  have hrelative : (Path.mk piece).isAbsolute = false := by
    have hname := isAbsolute_mk_of_isName hfirst
    simp only [isAbsolute, hpiece, hs, List.cons_append, List.head?_cons] at hname ⊢
    exact hname
  unfold join
  rw [hrelative, isAbsolute_mk_of_isName hfirst]
  simp only [Bool.false_eq_true, if_false]
  split <;> simp [hpiece]

theorem Path.steps_join_behind (hfirst : IsName first)
    (hpiece : piece.toList = first.toList ++ '/' :: more) :
    (path.join piece).steps = path.steps ++ .into first :: stepsIn more := by
  rw [steps_eq, toList_join_behind hfirst hpiece, stepsIn_append_slash, ← steps_eq,
    steps_join hfirst, List.append_assoc]
  rfl

theorem Path.isAbsolute_join_behind (hfirst : IsName first)
    (hpiece : piece.toList = first.toList ++ '/' :: more) :
    (path.join piece).isAbsolute = path.isAbsolute := by
  obtain ⟨c, s, hs⟩ := List.exists_cons_of_ne_nil (l := (path.join first).text.toList) fun hnil =>
    absurd (@isEmpty_eq_false (path.join first) (by simp [steps_join hfirst]))
      (by simp [isEmpty, String.toList_eq_nil_iff.1 hnil])
  have hname := @isAbsolute_join path first hfirst
  rw [isAbsolute, hs] at hname
  rw [isAbsolute, toList_join_behind hfirst hpiece, hs]
  exact hname

theorem Path.Leads.exists_target_error (h : path.Leads [disk.tree] disk.home dir [])
    (hfirst : IsName first) (hpiece : piece.toList = first.toList ++ '/' :: more)
    (hfree : disk.tree.Free (first :: dir)) :
    ∃ fault, disk.target (path.join piece) = .error fault := by
  obtain ⟨steps, hsteps, hwalk⟩ := (h.join hfirst).walk
  obtain ⟨left, hwalk⟩ := hwalk disk disk.over_self
  have hstart : disk.start (path.join piece) = disk.start (path.join first) := by
    rw [Disk.start, Disk.start, isAbsolute_join_behind hfirst hpiece, isAbsolute_join hfirst]
  obtain ⟨behind, hbehind, hroute⟩ : ∃ behind, behind ≠ [] ∧
      (path.join piece).route = steps ++ .into first :: behind := by
    refine ⟨_, @steps_behind_ne_nil more, ?_⟩
    have hlast : (path.join piece).text.toList.getLast? = ('/' :: more).getLast? := by
      rw [toList_join_behind hfirst hpiece, List.getLast?_append,
        List.getLast?_eq_some_getLast (List.cons_ne_nil _ _), Option.some_or]
    have hinit : path.steps = steps := by
      rw [steps_join hfirst] at hsteps
      exact List.append_cancel_right hsteps
    unfold route endsInSlash
    rw [hlast, steps_join_behind hfirst hpiece, hinit, List.append_assoc, List.cons_append]
    simp
  have hend : ∃ fault, disk.tree.walk .writing left dir (.into first :: behind) = .error fault := by
    rw [FileTree.walk_into]
    split
    · exact ⟨_, rfl⟩
    · split
      · exact ⟨_, rfl⟩
      · rcases hfree with hfree | ⟨content, hfree⟩
        · exact ⟨.notFound, by simp [hfree, FileTree.enter, hbehind]⟩
        · exact ⟨.notDirectory, by simp [hfree, FileTree.enter, hbehind]⟩
  obtain ⟨fault, hend⟩ := hend
  have hall := hwalk .writing (.into first :: behind) (.inr ⟨by simp, by simp⟩)
  unfold Disk.target
  rw [Disk.follow_eq, hroute, hstart]
  cases (path.join piece).fault? with
  | some fault => exact ⟨fault, rfl⟩
  | none => exact ⟨fault, by simp only [hall, hend, bind, Except.bind]⟩

theorem DiskM.run_writeBytes_of_target {fault : Fault} (h : disk.target path = .error fault) :
    (writeBytes path content).run.run disk = (.error fault, disk) := by
  rw [run_writeBytes, h]

end Slashed

/-- Below a directory, but for the ones directly in it, no directory has a dot in its name. -/
def Undotted (base : Location) (tree : FileTree) : Prop :=
  ∀ {above name}, above ≠ [] → '.' ∈ name.toList →
    tree.find? (name :: (above ++ base)) ≠ some .directory

def undotted : Footprint := ⟨fun names => ∀ name ∈ names.tail, '.' ∉ name.toList, fun _ => False⟩

section Undotted
variable {base : Location} {d e d' e' : Disk}

theorem Footprint.Marks.undotted (h : Files.undotted.Marks base d e d' e')
    (hd : Undotted base d.tree) : Undotted base d'.tree := by
  intro above name habove hdot hfind
  cases h.marked (name :: (above ++ base)) with
  | same first second => exact hd habove hdot (first ▸ hfind)
  | @dir names eq within =>
    obtain rfl : names = above.reverse ++ [name] := by
      rw [← List.cons_append, List.append_left_inj] at eq
      rw [← List.reverse_reverse names, ← eq, List.reverse_cons]
    refine within name ?_ hdot
    rw [List.tail_append_of_ne_nil (by simpa using habove)]
    simp
  | file _ within => exact within

end Undotted

end Unbundle.Files
