import Mathlib.Algebra.GroupWithZero.Nat
import Mathlib.Algebra.Order.BigOperators.Group.List
import Mathlib.Algebra.Order.Group.Nat
import Unbundle.Proofs.Files.Leads

/-! The paths of the directories above a path. They are spelled with some of its steps, so that they
are no longer than the path itself, and what is wrong with one of them is wrong with the path. -/

namespace Unbundle.Files

section Faults
variable {path : Path} {steps : List Step}

/-- What steps take in the text of a path, a slash for each. -/
def Path.weight (steps : List Step) : Nat := (steps.map fun step => step.name.utf8ByteSize + 1).sum

theorem Path.sum_pieces (s : List Char) :
    ((pieces s).map fun piece => (String.ofList piece).utf8ByteSize + 1).sum =
      (String.ofList s).utf8ByteSize + 1 := by
  induction s with
  | nil => simp [pieces]
  | cons c s ih =>
    rw [pieces, String.ofList_cons, String.utf8ByteSize_append, String.utf8ByteSize_singleton]
    split
    · next hslash =>
      subst hslash
      rw [List.map_cons, List.sum_cons, ih]
      simp only [String.ofList_nil, String.utf8ByteSize_empty]
      have hsize : Char.utf8Size '/' = 1 := by decide
      omega
    · obtain ⟨piece, more, hpieces⟩ := List.exists_cons_of_ne_nil (@pieces_ne_nil s)
      rw [hpieces, List.map_cons, List.sum_cons] at ih
      rw [hpieces, List.map_cons, List.sum_cons, String.ofList_cons, String.utf8ByteSize_append,
        String.utf8ByteSize_singleton]
      omega

theorem Path.name_ofName (name : String) : (Step.ofName name).name = name := by
  unfold Step.ofName
  split
  · next h => exact h.symm
  · split
    · next h => exact h.symm
    · rfl

theorem Path.weight_stepsIn (s : List Char) :
    weight (stepsIn s) ≤ (String.ofList s).utf8ByteSize + 1 := by
  rw [← sum_pieces, weight, stepsIn, List.map_map]
  simp only [Function.comp_def, name_ofName]
  exact (List.filter_sublist.map _).sum_le_sum fun _ _ => Nat.zero_le _

/-- The slash that an absolute path begins with belongs to no step. -/
theorem Path.weight_steps : weight path.steps + path.isAbsolute.toNat ≤
    path.text.utf8ByteSize + 1 := by
  rw [steps_eq]
  cases habsolute : path.isAbsolute with
  | false => simpa using weight_stepsIn path.text.toList
  | true =>
    obtain ⟨s, hs⟩ : ∃ s, path.text.toList = [] ++ '/' :: s := by
      rw [isAbsolute] at habsolute
      exact List.head?_eq_some_iff.1 (by simpa using habsolute)
    have htext : path.text = String.ofList ('/' :: s) := by
      rw [← String.ofList_toList (s := path.text), hs]
      rfl
    have hsize : Char.utf8Size '/' = 1 := by decide
    have hrest := weight_stepsIn s
    rw [hs, stepsIn_append_slash, htext, String.ofList_cons, String.utf8ByteSize_append,
      String.utf8ByteSize_singleton, hsize]
    have hnil : stepsIn [] = [] := rfl
    rw [hnil, List.nil_append, Bool.toNat_true]
    omega

theorem Path.size_intercalate (steps : List Step) :
    ("/".intercalate (steps.map Step.name)).utf8ByteSize = weight steps - 1 := by
  have hslash : "/".utf8ByteSize = 1 := by decide
  induction steps with
  | nil => simp [weight]
  | cons step steps ih =>
    cases steps with
    | nil => simp [weight]
    | cons next rest =>
      rw [List.map_cons] at ih
      rw [List.map_cons, List.map_cons, String.intercalate_cons_cons, String.utf8ByteSize_append,
        String.utf8ByteSize_append, ih]
      simp only [weight, List.map_cons, List.sum_cons]
      omega

theorem Path.nul_notMem_name {step : Step} (h : step ∈ path.steps)
    (htext : '\x00' ∉ path.text.toList) : '\x00' ∉ step.name.toList := by
  simp only [steps, List.mem_map, List.mem_filter] at h
  obtain ⟨piece, ⟨hpiece, -⟩, rfl⟩ := h
  rw [name_ofName, String.toList_ofList]
  exact fun hmem => htext (mem_of_mem_pieces hpiece hmem).1

theorem Path.nul_notMem_intercalate (h : ∀ step ∈ steps, '\x00' ∉ step.name.toList) :
    '\x00' ∉ ("/".intercalate (steps.map Step.name)).toList := by
  induction steps with
  | nil => simp
  | cons step steps ih =>
    obtain ⟨hstep, hsteps⟩ := List.forall_mem_cons.1 h
    cases steps with
    | nil => simpa using hstep
    | cons next rest =>
      have ih := ih hsteps
      rw [List.map_cons] at ih
      rw [List.map_cons, List.map_cons, String.intercalate_cons_cons]
      simp only [String.toList_append, List.mem_append, not_or]
      exact ⟨⟨hstep, by decide⟩, ih⟩

theorem Path.fault?_ofSteps (h : steps.Sublist path.steps) (hne : steps ≠ [])
    (hfault : path.fault? = none) : (ofSteps path.isAbsolute steps).fault? = none := by
  have hnul : '\x00' ∉ path.text.toList := by
    intro hnul
    simp [fault?, hnul] at hfault
  have hsize : path.text.utf8ByteSize ≤ maxPathBytes := by
    refine Nat.not_lt.1 fun hlong => ?_
    simp [fault?, hnul, hlong] at hfault
  have hpieces : ∀ step ∈ steps, step.IsPiece := fun step hstep =>
    isPiece_of_mem_steps (h.subset hstep)
  have htext : '\x00' ∉ (ofSteps path.isAbsolute steps).text.toList := by
    have hnames := nul_notMem_intercalate fun step hstep =>
      nul_notMem_name (h.subset hstep) hnul
    cases path.isAbsolute with
    | false => simpa [ofSteps] using hnames
    | true => simpa [ofSteps] using hnames
  have hshort : (ofSteps path.isAbsolute steps).text.utf8ByteSize ≤ maxPathBytes := by
    refine Nat.le_trans ?_ hsize
    have hweight : weight steps ≤ weight path.steps :=
      (h.map _).sum_le_sum fun _ _ => Nat.zero_le _
    have hall := path.weight_steps
    have hpos : 0 < weight steps := by
      obtain ⟨step, rest, rfl⟩ := List.exists_cons_of_ne_nil hne
      simp only [weight, List.map_cons, List.sum_cons]
      omega
    rw [ofSteps, String.utf8ByteSize_append, size_intercalate]
    cases habsolute : path.isAbsolute with
    | false =>
      simp only [habsolute, Bool.false_eq_true, if_false, String.utf8ByteSize_empty,
        Bool.toNat_false] at hall ⊢
      omega
    | true =>
      have hslash : "/".utf8ByteSize = 1 := by decide
      simp only [habsolute, if_true, hslash, Bool.toNat_true] at hall ⊢
      omega
  have hempty : (ofSteps path.isAbsolute steps).isEmpty = false :=
    isEmpty_eq_false (by rwa [steps_ofSteps hpieces])
  simp [fault?, htext, Nat.not_lt.2 hshort, hempty]

theorem Path.plainSteps_sublist : path.plainSteps.Sublist path.steps := by
  rw [plainSteps_eq]
  cases path.steps with
  | nil => exact List.Sublist.refl _
  | cons first rest =>
    rw [plain]
    split
    · exact List.filter_sublist.trans (List.sublist_cons_self _ _)
    · exact List.filter_sublist.cons_cons _

theorem Path.fault?_ancestors {parent : Path} (h : parent ∈ path.ancestors)
    (hfault : path.fault? = none) (hne : parent.steps ≠ []) : parent.fault? = none := by
  obtain ⟨n, -, rfl⟩ := List.mem_map.1 h
  have hsublist : (path.plainSteps.take n).Sublist path.steps :=
    (List.take_sublist _ _).trans plainSteps_sublist
  refine fault?_ofSteps hsublist (fun hnil => hne ?_) hfault
  rw [hnil, steps_ofSteps (by simp)]

end Faults

end Unbundle.Files
