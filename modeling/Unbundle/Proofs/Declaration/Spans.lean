import Unbundle.Proofs.Declaration.Openers

/-! Blocks by their place in a stream: the positions of the line that opens a block and of the first
line that can end it. -/

namespace Unbundle.Declaration

/-- A block of the module `name` from the line `first` to the line `last`. -/
structure ModuleSpan (lines : List String) (name : String) (first last : Nat) : Prop where
  opens : ∃ line, lines[first]? = some line ∧ OpensModule line name
  closes : lines[last]? = some moduleClose
  ascends : first < last
  stays : ∀ k line, first < k → k < last → lines[k]? = some line → StaysInModule line

/-- A block of the version `name` from the line `first` to the line `last`. -/
structure VersionSpan (lines : List String) (name : String) (first last : Nat) : Prop where
  opens : ∃ line, lines[first]? = some line ∧ OpensVersion line name
  closes : lines[last]? = some versionClose
  ascends : first < last
  stays : ∀ k line, first < k → k < last → lines[k]? = some line → line ≠ versionClose

section Append
variable {α : Type} {before after : List α} {x y : α} {k : Nat}

theorem getElem?_append_cons_cases (h : (before ++ x :: after)[k]? = some y) :
    (k < before.length ∧ y ∈ before) ∨ (k = before.length ∧ y = x) ∨
      (before.length < k ∧ after[k - before.length - 1]? = some y) := by
  rcases Nat.lt_trichotomy k before.length with hk | rfl | hk
  · rw [List.getElem?_append_left hk] at h
    exact Or.inl ⟨hk, List.mem_of_getElem? h⟩
  · exact Or.inr (Or.inl ⟨rfl, by simpa [eq_comm] using h⟩)
  · obtain ⟨d, rfl⟩ := Nat.exists_eq_add_of_lt hk
    refine Or.inr (Or.inr ⟨hk, ?_⟩)
    rw [List.getElem?_append_right (by omega)] at h
    have hd : before.length + d + 1 - before.length = d + 1 := by omega
    rw [hd, List.getElem?_cons_succ] at h
    rw [hd, Nat.add_sub_cancel]
    exact h

end Append

section Block
variable {before inside after : List String} {opener name : String}

theorem moduleSpan_append (hopens : OpensModule opener name)
    (hstays : ∀ line ∈ inside, StaysInModule line) :
    ModuleSpan (before ++ opener :: (inside ++ moduleClose :: after)) name before.length
      (before.length + 1 + inside.length) where
  opens := ⟨opener, by simp, hopens⟩
  closes := by
    rw [List.getElem?_append_right (by omega)]
    have hsub : before.length + 1 + inside.length - before.length = inside.length + 1 := by omega
    simp [hsub]
  ascends := by omega
  stays := by
    intro k line hfirst hlast hk
    rcases getElem?_append_cons_cases hk with ⟨hlt, -⟩ | ⟨heq, -⟩ | ⟨-, hk⟩
    · omega
    · omega
    · rw [List.getElem?_append_left (by omega)] at hk
      exact hstays line (List.mem_of_getElem? hk)

theorem take_drop_append :
    ((before ++ opener :: (inside ++ moduleClose :: after)).drop before.length).take
      (before.length + 1 + inside.length + 1 - before.length) =
      opener :: (inside ++ [moduleClose]) := by
  have hlength : before.length + 1 + inside.length + 1 - before.length = inside.length + 1 + 1 := by
    omega
  simp [hlength, List.take_append, List.take_of_length_le]

end Block

end Unbundle.Declaration
