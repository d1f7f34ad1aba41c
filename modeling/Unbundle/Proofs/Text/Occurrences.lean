import Mathlib.Order.Bounds.Basic
import Mathlib.Data.List.Infix
import Unbundle.Text.Search

/-! Where a pattern stands in a text. A pattern of which no end begins like another one never
reaches into an occurrence of that one. So where a text that begins with the other pattern is put
behind any text, the occurrences of the first pattern are those on either side: none is cut in two
and none arises at the seam. -/

namespace Unbundle.Text

section Places
variable {α : Type} {pattern other s before rest : List α} {place n : Nat}

/-- The pattern begins at this place of the text. -/
def StandsAt (pattern s : List α) (place : Nat) : Prop := pattern <+: s.drop place

theorem standsAt_zero : StandsAt pattern s 0 ↔ pattern <+: s := Iff.rfl

theorem standsAt_drop : StandsAt pattern (s.drop n) place ↔ StandsAt pattern s (n + place) := by
  rw [StandsAt, StandsAt, List.drop_drop]

theorem isLeast_standsAt_drop : IsLeast {place | StandsAt pattern (s.drop n) place} place ↔
    IsLeast {place | n ≤ place ∧ StandsAt pattern s place} (n + place) := by
  simp only [standsAt_drop]
  constructor
  · rintro ⟨hstands, hleast⟩
    refine ⟨⟨Nat.le_add_right n place, hstands⟩, ?_⟩
    rintro other ⟨hle, hother⟩
    obtain ⟨k, rfl⟩ := Nat.exists_eq_add_of_le hle
    exact Nat.add_le_add_left (hleast hother) n
  · rintro ⟨⟨-, hstands⟩, hleast⟩
    exact ⟨hstands, fun other hother =>
      Nat.le_of_add_le_add_left (hleast ⟨Nat.le_add_right n other, hother⟩)⟩

theorem standsAt_append_right :
    StandsAt pattern (before ++ rest) (before.length + place) ↔ StandsAt pattern rest place := by
  rw [StandsAt, StandsAt, List.drop_length_add_append]

theorem StandsAt.append (h : StandsAt pattern s place) (hplace : place ≤ s.length) :
    StandsAt pattern (s ++ rest) place := by
  rw [StandsAt, List.drop_append_of_le_length hplace]
  exact h.trans (List.prefix_append _ _)

theorem StandsAt.length_le (h : StandsAt pattern s place) (hne : pattern ≠ []) :
    place + pattern.length ≤ s.length := by
  have hpositive := List.length_pos_iff.2 hne
  have hlength := List.IsPrefix.length_le h
  rw [List.length_drop] at hlength
  omega

theorem StandsAt.isInfix (h : StandsAt pattern s place) : pattern <:+: s :=
  (List.IsPrefix.isInfix h).trans (List.drop_suffix _ _).isInfix

/-- No end of the pattern begins like the other one, as far as both go. -/
def ClearOf (pattern other : List α) : Prop :=
  ∀ rest ∈ pattern.tails, rest ≠ [] → ¬ rest <+: other ∧ ¬ other <+: rest

theorem ClearOf.tail (h : ClearOf pattern other) : ClearOf pattern.tail other := fun _ hrest =>
  h _ ((List.mem_tails _ _).2 (((List.mem_tails _ _).1 hrest).trans (List.tail_suffix _)))

theorem ClearOf.length_le (h : ClearOf pattern other) (hpattern : pattern <+: s)
    (hother : StandsAt other s place) : pattern.length ≤ place := by
  by_contra hlt
  rw [not_le] at hlt
  obtain ⟨rest, rfl⟩ := hpattern
  have hclear := h (pattern.drop place) ((List.mem_tails _ _).2 (List.drop_suffix _ _))
    (by simpa using hlt)
  rw [StandsAt, List.drop_append_of_le_length hlt.le] at hother
  exact (List.prefix_or_prefix_of_prefix (List.prefix_append _ rest) hother).elim hclear.1 hclear.2

theorem ClearOf.prefix_append_iff (h : ClearOf pattern.tail other) (hrest : other <+: rest)
    (hne : before ≠ []) : pattern <+: before ++ rest ↔ pattern <+: before := by
  constructor
  · intro hprefix
    cases pattern with
    | nil => exact List.nil_prefix
    | cons p pattern =>
      obtain ⟨b, before, rfl⟩ := List.exists_cons_of_ne_nil hne
      have hother : StandsAt other (before ++ rest) before.length :=
        standsAt_append_right.2 (standsAt_zero.2 hrest)
      have hlength := h.length_le (List.cons_prefix_cons.1 hprefix).2 hother
      exact List.prefix_of_prefix_length_le hprefix (List.prefix_append _ rest)
        (Nat.succ_le_succ hlength)
  · intro hprefix
    exact hprefix.trans (List.prefix_append _ _)

theorem ClearOf.standsAt_append (h : ClearOf pattern.tail other) (hrest : other <+: rest)
    (hplace : place < before.length) :
    StandsAt pattern (before ++ rest) place ↔ StandsAt pattern before place := by
  have hne : before.drop place ≠ [] := by simpa using hplace
  rw [StandsAt, List.drop_append_of_le_length hplace.le, h.prefix_append_iff hrest hne, StandsAt]

end Places

section Counted
variable {α : Type} [DecidableEq α] {pattern other s before rest : List α} {place n : Nat}

instance : Decidable (StandsAt pattern s place) := inferInstanceAs (Decidable (_ <+: _))

instance : Decidable (ClearOf pattern other) :=
  inferInstanceAs (Decidable (∀ rest ∈ pattern.tails, _))

def occurrences (pattern s : List α) : Nat :=
  (List.range s.length).countP fun place => StandsAt pattern s place

theorem occurrences_cons {c : α} : occurrences pattern (c :: s) =
    occurrences pattern s + if pattern <+: c :: s then 1 else 0 := by
  unfold occurrences
  rw [List.length_cons, List.range_succ_eq_map, List.countP_cons, List.countP_map]
  simp only [decide_eq_true_iff, standsAt_zero]
  rfl

theorem occurrences_drop (h : ∀ place < n, ¬ StandsAt pattern s place) :
    occurrences pattern (s.drop n) = occurrences pattern s := by
  induction n generalizing s with
  | zero => rfl
  | succ n ih =>
    cases s with
    | nil => rfl
    | cons c s =>
      have hhead : ¬ pattern <+: c :: s := h 0 n.succ_pos
      rw [List.drop_succ_cons, ih fun place hplace => h (place + 1) (Nat.succ_lt_succ hplace),
        occurrences_cons, if_neg hhead, Nat.add_zero]

theorem ClearOf.occurrences_append (h : ClearOf pattern.tail other) (hrest : other <+: rest) :
    occurrences pattern (before ++ rest) =
      occurrences pattern before + occurrences pattern rest := by
  induction before with
  | nil => exact (Nat.zero_add _).symm
  | cons b before ih =>
    have hhead := h.prefix_append_iff hrest (List.cons_ne_nil b before)
    rw [List.cons_append] at hhead ⊢
    rw [occurrences_cons, occurrences_cons, ih]
    simp only [hhead]
    omega

end Counted

section Search
variable {α : Type} [DecidableEq α] {pattern s before rest : List α} {place : Nat}

theorem not_standsAt_of_breakAt? (h : breakAt? pattern s = none) : ¬ StandsAt pattern s place := by
  intro hstands
  have hoccurs := occurs_iff.2 hstands.isInfix
  simp [occurs, h] at hoccurs

theorem length_le_of_breakAt? (h : breakAt? pattern s = some (before, rest))
    (hplace : StandsAt pattern s place) : before.length ≤ place := by
  induction s generalizing before rest place with
  | nil =>
    obtain ⟨rfl, -⟩ := List.append_eq_nil_iff.1 (append_of_breakAt? h).symm
    exact Nat.zero_le place
  | cons c s ih =>
    simp only [breakAt?] at h
    split at h
    · obtain rfl : [] = before := (Prod.mk.inj (Option.some.inj h)).1
      exact Nat.zero_le place
    · next hprefix =>
      obtain ⟨⟨before, rest⟩, hcut, heq⟩ := Option.map_eq_some_iff.1 h
      obtain rfl := (Prod.mk.inj heq).1
      cases place with
      | zero => exact absurd (List.isPrefixOf_iff_prefix.2 hplace) hprefix
      | succ place => exact Nat.succ_le_succ (ih hcut hplace)

theorem isLeast_of_breakAt? (h : breakAt? pattern s = some (before, rest)) :
    IsLeast {place | StandsAt pattern s place} before.length := by
  refine ⟨?_, fun place hplace => length_le_of_breakAt? h hplace⟩
  have hprefix : StandsAt pattern rest 0 := prefix_of_breakAt? h
  rw [append_of_breakAt? h]
  exact standsAt_append_right.2 hprefix

theorem breakAt?_eq_some : breakAt? pattern s = some (before, rest) ↔
    ∃ place, IsLeast {place | StandsAt pattern s place} place ∧
      before = s.take place ∧ rest = s.drop place := by
  constructor
  · intro h
    refine ⟨before.length, isLeast_of_breakAt? h, ?_, ?_⟩
    · rw [append_of_breakAt? h, List.take_left]
    · rw [append_of_breakAt? h, List.drop_left]
  · rintro ⟨place, hplace, rfl, rfl⟩
    cases hcut : breakAt? pattern s with
    | none => exact absurd hplace.1 (not_standsAt_of_breakAt? hcut)
    | some cut =>
      obtain ⟨before, rest⟩ := cut
      obtain rfl := hplace.unique (isLeast_of_breakAt? hcut)
      rw [append_of_breakAt? hcut, List.take_left, List.drop_left]

end Search

end Unbundle.Text
