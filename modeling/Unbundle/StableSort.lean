/-! A stable insertion sort that evaluates in the kernel. `le a b` says that `a` may stand before
`b`; elements that may stand either way keep the order in which they were given. -/

namespace Unbundle

variable {α : Type} (le : α → α → Bool)

def place (x : α) : List α → List α
  | [] => [x]
  | y :: ys => if le x y then x :: y :: ys else y :: place x ys

def stableSort (xs : List α) : List α := xs.foldr (place le) []

variable {le}

theorem place_perm (x : α) (xs : List α) : (place le x xs).Perm (x :: xs) := by
  induction xs with
  | nil => exact List.Perm.refl _
  | cons y ys ih =>
    simp only [place]
    split
    · exact List.Perm.refl _
    · exact (ih.cons y).trans (List.Perm.swap x y ys)

theorem stableSort_perm (xs : List α) : (stableSort le xs).Perm xs := by
  induction xs with
  | nil => exact List.Perm.refl _
  | cons x xs ih => exact (place_perm x _).trans (ih.cons x)

theorem pairwise_place (total : ∀ a b, le a b = true ∨ le b a = true)
    (trans : ∀ a b c, le a b = true → le b c = true → le a c = true) {x : α} {xs : List α}
    (h : xs.Pairwise fun a b => le a b = true) :
    (place le x xs).Pairwise fun a b => le a b = true := by
  induction xs with
  | nil => simp [place]
  | cons y ys ih =>
    rw [List.pairwise_cons] at h
    simp only [place]
    split
    · next hxy =>
      refine List.pairwise_cons.2 ⟨fun b hb => ?_, List.pairwise_cons.2 h⟩
      rcases List.mem_cons.1 hb with rfl | hb
      · exact hxy
      · exact trans _ _ _ hxy (h.1 b hb)
    · next hxy =>
      refine List.pairwise_cons.2 ⟨fun b hb => ?_, ih h.2⟩
      rcases List.mem_cons.1 ((place_perm x ys).mem_iff.1 hb) with rfl | hb
      · exact (total y b).resolve_right hxy
      · exact h.1 b hb

theorem pairwise_stableSort (total : ∀ a b, le a b = true ∨ le b a = true)
    (trans : ∀ a b c, le a b = true → le b c = true → le a c = true) (xs : List α) :
    (stableSort le xs).Pairwise fun a b => le a b = true := by
  induction xs with
  | nil => exact List.Pairwise.nil
  | cons x xs ih => exact pairwise_place total trans ih

theorem place_of_forall {x : α} {xs : List α} (h : ∀ y ∈ xs, le x y = true) :
    place le x xs = x :: xs := by
  cases xs with
  | nil => rfl
  | cons y ys => rw [place, if_pos (h y List.mem_cons_self)]

theorem filter_place (trans : ∀ a b c, le a b = true → le b c = true → le a c = true)
    (p : α → Bool) {x : α} {xs : List α} (h : xs.Pairwise fun a b => le a b = true) :
    (place le x xs).filter p = if p x then place le x (xs.filter p) else xs.filter p := by
  induction xs with
  | nil => cases hx : p x <;> simp [place, hx]
  | cons y ys ih =>
    rw [List.pairwise_cons] at h
    simp only [place]
    split
    · next hxy =>
      have hall : ∀ z ∈ (y :: ys).filter p, le x z = true := by
        intro z hz
        rcases List.mem_cons.1 (List.mem_filter.1 hz).1 with rfl | hz
        · exact hxy
        · exact trans _ _ _ hxy (h.1 z hz)
      rw [List.filter_cons, place_of_forall hall]
    · next hxy =>
      rw [List.filter_cons, ih h.2, List.filter_cons]
      cases hx : p x <;> cases hy : p y <;> simp [place, hxy]

/-- What is left out of a list can be left out before it is sorted. -/
theorem filter_stableSort (total : ∀ a b, le a b = true ∨ le b a = true)
    (trans : ∀ a b c, le a b = true → le b c = true → le a c = true) (p : α → Bool)
    (xs : List α) : (stableSort le xs).filter p = stableSort le (xs.filter p) := by
  induction xs with
  | nil => rfl
  | cons x xs ih =>
    have hplace : stableSort le (x :: xs) = place le x (stableSort le xs) := rfl
    rw [hplace, filter_place trans p (pairwise_stableSort total trans xs), ih, List.filter_cons]
    split <;> rfl

theorem stableSort_of_forall {xs : List α} (h : ∀ a ∈ xs, ∀ b ∈ xs, le a b = true) :
    stableSort le xs = xs := by
  induction xs with
  | nil => rfl
  | cons x xs ih =>
    have hplace : stableSort le (x :: xs) = place le x (stableSort le xs) := rfl
    rw [hplace, ih fun a ha b hb => h a (List.mem_cons_of_mem _ ha) b (List.mem_cons_of_mem _ hb)]
    exact place_of_forall fun y hy => h x List.mem_cons_self y (List.mem_cons_of_mem _ hy)

/-- Elements that may stand either way keep the order in which they were given. -/
theorem filter_stableSort_of_forall (total : ∀ a b, le a b = true ∨ le b a = true)
    (trans : ∀ a b c, le a b = true → le b c = true → le a c = true) {p : α → Bool} {xs : List α}
    (h : ∀ a b, p a = true → p b = true → le a b = true) :
    (stableSort le xs).filter p = xs.filter p := by
  rw [filter_stableSort total trans]
  exact stableSort_of_forall fun a ha b hb =>
    h a b (List.mem_filter.1 ha).2 (List.mem_filter.1 hb).2

end Unbundle
