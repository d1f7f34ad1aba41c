/-! Looking for one text inside another. -/

namespace Unbundle.Text

section Search
variable {α : Type} [DecidableEq α]

/-- What follows `pattern` when the text starts with it. -/
def after? : List α → List α → Option (List α)
  | [], s => some s
  | _ :: _, [] => none
  | p :: pattern, c :: s => if p = c then after? pattern s else none

theorem after?_eq_some {pattern s rest : List α} :
    after? pattern s = some rest ↔ s = pattern ++ rest := by
  induction pattern generalizing s with
  | nil => simp [after?]
  | cons p pattern ih =>
    cases s with
    | nil => simp [after?]
    | cons c s =>
      by_cases h : p = c
      · subst h; simp [after?, ih]
      · simp [after?, h, Ne.symm h]

/-- Splits the text before the first occurrence of `pattern`. -/
def breakAt? (pattern : List α) : List α → Option (List α × List α)
  | [] => if pattern.isEmpty then some ([], []) else none
  | c :: s =>
    if pattern.isPrefixOf (c :: s) then some ([], c :: s)
    else (breakAt? pattern s).map fun cut => (c :: cut.1, cut.2)

theorem append_of_breakAt? {pattern s before rest : List α}
    (h : breakAt? pattern s = some (before, rest)) : s = before ++ rest := by
  induction s generalizing before with
  | nil => simp only [breakAt?] at h; split at h <;> simp_all
  | cons c s ih =>
    simp only [breakAt?] at h
    split at h
    · simp_all
    · obtain ⟨⟨b, r⟩, hb, he⟩ := Option.map_eq_some_iff.1 h
      simp only [Prod.mk.injEq] at he
      obtain ⟨rfl, rfl⟩ := he
      simp [ih hb]

theorem prefix_of_breakAt? {pattern s before rest : List α}
    (h : breakAt? pattern s = some (before, rest)) : pattern <+: rest := by
  induction s generalizing before with
  | nil => simp only [breakAt?] at h; split at h <;> simp_all
  | cons c s ih =>
    simp only [breakAt?] at h
    split at h
    · next hp => simp_all
    · obtain ⟨⟨b, r⟩, hb, he⟩ := Option.map_eq_some_iff.1 h
      simp only [Prod.mk.injEq] at he
      obtain ⟨rfl, rfl⟩ := he
      exact ih hb

def occurs (pattern s : List α) : Bool := (breakAt? pattern s).isSome

theorem occurs_iff {pattern s : List α} : occurs pattern s = true ↔ pattern <:+: s := by
  induction s with
  | nil => simp [occurs, breakAt?]
  | cons c s ih =>
    simp only [occurs, breakAt?] at ih ⊢
    split
    · next h => simpa using (List.isPrefixOf_iff_prefix.1 h).isInfix
    · next h =>
      have hp : ¬ pattern <+: c :: s := fun hp => h (List.isPrefixOf_iff_prefix.2 hp)
      simp only [Option.isSome_map, ih, List.infix_cons_iff, hp, false_or]

end Search

/-- The longest beginning of `s` whose characters are all in `p`, and the rest. -/
def spanChars (p : Char → Bool) (s : List Char) : List Char × List Char :=
  (s.takeWhile p, s.dropWhile p)

def contains (pattern text : String) : Bool := occurs pattern.toList text.toList

end Unbundle.Text
