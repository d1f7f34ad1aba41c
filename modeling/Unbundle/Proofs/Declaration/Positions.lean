import Unbundle.Proofs.Declaration.Steps

/-! Where the lines of a stream go. Every position of a stream belongs to one scope at most, the one
that the capture standing there copies the line for, so slices that are read off the positions of
different scopes have no line in common. -/

namespace Unbundle.Declaration
open Std (ExtTreeMap)

namespace Capture

/-- The scope a line is copied for, if it is copied. -/
def scope? (capture : Capture) (line : String) : Option Scope :=
  if endsModule line then none
  else
    match capture.place with
    | .inside block .body =>
      if (capture.opensVersion? line).isSome then none else some ⟨block.name, none⟩
    | .inside block (.version version) =>
      if line = versionClose then none else some ⟨block.name, some version.name⟩
    | .inside _ .repeated | .outside | .repeated => none

/-- What a line does that stays inside a module: where it goes from one block to the next, and the
scope it is copied for. -/
inductive Moves (capture : Capture) (line : String) :
    ModuleBlock → Inner → Option Scope → ModuleBlock → Inner → Prop where
  | plain (block : ModuleBlock) : Moves capture line block .body (some ⟨block.name, none⟩)
      (block.push (Reference.localize ⟨block.name, none⟩ capture.direction line)) .body
  | enter (block : ModuleBlock) (name : String) (opens : OpensVersion line name)
      (isNew : name ∉ block.slices.versions) :
      Moves capture line block .body none block
        (.version ⟨name, .ofHeader capture.options.header⟩)
  | copy (block : ModuleBlock) (version : VersionBlock) (stays : line ≠ versionClose) :
      Moves capture line block (.version version) (some ⟨block.name, some version.name⟩) block
        (.version (version.push
          (Reference.localize ⟨block.name, some version.name⟩ capture.direction line)))
  | keep (block : ModuleBlock) (version : VersionBlock) (closes : line = versionClose) :
      Moves capture line block (.version version) none (block.keep version) .body
  | pass (block : ModuleBlock) (inner inner' : Inner) (outer : ∀ version, inner ≠ .version version)
      (outer' : ∀ version, inner' ≠ .version version) :
      Moves capture line block inner none block inner'

theorem moves_take {capture : Capture} {block : ModuleBlock} {inner : Inner} {line : String}
    (hp : capture.place = .inside block inner) (hends : endsModule line = false) :
    ∃ block' inner', (capture.take line).place = .inside block' inner' ∧
      Moves capture line block inner (capture.scope? line) block' inner' := by
  rw [take_inside hp hends]
  simp only [scope?, hends, hp, Bool.false_eq_true, if_false]
  cases inner with
  | body =>
    simp only [within]
    cases hopens : capture.counted.opensVersion? line with
    | none =>
      have hopens' : capture.opensVersion? line = none := hopens
      exact ⟨_, _, rfl, by simpa [hopens'] using .plain block⟩
    | some name =>
      have hopens' : capture.opensVersion? line = some name := hopens
      simp only [hopens', Option.isSome_some, if_true]
      by_cases hnew : name ∈ block.slices.versions
      · rw [enterVersion_of_mem hnew]
        exact ⟨_, _, rfl, .pass block _ _ (by simp) (by simp)⟩
      · rw [enterVersion_of_notMem hnew]
        exact ⟨_, _, rfl, .enter block name (opensVersion_of_opensVersion? hopens') hnew⟩
  | version version =>
    simp only [within]
    split
    · next hclose => exact ⟨_, _, rfl, .keep block version hclose⟩
    · next hclose => exact ⟨_, _, rfl, .copy block version hclose⟩
  | repeated =>
    simp only [within]
    split
    · exact ⟨_, _, rfl, .pass block _ _ (by simp) (by simp)⟩
    · exact ⟨_, _, hp, .pass block _ _ (by simp) (by simp)⟩

end Capture

structure Source where
  direction : Direction
  options : Options
  lines : List String

namespace Source
variable {source : Source}

def upTo (source : Source) (n : Nat) : Capture :=
  (Capture.initial source.direction source.options).takeAll (source.lines.take n)

def scopeAt? (source : Source) (n : Nat) : Option Scope :=
  source.lines[n]?.bind (source.upTo n).scope?

/-- The positions between `first` and `last` whose lines are copied for a scope. -/
def positions (source : Source) (first last : Nat) (scope : Scope) : List Nat :=
  (List.range last).filter fun p => first < p ∧ source.scopeAt? p = some scope

/-- The lines at some positions as they stand in the slice of a scope. -/
def copies (source : Source) (scope : Scope) (positions : List Nat) : List String :=
  source.options.header ::
    positions.map fun p => Reference.localize scope source.direction (source.lines.getD p "")

def gathered (source : Source) (first last : Nat) (scope : Scope) : Slice :=
  ⟨source.copies scope (source.positions first last scope)⟩

theorem upTo_zero : source.upTo 0 = Capture.initial source.direction source.options := rfl

theorem upTo_succ {n : Nat} {line : String} (h : source.lines[n]? = some line) :
    source.upTo (n + 1) = (source.upTo n).take line := by
  simp [upTo, List.take_add_one, h, Capture.takeAll_append]

theorem upTo_length :
    source.upTo source.lines.length =
      (Capture.initial source.direction source.options).takeAll source.lines := by
  rw [upTo, List.take_length]

theorem direction_upTo (source : Source) (n : Nat) : (source.upTo n).direction = source.direction :=
  (Capture.grows_takeAll _ _).direction

theorem options_upTo (source : Source) (n : Nat) : (source.upTo n).options = source.options :=
  (Capture.grows_takeAll _ _).options

section Positions
variable {first last n p : Nat} {scope scope' : Scope}

theorem mem_positions :
    p ∈ source.positions first last scope ↔
      p < last ∧ first < p ∧ source.scopeAt? p = some scope := by
  simp [positions]

theorem sorted_positions : (source.positions first last scope).Pairwise (· < ·) :=
  List.pairwise_lt_range.filter _

theorem disjoint_positions {first' last' : Nat} (h : scope ≠ scope') :
    ∀ p ∈ source.positions first last scope, p ∉ source.positions first' last' scope' := by
  intro p hp hp'
  have heq := (mem_positions.1 hp).2.2.symm.trans (mem_positions.1 hp').2.2
  exact h (Option.some.inj heq)

theorem positions_self : source.positions first (first + 1) scope = [] := by
  refine List.filter_eq_nil_iff.2 fun p hp => ?_
  have := List.mem_range.1 hp
  simp only [decide_eq_true_eq, not_and]
  omega

theorem positions_succ_of_eq (hfirst : first < n) (h : source.scopeAt? n = some scope) :
    source.positions first (n + 1) scope = source.positions first n scope ++ [n] := by
  simp [positions, List.range_succ, hfirst, h]

theorem positions_succ_of_ne (h : source.scopeAt? n ≠ some scope) :
    source.positions first (n + 1) scope = source.positions first n scope := by
  simp [positions, List.range_succ, h]

theorem gathered_succ_of_eq {line : String} (hfirst : first < n)
    (h : source.scopeAt? n = some scope) (hline : source.lines[n]? = some line) :
    source.gathered first (n + 1) scope =
      (source.gathered first n scope).push
        (Reference.localize scope source.direction line) := by
  simp [gathered, copies, positions_succ_of_eq hfirst h, Slice.push, hline]

theorem gathered_succ_of_ne (h : source.scopeAt? n ≠ some scope) :
    source.gathered first (n + 1) scope = source.gathered first n scope := by
  rw [gathered, positions_succ_of_ne h, gathered]

theorem gathered_of_nil (h : source.positions first n scope = []) :
    source.gathered first n scope = .ofHeader source.options.header := by
  simp [gathered, copies, h, Slice.ofHeader]

end Positions

end Source

end Unbundle.Declaration
