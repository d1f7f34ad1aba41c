import Mathlib.Order.Nat
import Unbundle.CorePackage
import Unbundle.Proofs.Text.Occurrences

/-! The index of the core package. What is cut out of it begins with the first mark of exports and
ends where a registration begins, so that two pieces of text meet which were apart. No end of a mark
or of a registration begins like a registration: no call is cut in two and none arises where the
pieces meet, so that there are as many calls as in the whole index. -/

namespace Unbundle
open Unbundle.Text

/-- The first mark of exports in an index, and the first registration behind it. -/
structure ExportsBlock (index : String) (mark call : Nat) : Prop where
  begins : IsLeast {place | StandsAt exportsMarker.toList index.toList place} mark
  ends : IsLeast {place | mark + exportsMarker.length ≤ place ∧
    StandsAt registrationMarker.toList index.toList place} call

theorem exports_clearOf_registration :
    ClearOf exportsMarker.toList registrationMarker.toList := by decide

theorem registration_clearOf_exports :
    ClearOf registrationMarker.toList exportsMarker.toList := by decide

theorem registration_clearOf_registration :
    ClearOf registrationMarker.toList.tail registrationMarker.toList := by decide

section Block
variable {index : String} {before rest : List Char} {mark call place : Nat}

theorem registration_behind_exports (hmark : StandsAt exportsMarker.toList index.toList mark) :
    mark ≤ place ∧ StandsAt registrationMarker.toList index.toList place ↔
      mark + exportsMarker.length ≤ place ∧
        StandsAt registrationMarker.toList index.toList place := by
  constructor
  · rintro ⟨hle, hcall⟩
    obtain ⟨k, rfl⟩ := Nat.exists_eq_add_of_le hle
    have hlength := exports_clearOf_registration.length_le hmark (standsAt_drop.2 hcall)
    exact ⟨Nat.add_le_add_left (String.length_toList ▸ hlength) mark, hcall⟩
  · rintro ⟨hle, hcall⟩
    exact ⟨(Nat.le_add_right _ _).trans hle, hcall⟩

theorem exportsCut?_eq_some : exportsCut? index = some (before, rest) ↔
    ∃ mark call, ExportsBlock index mark call ∧
      before = index.toList.take mark ∧ rest = index.toList.drop call := by
  constructor
  · intro h
    obtain ⟨⟨front, behind⟩, hmark, h⟩ := Option.bind_eq_some_iff.1 h
    obtain ⟨⟨block, tail⟩, hcall, h⟩ := Option.bind_eq_some_iff.1 h
    cases h
    obtain ⟨mark, hbegins, rfl, rfl⟩ := breakAt?_eq_some.1 hmark
    obtain ⟨place, hends, -, rfl⟩ := breakAt?_eq_some.1 hcall
    rw [isLeast_standsAt_drop] at hends
    simp only [registration_behind_exports hbegins.1] at hends
    exact ⟨mark, mark + place, ⟨hbegins, hends⟩, rfl, List.drop_drop⟩
  · rintro ⟨mark, call, ⟨hbegins, hends⟩, rfl, rfl⟩
    simp only [← registration_behind_exports hbegins.1] at hends
    obtain ⟨place, rfl⟩ := Nat.exists_eq_add_of_le hends.1.1
    have hmark := breakAt?_eq_some.2 ⟨mark, hbegins, rfl, rfl⟩
    have hcall := breakAt?_eq_some.2 ⟨place, isLeast_standsAt_drop.2 hends, rfl, rfl⟩
    simp [exportsCut?, hmark, hcall, List.drop_drop]

theorem ExportsBlock.toList_cutExports (block : ExportsBlock index mark call) :
    (cutExports index).toList = index.toList.take mark ++ index.toList.drop call := by
  have hcut := exportsCut?_eq_some.2 ⟨mark, call, block, rfl, rfl⟩
  rw [cutExports, hcut, String.toList_ofList]

theorem cutExports_eq_self (h : ¬ ∃ mark call, ExportsBlock index mark call) :
    cutExports index = index := by
  have hnone : exportsCut? index = none := by
    by_contra hcut
    obtain ⟨⟨before, rest⟩, hcut⟩ := Option.ne_none_iff_exists'.1 hcut
    obtain ⟨mark, call, block, -⟩ := exportsCut?_eq_some.1 hcut
    exact h ⟨mark, call, block⟩
  rw [cutExports, hnone]

theorem exists_exportsBlock_iff : (∃ mark call, ExportsBlock index mark call) ↔
    ∃ mark call, IsLeast {place | StandsAt exportsMarker.toList index.toList place} mark ∧
      mark + exportsMarker.length ≤ call ∧
      StandsAt registrationMarker.toList index.toList call := by
  constructor
  · rintro ⟨mark, call, hbegins, hends⟩
    exact ⟨mark, call, hbegins, hends.1⟩
  · rintro ⟨mark, call, hbegins, hcall⟩
    exact ⟨mark, _, hbegins, Nat.isLeast_find ⟨call, hcall⟩⟩

namespace ExportsBlock

theorem length_le (block : ExportsBlock index mark call) :
    mark + exportsMarker.length ≤ call ∧ call + registrationMarker.length ≤ index.length :=
  ⟨block.ends.1.1, block.ends.1.2.length_le (by decide)⟩

theorem length_front (block : ExportsBlock index mark call) :
    (index.toList.take mark).length = mark := by
  have hlength := block.length_le
  rw [List.length_take, String.length_toList]
  omega

theorem cutExports_ne (block : ExportsBlock index mark call) : cutExports index ≠ index := by
  intro heq
  have hcut := congrArg List.length block.toList_cutExports
  obtain ⟨hcall, hindex⟩ := block.length_le
  have hpositive : 0 < exportsMarker.length := by decide
  rw [heq, List.length_append, block.length_front, List.length_drop, String.length_toList] at hcut
  omega

/-- The registrations in front of the block stay and so do those behind it; there are no others. -/
theorem occurrences_cutExports (block : ExportsBlock index mark call) :
    occurrences registrationMarker.toList (cutExports index).toList =
      occurrences registrationMarker.toList index.toList := by
  have hmark := block.begins.1
  obtain ⟨⟨hbehind, hcall⟩, hleast⟩ := block.ends
  obtain ⟨k, rfl⟩ := Nat.exists_eq_add_of_le ((Nat.le_add_right mark _).trans hbehind)
  have hnone : ∀ place < k,
      ¬ StandsAt registrationMarker.toList (index.toList.drop mark) place := by
    intro place hplace hstands
    have hfound := (registration_behind_exports hmark).1
      ⟨Nat.le_add_right mark place, standsAt_drop.1 hstands⟩
    have := hleast hfound
    omega
  calc occurrences registrationMarker.toList (cutExports index).toList
      = occurrences registrationMarker.toList (index.toList.take mark) +
          occurrences registrationMarker.toList (index.toList.drop (mark + k)) := by
        rw [block.toList_cutExports, registration_clearOf_registration.occurrences_append hcall]
    _ = occurrences registrationMarker.toList (index.toList.take mark) +
          occurrences registrationMarker.toList (index.toList.drop mark) := by
        rw [← List.drop_drop, occurrences_drop hnone]
    _ = occurrences registrationMarker.toList index.toList := by
        rw [← registration_clearOf_exports.tail.occurrences_append hmark, List.take_append_drop]

/-- A mark of exports that is left stands behind the registration at which the block ended. -/
theorem le_of_standsAt_cutExports (block : ExportsBlock index mark call)
    (h : StandsAt exportsMarker.toList (cutExports index).toList place) :
    mark + registrationMarker.length ≤ place := by
  have hcall := block.ends.1.2
  rw [block.toList_cutExports] at h
  by_cases hplace : place < (index.toList.take mark).length
  · -- it would be a mark in front of the first one
    rw [exports_clearOf_registration.tail.standsAt_append hcall hplace] at h
    have hwhole : StandsAt exportsMarker.toList
        (index.toList.take mark ++ index.toList.drop mark) place := h.append hplace.le
    rw [List.take_append_drop] at hwhole
    have hfirst := block.begins.2 hwhole
    rw [block.length_front] at hplace
    omega
  · rw [not_lt] at hplace
    obtain ⟨k, rfl⟩ := Nat.exists_eq_add_of_le hplace
    have hlength := registration_clearOf_exports.length_le hcall (standsAt_append_right.1 h)
    rw [block.length_front, ← String.length_toList]
    exact Nat.add_le_add_left hlength mark

end ExportsBlock
end Block

/-- Cutting the exports out of an index loses no registration and makes none. The index stays as it
is exactly if no registration stands behind the first mark of exports. Otherwise all from this mark
to the first registration behind it is left out, and marks are found only behind this registration.
-/
theorem cutExports_keeps_registrations (index : String) :
    occurrences registrationMarker.toList (cutExports index).toList =
      occurrences registrationMarker.toList index.toList ∧
    (cutExports index = index ↔ ¬ ∃ mark call,
      IsLeast {place | StandsAt exportsMarker.toList index.toList place} mark ∧
      mark + exportsMarker.length ≤ call ∧
      StandsAt registrationMarker.toList index.toList call) ∧
    (cutExports index = index ∨ ∃ mark call, ExportsBlock index mark call ∧
      (cutExports index).toList = index.toList.take mark ++ index.toList.drop call ∧
      ∀ place, StandsAt exportsMarker.toList (cutExports index).toList place →
        mark + registrationMarker.length ≤ place) := by
  rw [← exists_exportsBlock_iff]
  by_cases hblock : ∃ mark call, ExportsBlock index mark call
  · obtain ⟨mark, call, block⟩ := hblock
    refine ⟨block.occurrences_cutExports, ?_, .inr ⟨mark, call, block, block.toList_cutExports,
      fun place => block.le_of_standsAt_cutExports⟩⟩
    exact iff_of_false block.cutExports_ne (not_not_intro ⟨mark, call, block⟩)
  · have hsame := cutExports_eq_self hblock
    exact ⟨by rw [hsame], iff_of_true hsame hblock, .inl hsame⟩

/-- In front of the first mark a registration breaks off, and the cut puts a whole one behind this
piece; of the three marks the last stays. -/
def tangledIndex : String :=
  "pulumi.runtime.register" ++ exportsMarker ++ "\n" ++ exportsMarker ++ "\n" ++
    registrationMarker ++ "();\n" ++ exportsMarker

theorem toList_tangledIndex : tangledIndex.toList =
    "pulumi.runtime.register".toList ++ exportsMarker.toList ++ "\n".toList ++
      exportsMarker.toList ++ "\n".toList ++ registrationMarker.toList ++ "();\n".toList ++
      exportsMarker.toList := by
  unfold tangledIndex
  simp only [String.toList_append]

theorem exportsBlock_tangledIndex : ExportsBlock tangledIndex 23 67 := by
  have hmark : StandsAt exportsMarker.toList tangledIndex.toList 23 := by
    rw [toList_tangledIndex]
    decide +kernel
  have hnomark : ∀ place < 23, ¬ StandsAt exportsMarker.toList tangledIndex.toList place := by
    rw [toList_tangledIndex]
    decide +kernel
  have hcall : StandsAt registrationMarker.toList tangledIndex.toList 67 := by
    rw [toList_tangledIndex]
    decide +kernel
  have hnocall : ∀ place < 67, 23 + exportsMarker.length ≤ place →
      ¬ StandsAt registrationMarker.toList tangledIndex.toList place := by
    rw [toList_tangledIndex]
    decide +kernel
  exact ⟨⟨hmark, fun place h => not_lt.1 fun hlt => hnomark place hlt h⟩,
    ⟨⟨by decide, hcall⟩, fun place h => not_lt.1 fun hlt => hnocall place hlt h.1 h.2⟩⟩

theorem cutExports_keeps_registrations_tangled :
    ExportsBlock tangledIndex 23 67 ∧
    occurrences registrationMarker.toList (cutExports tangledIndex).toList = 1 ∧
    cutExports tangledIndex =
      "pulumi.runtime.register" ++ registrationMarker ++ "();\n" ++ exportsMarker ∧
    ∀ place, StandsAt exportsMarker.toList (cutExports tangledIndex).toList place → 61 ≤ place := by
  have hblock := exportsBlock_tangledIndex
  obtain ⟨hsame, -, hcut⟩ := cutExports_keeps_registrations tangledIndex
  obtain ⟨mark, call, block, htext, hmarks⟩ := hcut.resolve_left hblock.cutExports_ne
  obtain rfl := block.begins.unique hblock.begins
  obtain rfl := block.ends.unique hblock.ends
  have hcount : occurrences registrationMarker.toList tangledIndex.toList = 1 := by
    rw [toList_tangledIndex]
    decide +kernel
  refine ⟨hblock, hsame.trans hcount, String.toList_injective (htext.trans ?_), hmarks⟩
  simp only [toList_tangledIndex, String.toList_append]
  decide +kernel

end Unbundle
