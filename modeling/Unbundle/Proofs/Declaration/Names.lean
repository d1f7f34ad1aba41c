import Unbundle.Proofs.Declaration.Damage
import Unbundle.Proofs.Declaration.Provenance
import Unbundle.Proofs.Files.Route

/-! Names in a stream. Whatever a stream gives is named by lines that open blocks, be it a module, a
version or the module of an issue, so that its names are identifiers and can be joined to paths. -/

namespace Unbundle.Declaration
open Std (ExtTreeMap)
open Unbundle.Files

theorem isName_of_isIdentifier {name : String} (h : IsIdentifier name.toList) : IsName name := by
  have hstart : ∀ c ∈ name.toList.head?, Text.isIdentifierStart c = true := by
    cases hname : name.toList with
    | nil => simp
    | cons c s =>
      rw [hname] at h
      simpa using h.1
  refine ⟨?_, ?_, ?_, ?_⟩
  · rintro rfl
    exact h
  · rintro rfl
    exact absurd (hstart '.' rfl) (by decide)
  · rintro rfl
    exact absurd (hstart '.' rfl) (by decide)
  · cases hname : name.toList with
    | nil => simp
    | cons c s =>
      rw [hname] at h hstart
      intro hmem
      rcases List.mem_cons.1 hmem with rfl | hmem
      · exact absurd h.1 (by decide)
      · exact absurd (h.2 _ hmem) (by decide)

namespace Source
variable {source : Source} {n : Nat} {issue : Issue}

theorem opens_of_inside (hn : n ≤ source.lines.length) {block : ModuleBlock} {inner : Inner}
    (hp : (source.upTo n).place = .inside block inner) :
    ∃ line ∈ source.lines, OpensModule line block.name := by
  obtain ⟨first, hreading⟩ := (traced hn).reading block inner hp
  obtain ⟨line, hline, hopens⟩ := hreading.opens
  exact ⟨line, List.mem_of_getElem? hline, hopens⟩

theorem opens_of_leftOpen (hn : n ≤ source.lines.length) (h : (source.upTo n).LeftOpen issue) :
    ∃ line ∈ source.lines, OpensModule line issue.scope.module := by
  obtain ⟨-, block, inner, hp, hname⟩ := h
  exact hname ▸ opens_of_inside hn hp

theorem opens_of_mem_issues (hn : n ≤ source.lines.length) (h : issue ∈ (source.upTo n).issues) :
    ∃ line ∈ source.lines, OpensModule line issue.scope.module := by
  obtain ⟨p, line, hp, hline, hnoted⟩ := exists_of_mem_issues hn h
  have hle : p ≤ source.lines.length := Nat.le_of_lt (Nat.lt_of_lt_of_le hp hn)
  rcases hnoted with hleft | ⟨-, hreopens⟩
  · exact opens_of_leftOpen hle hleft
  · rcases hreopens.module_eq with hopens | ⟨block, inner, hplace, hname⟩
    · exact ⟨line, List.mem_of_getElem? hline, hopens⟩
    · exact hname ▸ opens_of_inside hle hplace

end Source

/-- Everything that a stream names has an identifier for its name. -/
structure Stream.Named (stream : Stream) : Prop where
  modules : ∀ name ∈ stream.modules, IsIdentifier name.toList
  versions : ∀ (name : String) (slices : ModuleSlices), stream.modules[name]? = some slices →
    ∀ version ∈ slices.versions, IsIdentifier version.toList
  issues : ∀ issue ∈ stream.issues, IsIdentifier issue.scope.module.toList

theorem Stream.named_ofLines (direction : Direction) (options : Options) (lines : List String) :
    (Stream.ofLines direction options lines).Named := by
  let source : Source := ⟨direction, options, lines⟩
  have hkept : ∀ (name : String) (slices : ModuleSlices),
      (Stream.ofLines direction options lines).modules[name]? =
      some slices → ∃ first last, ModuleSpan lines name first last ∧
        source.Entry first last ⟨name, slices⟩ := by
    intro name slices h
    rw [Capture.modules_ofLines] at h
    refine (@Source.traced source _ (Nat.le_refl _)).kept name slices ?_
    rwa [Source.upTo_length]
  refine ⟨fun name hname => ?_, fun name slices hslices version hversion => ?_, ?_⟩
  · obtain ⟨slices, hslices⟩ :=
      Option.isSome_iff_exists.1 (ExtTreeMap.mem_iff_isSome_getElem?.1 hname)
    obtain ⟨first, last, hspan, -⟩ := hkept name slices hslices
    obtain ⟨line, -, hopens⟩ := hspan.opens
    exact hopens.1
  · obtain ⟨first, last, -, hentry⟩ := hkept name slices hslices
    obtain ⟨slice, hslice⟩ :=
      Option.isSome_iff_exists.1 (ExtTreeMap.mem_iff_isSome_getElem?.1 hversion)
    obtain ⟨-, k, l, -, -, hspan, -⟩ := hentry.versions version slice hslice
    obtain ⟨line, -, hopens⟩ := hspan.opens
    exact hopens.1.1
  · intro issue hissue
    rw [Capture.ofLines_eq, Capture.stream_eq, ← @Source.upTo_length source] at hissue
    rcases Capture.mem_issues_settled hissue with h | hleft
    · obtain ⟨line, -, hopens⟩ := Source.opens_of_mem_issues (Nat.le_refl _) h
      exact hopens.1
    · obtain ⟨line, -, hopens⟩ := Source.opens_of_leftOpen (Nat.le_refl _) hleft
      exact hopens.1

end Unbundle.Declaration
