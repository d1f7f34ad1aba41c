import Unbundle.Proofs.Declaration.Provenance
import Unbundle.Proofs.Reference.Residue

/-! References of a scope to itself in its own slice. A slice holds no line but those captured for
its scope, each rewritten by the rules of the scope, so such a reference is left just where the
captured line named the scope twice. -/

namespace Unbundle.Declaration
open Reference

def Stream.slice? (stream : Stream) (scope : Scope) : Option Slice :=
  stream.modules[scope.module]?.bind fun slices =>
    match scope.version with
    | none => some slices.own
    | some version => slices.versions[version]?

namespace Source
variable {source : Source} {scope : Scope} {slice : Slice}

theorem exists_gathered
    (h : (Stream.ofLines source.direction source.options source.lines).slice? scope = some slice) :
    ∃ first last, slice = source.gathered first last scope := by
  obtain ⟨slices, hslices, hslice⟩ := Option.bind_eq_some_iff.1 h
  rw [Capture.modules_ofLines, ← upTo_length] at hslices
  obtain ⟨first, last, -, hentry⟩ := (traced (Nat.le_refl _)).kept _ _ hslices
  refine ⟨first, last, ?_⟩
  obtain ⟨module, version⟩ := scope
  cases version with
  | none => exact (Option.some.inj hslice).symm.trans hentry.own
  | some version => exact (hentry.versions version slice hslice).eq

theorem mem_gathered {first last : Nat} {line : String}
    (h : line ∈ (source.gathered first last scope).lines.tail) :
    ∃ p raw, source.lines[p]? = some raw ∧ source.scopeAt? p = some scope ∧
      line = localize scope source.direction raw := by
  obtain ⟨p, hp, rfl⟩ := List.mem_map.1 h
  obtain ⟨-, -, hscope⟩ := mem_positions.1 hp
  obtain ⟨raw, hraw, -⟩ := Option.bind_eq_some_iff.1 hscope
  exact ⟨p, raw, hraw, hscope, by rw [List.getD_eq_getElem?_getD, hraw, Option.getD_some]⟩

end Source

/-- Below the header of a slice a reference of the scope to itself stands where the line that was
captured gives the name of the scope twice, and nowhere else. -/
theorem selfQualified_iff_twiceQualified (direction : Direction) (options : Options)
    (lines : List String) (scope : Scope) (slice : Slice) (hplain : PlainNames scope)
    (hslice : (Stream.ofLines direction options lines).slice? scope = some slice) :
    ∀ line ∈ slice.lines.tail, ∃ p raw, lines[p]? = some raw ∧
      Source.scopeAt? ⟨direction, options, lines⟩ p = some scope ∧
      line = localize scope direction raw ∧
      (SelfQualified scope direction line.toList ↔
        TwiceQualified scope direction (unindent raw).toList) := by
  intro line hline
  let source : Source := ⟨direction, options, lines⟩
  obtain ⟨first, last, rfl⟩ := @Source.exists_gathered source scope slice hslice
  obtain ⟨p, raw, hraw, hscope, rfl⟩ := Source.mem_gathered hline
  exact ⟨p, raw, hraw, hscope, rfl, selfQualified_apply hplain (unindent raw)⟩

def enumOfOwnName : List String :=
  ["export namespace Kind \x7b", "    a: enums.Kind.Kind.A;", "    b: enums.Kind.B;", "\x7d"]

theorem selfQualified_enumOfOwnName : PlainNames ⟨"Kind", none⟩ ∧
    (Stream.ofLines .inputs ⟨"header", true⟩ enumOfOwnName).slice? ⟨"Kind", none⟩ =
      some ⟨["header", "a: enums.Kind.A;", "b: enums.B;"]⟩ ∧
    ∃ raw ∈ enumOfOwnName, TwiceQualified ⟨"Kind", none⟩ .inputs (unindent raw).toList := by
  have hplain : PlainNames ⟨"Kind", none⟩ := ⟨⟨by decide, by simp⟩, by simp⟩
  have hslice : (Stream.ofLines .inputs ⟨"header", true⟩ enumOfOwnName).slice? ⟨"Kind", none⟩ =
      some ⟨["header", "a: enums.Kind.A;", "b: enums.B;"]⟩ := by decide +kernel
  obtain ⟨_, raw, hraw, -, -, hiff⟩ := selfQualified_iff_twiceQualified .inputs ⟨"header", true⟩
    enumOfOwnName ⟨"Kind", none⟩ _ hplain hslice "a: enums.Kind.A;" (by decide)
  refine ⟨hplain, hslice, raw, List.mem_of_getElem? hraw, hiff.1 (Or.inr ?_)⟩
  exact ⟨"a: ".toList, "A;".toList, by decide, by simp [isTokenChar]⟩

/-- A module whose name has a character that no token has: the letters of the name before and behind
what is taken out meet. -/
def accentedName : List String :=
  ["export namespace Ré \x7b", "    a: inputs.Réinputs.Ré..B;", "\x7d"]

/-- The rules can leave references of a scope to itself, and leave new ones where names are not
plain. -/
theorem selfQualified_enumOfOwnName_accentedName :
    (∃ slice, (Stream.ofLines .inputs ⟨"header", true⟩ enumOfOwnName).slice? ⟨"Kind", none⟩ =
        some slice ∧
      ∃ line ∈ slice.lines.tail, SelfQualified ⟨"Kind", none⟩ .inputs line.toList) ∧
    ∃ slice, (Stream.ofLines .inputs ⟨"header", true⟩ accentedName).slice? ⟨"Ré", none⟩ =
        some slice ∧
      ∃ line ∈ slice.lines.tail, SelfQualified ⟨"Ré", none⟩ .inputs line.toList := by
  have hkind : (Stream.ofLines .inputs ⟨"header", true⟩ enumOfOwnName).slice? ⟨"Kind", none⟩ =
      some ⟨["header", "a: enums.Kind.A;", "b: enums.B;"]⟩ := by decide +kernel
  have haccented : (Stream.ofLines .inputs ⟨"header", true⟩ accentedName).slice? ⟨"Ré", none⟩ =
      some ⟨["header", "a: inputs.Ré.B;"]⟩ := by decide +kernel
  refine ⟨⟨_, hkind, "a: enums.Kind.A;", by decide, Or.inr ?_⟩,
    ⟨_, haccented, "a: inputs.Ré.B;", by decide, Or.inl ?_⟩⟩
  · exact ⟨"a: ".toList, "A;".toList, by decide, by simp [isTokenChar]⟩
  · exact ⟨"a: ".toList, "B;".toList, by decide, by simp [isTokenChar]⟩

end Unbundle.Declaration
