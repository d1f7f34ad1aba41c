import Unbundle.Proofs.Declaration.Independence
import Unbundle.Proofs.Declaration.Positions

/-! What was captured first is kept for good. A module is put among the modules, and a version among
those of its module, by plain insertion, which would take the place of an earlier one. It never
does: a block is entered under a name that is not taken yet, and nothing takes the name while the
block is open. Issues are only added to. -/

namespace Unbundle.Declaration
open Std (ExtTreeMap)

namespace Capture

/-- An open version has not been captured before in its module. -/
def FreshVersion (capture : Capture) : Prop :=
  ∀ block version, capture.place = .inside block (.version version) →
    version.name ∉ block.slices.versions

section Steps
variable {capture : Capture} {line : String} {lines : List String} {block block' : ModuleBlock}
  {inner inner' : Inner} {scope : Option Scope}

theorem freshVersion_initial (direction : Direction) (options : Options) :
    FreshVersion (initial direction options) := fun _ _ hp => nomatch hp

theorem Moves.notMem_versions {version : VersionBlock}
    (h : Moves capture line block inner scope block' (.version version))
    (hfresh : ∀ version, inner = .version version → version.name ∉ block.slices.versions) :
    version.name ∉ block'.slices.versions := by
  cases h with
  | enter name _ isNew => exact isNew
  | copy version _ => exact hfresh version rfl
  | pass _ _ _ outer' => exact absurd rfl (outer' version)

theorem Moves.getElem?_versions (h : Moves capture line block inner scope block' inner')
    (hfresh : ∀ version, inner = .version version → version.name ∉ block.slices.versions)
    {name : String} {slice : Slice} (hslice : block.slices.versions[name]? = some slice) :
    block'.slices.versions[name]? = some slice := by
  cases h with
  | plain => exact hslice
  | enter => exact hslice
  | copy => exact hslice
  | pass => exact hslice
  | keep version _ =>
    have hne : version.name ≠ name := by
      rintro rfl
      exact hfresh version rfl
        (ExtTreeMap.mem_iff_isSome_getElem?.2 (Option.isSome_of_eq_some hslice))
    simpa [ModuleBlock.keep, ExtTreeMap.getElem?_insert, hne] using hslice

theorem Moves.name_eq (h : Moves capture line block inner scope block' inner') :
    block'.name = block.name := by
  cases h <;> rfl

theorem FreshVersion.take (h : FreshVersion capture) (line : String) :
    FreshVersion (capture.take line) := by
  intro block version hp
  rcases place_take hp with ⟨-, -, -, hinner⟩ | ⟨hends, block', inner', hp', -⟩
  · cases hinner
  · obtain ⟨next, nextInner, hnext, hmoves⟩ := moves_take hp' hends
    rw [hp] at hnext
    cases hnext
    exact hmoves.notMem_versions fun version hv => h block' version (hv ▸ hp')

theorem FreshVersion.takeAll (h : FreshVersion capture) (lines : List String) :
    FreshVersion (capture.takeAll lines) := by
  induction lines generalizing capture with
  | nil => exact h
  | cons line lines ih => exact ih (h.take line)

theorem FreshVersion.exists_inside (h : FreshVersion capture)
    (hp : capture.place = .inside block inner) (hstays : ∀ line ∈ lines, endsModule line = false) :
    ∃ block' inner', (capture.takeAll lines).place = .inside block' inner' ∧
      block'.name = block.name ∧
      ∀ (name : String) (slice : Slice), block.slices.versions[name]? = some slice →
        block'.slices.versions[name]? = some slice := by
  induction lines generalizing capture block inner with
  | nil => exact ⟨block, inner, hp, rfl, fun _ _ hslice => hslice⟩
  | cons line lines ih =>
    obtain ⟨hline, hlines⟩ := List.forall_mem_cons.1 hstays
    obtain ⟨next, nextInner, hnext, hmoves⟩ := moves_take hp hline
    have hversions : ∀ (name : String) (slice : Slice),
        block.slices.versions[name]? = some slice → next.slices.versions[name]? = some slice := by
      intro name slice hslice
      exact hmoves.getElem?_versions (fun version hv => h block version (hv ▸ hp)) hslice
    obtain ⟨block', inner', hlast, hname, hversions'⟩ := ih (h.take line) hnext hlines
    exact ⟨block', inner', hlast, hname.trans hmoves.name_eq,
      fun name slice hslice => hversions' name slice (hversions name slice hslice)⟩

end Steps

end Capture

/-- Nothing that was captured is taken back. Whatever lines follow, the modules captured so far stay
with all their slices and the issues noted so far stay in front; a module that is open has a name of
its own, and so has a version that is open in it; and as long as no line ends the module it keeps
its versions as they are, up to the line that closes it and puts them among the modules. -/
theorem kept_for_good (direction : Direction) (options : Options) (lines more : List String) :
    let before := (Capture.initial direction options).takeAll lines
    let after := (Capture.initial direction options).takeAll (lines ++ more)
    (∀ (name : String) (slices : ModuleSlices), before.modules[name]? = some slices →
      after.modules[name]? = some slices) ∧
    before.issues <+: after.issues ∧
    ∀ block inner, before.place = .inside block inner →
      block.name ∉ before.modules ∧
      (∀ version, inner = .version version → version.name ∉ block.slices.versions) ∧
      ((∀ line ∈ more, StaysInModule line) → ∃ block' inner',
        after.place = .inside block' inner' ∧ block'.name = block.name ∧
        (∀ (name : String) (slice : Slice), block.slices.versions[name]? = some slice →
          block'.slices.versions[name]? = some slice) ∧
        (after.take moduleClose).modules[block.name]? = some block'.slices) := by
  intro before after
  have hafter : after = before.takeAll more := Capture.takeAll_append _ lines more
  have hfresh : before.Fresh := (Capture.fresh_initial direction options).takeAll lines
  have hversion : before.FreshVersion :=
    (Capture.freshVersion_initial direction options).takeAll lines
  rw [hafter]
  refine ⟨fun name slices hslices => ?_, (Capture.grows_takeAll before more).issues,
    fun block inner hp => ⟨hfresh block inner hp, fun version hv => ?_, fun hstays => ?_⟩⟩
  · have hmem := ExtTreeMap.mem_iff_isSome_getElem?.2 (Option.isSome_of_eq_some hslices)
    exact (Capture.getElem?_takeAll_of_mem hfresh hmem).trans hslices
  · exact hversion block version (hv ▸ hp)
  · obtain ⟨block', inner', hlast, hname, hversions⟩ := hversion.exists_inside hp
      fun line hline => endsModule_eq_false_iff.2 (hstays line hline)
    exact ⟨block', inner', hlast, hname, hversions, hname ▸ Capture.getElem?_take_moduleClose hlast⟩

/-- A module, and another one up to the end of its first version. -/
def firstVersionClosed : List String :=
  ["export namespace Bar \x7b", "\x7d", "export namespace Foo \x7b", "    export namespace v1 \x7b",
    "        a: 1;", "    \x7d"]

def versionAgain : List String :=
  ["    export namespace v1 \x7b", "        b: 2;", "    \x7d"]

theorem kept_for_good_versionAgain :
    let before := (Capture.initial .inputs ⟨"header", true⟩).takeAll firstVersionClosed
    let after := (Capture.initial .inputs ⟨"header", true⟩).takeAll
      (firstVersionClosed ++ versionAgain)
    (∃ slices, before.modules["Bar"]? = some slices ∧ after.modules["Bar"]? = some slices) ∧
    ∃ block inner, before.place = .inside block inner ∧
      block.slices.versions["v1"]? = some ⟨["header", "    a: 1;"]⟩ ∧
      (∀ line ∈ versionAgain, StaysInModule line) ∧
      ∃ slices, (after.take moduleClose).modules["Foo"]? = some slices ∧
        slices.versions["v1"]? = some ⟨["header", "    a: 1;"]⟩ := by
  intro before after
  obtain ⟨hmodules, -, hopen⟩ :=
    kept_for_good .inputs ⟨"header", true⟩ firstVersionClosed versionAgain
  have hbar : (before.modules["Bar"]?).isSome := by decide +kernel
  obtain ⟨bar, hbar⟩ := Option.isSome_iff_exists.1 hbar
  have hplace : ∃ block inner, before.place = .inside block inner ∧ block.name = "Foo" ∧
      block.slices.versions["v1"]? = some ⟨["header", "    a: 1;"]⟩ :=
    ⟨_, _, rfl, rfl, by decide +kernel⟩
  obtain ⟨block, inner, hp, hname, hv1⟩ := hplace
  have hstays : ∀ line ∈ versionAgain, StaysInModule line := fun line hline =>
    endsModule_eq_false_iff.1 (by revert line; decide)
  obtain ⟨-, -, hrest⟩ := hopen block inner hp
  obtain ⟨block', inner', -, -, hversions, hclosed⟩ := hrest hstays
  exact ⟨⟨bar, hbar, hmodules "Bar" bar hbar⟩, block, inner, hp, hv1, hstays, block'.slices,
    hname ▸ hclosed, hversions "v1" _ hv1⟩

end Unbundle.Declaration
