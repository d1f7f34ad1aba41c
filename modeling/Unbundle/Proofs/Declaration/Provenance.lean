import Mathlib.Tactic.Choose
import Unbundle.Proofs.Declaration.Positions
import Unbundle.Proofs.Declaration.Spans

/-! Where the lines of a slice come from. Whatever the stream, a slice consists of the lines of its
own block and of no others. What is open is described by the positions it was read from, and every
line keeps that description true; when a module is closed it holds of the module for good. -/

namespace Unbundle.Declaration
open Std (ExtTreeMap)

namespace Source

/-- The slice of a version that has been closed, in the module opened at `first`. -/
structure KeptVersion (source : Source) (first n : Nat) (module name : String) (slice : Slice) :
    Prop where
  eq : slice = source.gathered first n ⟨module, some name⟩
  span : ∃ k l, first < k ∧ l < n ∧ VersionSpan source.lines name k l ∧
    ∀ p ∈ source.positions first n ⟨module, some name⟩, k < p ∧ p < l

/-- A version that is open, in the module opened at `first`. -/
structure OpenVersion (source : Source) (first n : Nat) (block : ModuleBlock)
    (version : VersionBlock) : Prop where
  eq : version.slice = source.gathered first n ⟨block.name, some version.name⟩
  isNew : version.name ∉ block.slices.versions
  opens : ∃ k line, first < k ∧ k < n ∧ source.lines[k]? = some line ∧
    OpensVersion line version.name ∧
    (∀ m line, k < m → m < n → source.lines[m]? = some line → line ≠ versionClose) ∧
    ∀ p ∈ source.positions first n ⟨block.name, some version.name⟩, k < p

/-- The block of a module from the line `first` up to the position `n`, which may lie inside it. -/
structure BlockFrom (source : Source) (first n : Nat) (name : String) : Prop where
  opens : ∃ line, source.lines[first]? = some line ∧ OpensModule line name
  ascends : first < n
  stays : ∀ k line, first < k → k < n → source.lines[k]? = some line → StaysInModule line

/-- A module opened at `first`, with what was read of it before the position `n`. -/
structure Entry (source : Source) (first n : Nat) (block : ModuleBlock) : Prop
    extends BlockFrom source first n block.name where
  own : block.slices.own = source.gathered first n ⟨block.name, none⟩
  versions : ∀ name slice, block.slices.versions[name]? = some slice →
    source.KeptVersion first n block.name name slice

/-- A module that is still open. Nothing is read yet for a version that is neither kept nor open. -/
structure Reading (source : Source) (first n : Nat) (block : ModuleBlock) (inner : Inner) :
    Prop extends Entry source first n block where
  current : ∀ version, inner = .version version → source.OpenVersion first n block version
  unread : ∀ name, name ∉ block.slices.versions →
    (∀ version, inner = .version version → version.name ≠ name) →
    source.positions first n ⟨block.name, some name⟩ = []

section Advance
variable {source : Source} {first n : Nat} {block block' : ModuleBlock} {inner inner' : Inner}
  {line : String}

theorem KeptVersion.succ {module name : String} {slice : Slice}
    (h : source.KeptVersion first n module name slice)
    (hscope : source.scopeAt? n ≠ some ⟨module, some name⟩) :
    source.KeptVersion first (n + 1) module name slice := by
  obtain ⟨heq, k, l, hfirst, hlast, hspan, hp⟩ := h
  refine ⟨heq.trans (gathered_succ_of_ne hscope).symm, k, l, hfirst, by omega, hspan, ?_⟩
  rwa [positions_succ_of_ne hscope]

theorem BlockFrom.succ {name : String} (h : source.BlockFrom first n name)
    (hline : source.lines[n]? = some line) (hstays : StaysInModule line) :
    source.BlockFrom first (n + 1) name where
  opens := h.opens
  ascends := Nat.lt_succ_of_lt h.ascends
  stays := by
    intro k line' hfirst hlast hk
    rcases Nat.lt_succ_iff_lt_or_eq.1 hlast with hlt | rfl
    · exact h.stays k line' hfirst hlt hk
    · rw [hline] at hk
      exact Option.some.inj hk ▸ hstays

theorem BlockFrom.span {name : String} (h : source.BlockFrom first n name)
    (hline : source.lines[n]? = some moduleClose) : ModuleSpan source.lines name first n :=
  ⟨h.opens, hline, h.ascends, h.stays⟩

theorem Entry.succ (h : source.Entry first n block) (hline : source.lines[n]? = some line)
    (hstays : StaysInModule line) (hown : source.scopeAt? n ≠ some ⟨block.name, none⟩)
    (hversions : ∀ name ∈ block.slices.versions,
      source.scopeAt? n ≠ some ⟨block.name, some name⟩) :
    source.Entry first (n + 1) block where
  toBlockFrom := h.toBlockFrom.succ hline hstays
  own := h.own.trans (gathered_succ_of_ne hown).symm
  versions := by
    intro name slice hslice
    have hmem := ExtTreeMap.mem_iff_isSome_getElem?.2 (Option.isSome_of_eq_some hslice)
    exact (h.versions name slice hslice).succ (hversions name hmem)

theorem Reading.pass (h : source.Reading first n block inner)
    (houter : ∀ version, inner ≠ .version version)
    (houter' : ∀ version, inner' ≠ .version version) (hline : source.lines[n]? = some line)
    (hstays : StaysInModule line) (hscope : source.scopeAt? n = none) :
    source.Reading first (n + 1) block inner' where
  toEntry := h.toEntry.succ hline hstays (by simp [hscope]) (by simp [hscope])
  current := fun version hv => absurd hv (houter' version)
  unread := by
    intro name hnew _
    rw [positions_succ_of_ne (by simp [hscope])]
    exact h.unread name hnew fun version hv => absurd hv (houter version)

theorem Reading.plain (h : source.Reading first n block .body)
    (hline : source.lines[n]? = some line) (hstays : StaysInModule line)
    (hscope : source.scopeAt? n = some ⟨block.name, none⟩) :
    source.Reading first (n + 1)
      (block.push (Reference.localize ⟨block.name, none⟩ source.direction line)) .body where
  toBlockFrom := h.toBlockFrom.succ hline hstays
  own := by
    have hown := gathered_succ_of_eq h.ascends hscope hline
    rw [← h.own] at hown
    exact hown.symm
  versions := fun name slice hslice => (h.versions name slice hslice).succ (by simp [hscope])
  current := nofun
  unread := by
    intro name hnew _
    have hne : source.scopeAt? n ≠ some ⟨block.name, some name⟩ := by simp [hscope]
    exact (positions_succ_of_ne hne).trans (h.unread name hnew nofun)

theorem Reading.enter (h : source.Reading first n block .body) {name : String}
    (hopens : OpensVersion line name) (hnew : name ∉ block.slices.versions)
    (hline : source.lines[n]? = some line) (hstays : StaysInModule line)
    (hscope : source.scopeAt? n = none) :
    source.Reading first (n + 1) block
      (.version ⟨name, .ofHeader source.options.header⟩) := by
  have hnil : source.positions first (n + 1) ⟨block.name, some name⟩ = [] := by
    rw [positions_succ_of_ne (by simp [hscope])]
    exact h.unread name hnew fun _ hv => nomatch hv
  refine ⟨h.toEntry.succ hline hstays (by simp [hscope]) (by simp [hscope]), ?_, ?_⟩
  · rintro version ⟨⟩
    refine ⟨(gathered_of_nil hnil).symm, hnew, n, line, h.ascends, Nat.lt_succ_self n, hline,
      hopens, fun m _ hk hm => ?_, fun p hp => ?_⟩
    · omega
    · rw [hnil] at hp
      cases hp
  · intro name' hnew' _
    rw [positions_succ_of_ne (by simp [hscope])]
    exact h.unread name' hnew' fun _ hv => nomatch hv

theorem Reading.copy {version : VersionBlock} (h : source.Reading first n block (.version version))
    (hclose : line ≠ versionClose) (hline : source.lines[n]? = some line)
    (hstays : StaysInModule line)
    (hscope : source.scopeAt? n = some ⟨block.name, some version.name⟩) :
    source.Reading first (n + 1) block (.version (version.push
      (Reference.localize ⟨block.name, some version.name⟩ source.direction line))) := by
  obtain ⟨heq, hnew, k, opener, hfirst, hk, hopener, hopens, hinside, hp⟩ := h.current version rfl
  refine ⟨h.toEntry.succ hline hstays (by simp [hscope]) ?_, ?_, ?_⟩
  · rintro name hmem hname
    rw [hscope] at hname
    cases hname
    exact hnew hmem
  · rintro _ ⟨⟩
    refine ⟨?_, hnew, k, opener, hfirst, Nat.lt_succ_of_lt hk, hopener, hopens, ?_, ?_⟩
    · have hgathered := gathered_succ_of_eq h.ascends hscope hline
      rw [← heq] at hgathered
      exact hgathered.symm
    · intro m line' hm hlast hl
      rcases Nat.lt_succ_iff_lt_or_eq.1 hlast with hlt | rfl
      · exact hinside m line' hm hlt hl
      · rw [hline] at hl
        exact Option.some.inj hl ▸ hclose
    · intro p hmem
      have hsucc := positions_succ_of_eq h.ascends hscope
      rcases List.mem_append.1 (hsucc ▸ hmem) with hmem | hmem
      · exact hp p hmem
      · rw [List.mem_singleton.1 hmem]
        exact hk
  · intro name hname hother
    have hne := hother _ rfl
    change version.name ≠ name at hne
    rw [positions_succ_of_ne (by simp [hscope, hne])]
    refine h.unread name hname fun version' hv => ?_
    cases hv
    exact hne

theorem Reading.keep {version : VersionBlock} (h : source.Reading first n block (.version version))
    (hclose : line = versionClose) (hline : source.lines[n]? = some line)
    (hstays : StaysInModule line) (hscope : source.scopeAt? n = none) :
    source.Reading first (n + 1) (block.keep version) .body := by
  obtain ⟨heq, hnew, k, opener, hfirst, hk, hopener, hopens, hinside, hp⟩ := h.current version rfl
  have hentry := h.toEntry.succ hline hstays (by simp [hscope]) (by simp [hscope])
  have hsame : ∀ name, source.positions first (n + 1) ⟨block.name, some name⟩ =
      source.positions first n ⟨block.name, some name⟩ :=
    fun name => positions_succ_of_ne (by simp [hscope])
  have hkept : source.KeptVersion first (n + 1) block.name version.name version.slice := by
    refine ⟨heq.trans (gathered_succ_of_ne (by simp [hscope])).symm, k, n, hfirst,
      Nat.lt_succ_self n, ⟨⟨opener, hopener, hopens⟩, hclose ▸ hline, hk, hinside⟩, ?_⟩
    intro p hmem
    rw [hsame] at hmem
    exact ⟨hp p hmem, (mem_positions.1 hmem).1⟩
  refine ⟨⟨hentry.toBlockFrom, hentry.own, fun name slice hslice => ?_⟩, nofun, ?_⟩
  · by_cases hname : version.name = name
    · subst hname
      rw [ModuleBlock.keep, ExtTreeMap.getElem?_insert_self] at hslice
      exact Option.some.inj hslice ▸ hkept
    · refine hentry.versions name slice ?_
      simpa [ModuleBlock.keep, ExtTreeMap.getElem?_insert, hname] using hslice
  · intro name hname _
    simp only [ModuleBlock.keep, ExtTreeMap.mem_insert, Std.LawfulEqOrd.compare_eq_iff_eq,
      not_or] at hname
    refine (hsame name).trans (h.unread name hname.2 fun version' hv => ?_)
    cases hv
    exact hname.1

theorem Reading.moves {scope : Option Scope} (h : source.Reading first n block inner)
    (hmoves : (source.upTo n).Moves line block inner scope block' inner')
    (hline : source.lines[n]? = some line) (hstays : StaysInModule line)
    (hscope : source.scopeAt? n = scope) : source.Reading first (n + 1) block' inner' := by
  cases hmoves with
  | plain => exact direction_upTo source n ▸ h.plain hline hstays hscope
  | enter name hopens hnew =>
    exact options_upTo source n ▸ h.enter hopens hnew hline hstays hscope
  | copy version hclose =>
    exact direction_upTo source n ▸ h.copy hclose hline hstays hscope
  | keep version hclose => exact h.keep hclose hline hstays hscope
  | pass _ _ houter houter' => exact h.pass houter houter' hline hstays hscope

theorem reading_opener {name : String} (hline : source.lines[n]? = some line)
    (hopens : OpensModule line name) :
    source.Reading n (n + 1) ⟨name, { own := .ofHeader source.options.header }⟩ .body where
  opens := ⟨line, hline, hopens⟩
  ascends := Nat.lt_succ_self n
  stays := by
    intro k _ hfirst hlast _
    omega
  own := (gathered_of_nil positions_self).symm
  versions := by simp
  current := nofun
  unread := fun _ _ _ => positions_self

end Advance

/-- Where what the capture holds in front of the position `n` was read. -/
structure Traced (source : Source) (n : Nat) : Prop where
  reading : ∀ block inner, (source.upTo n).place = .inside block inner →
    ∃ first, source.Reading first n block inner
  kept : ∀ name slices, (source.upTo n).modules[name]? = some slices →
    ∃ first last, ModuleSpan source.lines name first last ∧ source.Entry first last ⟨name, slices⟩

section Run
variable {source : Source} {n : Nat} {line : String}

theorem traced_zero : source.Traced 0 where
  reading := fun _ _ hp => nomatch hp
  kept := by simp [upTo_zero, Capture.initial]

theorem scopeAt?_eq (hline : source.lines[n]? = some line) :
    source.scopeAt? n = (source.upTo n).scope? line := by
  simp [scopeAt?, hline]

theorem Traced.succ (h : source.Traced n) (hline : source.lines[n]? = some line) :
    source.Traced (n + 1) where
  reading := by
    intro block inner hp
    rw [upTo_succ hline] at hp
    rcases Capture.place_take hp with ⟨hopens, -, hblock, rfl⟩ | ⟨hends, block', inner', hp', -⟩
    · rw [hblock, options_upTo]
      exact ⟨n, reading_opener hline (moduleOpened?_eq_some.1 hopens)⟩
    · obtain ⟨first, hreading⟩ := h.reading block' inner' hp'
      obtain ⟨_, _, hplace, hmoves⟩ := Capture.moves_take hp' hends
      rw [hp] at hplace
      cases hplace
      exact ⟨first, hreading.moves hmoves hline (endsModule_eq_false_iff.1 hends)
        (scopeAt?_eq hline)⟩
  kept := by
    intro name slices hslices
    rw [upTo_succ hline] at hslices
    rcases Capture.modules_take (source.upTo n) line with hm | ⟨rfl, block, inner, hp, hm⟩
    · exact h.kept name slices (hm ▸ hslices)
    · by_cases hname : block.name = name
      · subst hname
        rw [hm, ExtTreeMap.getElem?_insert_self] at hslices
        obtain rfl := Option.some.inj hslices
        obtain ⟨first, hreading⟩ := h.reading block inner hp
        exact ⟨first, n, hreading.span hline, hreading.toEntry⟩
      · refine h.kept name slices ?_
        simpa [hm, ExtTreeMap.getElem?_insert, hname] using hslices

theorem traced {n : Nat} (hn : n ≤ source.lines.length) : source.Traced n := by
  induction n with
  | zero => exact traced_zero
  | succ n ih => exact (ih (Nat.le_of_succ_le hn)).succ (List.getElem?_eq_getElem hn)

end Run

/-- Every slice is copied from positions of its own: those of a module lie in one block of that
module, and those of a version in one block of that version inside it. -/
theorem exists_positions (source : Source) : ∃ positions : Scope → List Nat,
    (∀ scope, (positions scope).Pairwise (· < ·)) ∧
    (∀ scope scope', scope ≠ scope' → ∀ p ∈ positions scope, p ∉ positions scope') ∧
    ∀ name slices,
      (Stream.ofLines source.direction source.options source.lines).modules[name]? = some slices →
      ∃ first last, ModuleSpan source.lines name first last ∧
        slices.own.lines = source.copies ⟨name, none⟩ (positions ⟨name, none⟩) ∧
        (∀ p ∈ positions ⟨name, none⟩, first < p ∧ p < last) ∧
        ∀ version slice, slices.versions[version]? = some slice →
          slice.lines = source.copies ⟨name, some version⟩ (positions ⟨name, some version⟩) ∧
          ∃ k l, first < k ∧ l < last ∧ VersionSpan source.lines version k l ∧
            ∀ p ∈ positions ⟨name, some version⟩, k < p ∧ p < l := by
  have hkept : ∀ name, ∃ first last, ∀ slices,
      (Stream.ofLines source.direction source.options source.lines).modules[name]? = some slices →
      ModuleSpan source.lines name first last ∧ source.Entry first last ⟨name, slices⟩ := by
    intro name
    rw [Capture.modules_ofLines, ← upTo_length]
    cases hm : (source.upTo source.lines.length).modules[name]? with
    | none => exact ⟨0, 0, nofun⟩
    | some slices =>
      obtain ⟨first, last, h⟩ := (traced (Nat.le_refl _)).kept name slices hm
      refine ⟨first, last, ?_⟩
      rintro _ ⟨⟩
      exact h
  choose first last hentry using hkept
  refine ⟨fun scope => source.positions (first scope.module) (last scope.module) scope,
    fun scope => sorted_positions, fun scope scope' hne => disjoint_positions hne, ?_⟩
  intro name slices hslices
  obtain ⟨hspan, h⟩ := hentry name slices hslices
  refine ⟨first name, last name, hspan, congrArg Slice.lines h.own, ?_, ?_⟩
  · intro p hp
    obtain ⟨hlast, hfirst, -⟩ := mem_positions.1 hp
    exact ⟨hfirst, hlast⟩
  · intro version slice hslice
    obtain ⟨heq, hversion⟩ := h.versions version slice hslice
    exact ⟨congrArg Slice.lines heq, hversion⟩

end Source

end Unbundle.Declaration
