import Unbundle.Proofs.Declaration.Independence

/-! Two streams one behind the other. When the first ends outside of its blocks and the second opens
no module that the first has, reading both on one go gives what reading each alone gives: a capture
of the second behind the first is all the time the capture of the second alone with the modules and
the issues of the first added and the lines counted on. -/

namespace Unbundle.Declaration
open Std (ExtTreeMap)

/-- The kind of an issue behind some lines more. -/
def IssueKind.later (lines : Nat) : IssueKind → IssueKind
  | .unclosed => .unclosed
  | .reopened line => .reopened (lines + line)

def Issue.later (lines : Nat) (issue : Issue) : Issue :=
  { issue with kind := issue.kind.later lines }

namespace Capture

/-- The capture behind what an earlier one has taken. -/
def behind (capture earlier : Capture) : Capture :=
  { capture with
    modules := earlier.modules ∪ capture.modules
    issues := earlier.issues ++ capture.issues.map (Issue.later earlier.line)
    line := earlier.line + capture.line }

section Behind
variable {capture earlier : Capture} {block : ModuleBlock} {inner : Inner} {name line : String}
  {lines : List String}

theorem counted_behind : (capture.behind earlier).counted = capture.counted.behind earlier := rfl

theorem note_behind (scope : Scope) (kind : IssueKind) :
    (capture.behind earlier).note scope (kind.later earlier.line) =
      (capture.note scope kind).behind earlier := by
  simp [note, behind, Issue.later]

theorem abandon_behind : (capture.behind earlier).abandon block inner =
    (capture.abandon block inner).behind earlier := by
  cases inner with
  | version version => exact note_behind ⟨block.name, some version.name⟩ .unclosed
  | body => rfl
  | repeated => rfl

theorem abandonModule_behind : (capture.behind earlier).abandonModule block inner =
    (capture.abandonModule block inner).behind earlier := by
  rw [abandonModule, abandon_behind]
  exact note_behind ⟨block.name, none⟩ .unclosed

theorem settled_behind : (capture.behind earlier).settled = capture.settled.behind earlier := by
  have hplace : (capture.behind earlier).place = capture.place := rfl
  unfold settled
  rw [hplace]
  cases capture.place with
  | inside block inner => exact abandonModule_behind
  | outside => rfl
  | repeated => rfl

theorem keepModule_behind : (capture.behind earlier).keepModule block =
    (capture.keepModule block).behind earlier := by
  have hmodules : earlier.modules ∪ capture.modules.insert block.name block.slices =
      (earlier.modules ∪ capture.modules).insert block.name block.slices :=
    @ExtTreeMap.union_insert_right_eq_insert_union _ _ _ _ _ _ ⟨block.name, block.slices⟩
  simp only [keepModule, behind, hmodules]

theorem closed_behind : (capture.behind earlier).closed = capture.closed.behind earlier := by
  have hplace : (capture.behind earlier).place = capture.place := rfl
  unfold closed
  rw [hplace]
  cases capture.place with
  | inside block inner =>
    simp only
    rw [abandon_behind, keepModule_behind]
  | outside => rfl
  | repeated => rfl

theorem enterModule_behind (hnew : name ∉ earlier.modules) :
    (capture.behind earlier).enterModule name = (capture.enterModule name).behind earlier := by
  have hiff : name ∈ (capture.behind earlier).modules ↔ name ∈ capture.modules :=
    ExtTreeMap.mem_union_iff.trans (or_iff_right hnew)
  by_cases hmem : name ∈ capture.modules
  · rw [enterModule_of_mem hmem, enterModule_of_mem (hiff.2 hmem)]
    have hnote := @note_behind capture earlier ⟨name, none⟩ (.reopened capture.line)
    exact congrArg (fun noted : Capture => { noted with place := .repeated }) hnote
  · rw [enterModule_of_notMem hmem, enterModule_of_notMem (mt hiff.1 hmem)]
    rfl

theorem enterVersion_behind : (capture.behind earlier).enterVersion block name =
    (capture.enterVersion block name).behind earlier := by
  by_cases hmem : name ∈ block.slices.versions
  · rw [enterVersion_of_mem hmem, enterVersion_of_mem hmem]
    have hnote := @note_behind capture earlier ⟨block.name, some name⟩ (.reopened capture.line)
    exact congrArg (fun noted : Capture => { noted with place := .inside block .repeated }) hnote
  · rw [enterVersion_of_notMem hmem, enterVersion_of_notMem hmem]
    rfl

theorem within_behind : (capture.behind earlier).within block inner line =
    (capture.within block inner line).behind earlier := by
  have hopens : (capture.behind earlier).opensVersion? line = capture.opensVersion? line := rfl
  cases inner with
  | body =>
    simp only [within, hopens]
    split
    · exact enterVersion_behind
    · rfl
  | version version =>
    simp only [within]
    split <;> rfl
  | repeated =>
    simp only [within]
    split <;> rfl

theorem take_behind (hnew : ∀ name ∈ earlier.modules, ¬ OpensModule line name) :
    (capture.behind earlier).take line = (capture.take line).behind earlier := by
  rcases take_cases capture line with
    ⟨name, hopens, h⟩ | ⟨rfl, h⟩ | ⟨block, inner, hp, hends, h⟩ | ⟨hp, hends, h⟩
  · have hname : name ∉ earlier.modules := fun hmem =>
      hnew name hmem (moduleOpened?_eq_some.1 hopens)
    rw [h, take_of_moduleOpened? _ hopens, counted_behind, settled_behind,
      enterModule_behind hname]
  · rw [h, take_moduleClose, counted_behind, closed_behind]
  · have hp' : (capture.behind earlier).place = .inside block inner := hp
    rw [h, take_inside hp' hends, counted_behind, within_behind]
  · have hp' : ∀ block inner, (capture.behind earlier).place ≠ .inside block inner := hp
    rw [h, take_outside hp' hends, counted_behind]

theorem takeAll_behind (hnew : ∀ line ∈ lines, ∀ name ∈ earlier.modules, ¬ OpensModule line name) :
    (capture.behind earlier).takeAll lines = (capture.takeAll lines).behind earlier := by
  induction lines generalizing capture with
  | nil => rfl
  | cons line lines ih =>
    obtain ⟨hline, hlines⟩ := List.forall_mem_cons.1 hnew
    rw [takeAll_cons, takeAll_cons, take_behind hline, ih hlines]

theorem eq_initial_behind (hp : capture.place = .outside) :
    capture = (initial capture.direction capture.options).behind capture := by
  have hmodules : capture.modules ∪ ∅ = capture.modules :=
    ExtTreeMap.ext_getElem? fun name => by simp [ExtTreeMap.getElem?_union]
  obtain ⟨direction, options, place, modules, issues, line⟩ := capture
  obtain rfl : place = .outside := hp
  simp only [behind, initial, hmodules, List.map_nil, List.append_nil, Nat.add_zero]

end Behind

end Capture

/-- A stream that ends outside of its blocks, followed by one that opens none of its modules: read
together they give the modules of both, which have no name in common, and the issues of both, those
of the second with the lines of the first counted in. -/
theorem ofLines_append (direction : Direction) (options : Options) (lines more : List String)
    (houtside : ((Capture.initial direction options).takeAll lines).place = .outside)
    (hnew : ∀ line ∈ more, ∀ name ∈ ((Capture.initial direction options).takeAll lines).modules,
      ¬ OpensModule line name) :
    let first := Stream.ofLines direction options lines
    let second := Stream.ofLines direction options more
    let whole := Stream.ofLines direction options (lines ++ more)
    (∀ name ∈ first.modules, name ∉ second.modules) ∧
    whole.modules = first.modules ∪ second.modules ∧
    whole.issues = first.issues ++ second.issues.map (Issue.later lines.length) := by
  intro first second whole
  let earlier := (Capture.initial direction options).takeAll lines
  let alone := (Capture.initial direction options).takeAll more
  have hgrows : (Capture.initial direction options).Grows earlier := Capture.grows_takeAll _ lines
  have hline : earlier.line = lines.length := (Capture.line_takeAll _ _).trans (Nat.zero_add _)
  have hstart : earlier = (Capture.initial direction options).behind earlier := by
    have h := Capture.eq_initial_behind houtside
    rwa [hgrows.direction, hgrows.options] at h
  have hrun : (Capture.initial direction options).takeAll (lines ++ more) =
      alone.behind earlier := by
    rw [Capture.takeAll_append]
    exact (congrArg (Capture.takeAll · more) hstart).trans (Capture.takeAll_behind hnew)
  have hfirst : first = ⟨earlier.direction, earlier.modules, earlier.issues⟩ := by
    have hsettled : earlier.settled = earlier := by simp [Capture.settled, earlier, houtside]
    simp only [first, Capture.ofLines_eq, Capture.stream_eq]
    rw [hsettled]
  have hwhole : whole = ⟨alone.settled.direction, (alone.settled.behind earlier).modules,
      (alone.settled.behind earlier).issues⟩ := by
    simp only [whole, Capture.ofLines_eq, Capture.stream_eq, hrun, Capture.settled_behind]
    rfl
  refine ⟨fun name hname => ?_, ?_, ?_⟩
  · rw [hfirst] at hname
    have hopens : ∀ line ∈ more, moduleOpened? line ≠ some name := fun line hl h =>
      hnew line hl name hname (moduleOpened?_eq_some.1 h)
    simp only [second, Capture.modules_ofLines]
    exact ((Capture.untouched_initial direction options).takeAll hopens).notMem
  · rw [hwhole, hfirst]
    rfl
  · rw [hwhole, hfirst, ← hline]
    rfl

def closedModule : List String := ["import", "export namespace Foo \x7b", "    a: 1;", "\x7d"]

/-- A module that is opened again, and one that is not closed. -/
def damagedModules : List String :=
  ["export namespace Bar \x7b", "\x7d", "export namespace Bar \x7b", "\x7d",
    "export namespace Baz \x7b"]

theorem ofLines_append_damagedModules :
    let first := Stream.ofLines .inputs ⟨"header", true⟩ closedModule
    let whole := Stream.ofLines .inputs ⟨"header", true⟩ (closedModule ++ damagedModules)
    ((Capture.initial .inputs ⟨"header", true⟩).takeAll closedModule).place = .outside ∧
    "Foo" ∈ first.modules ∧ whole.modules["Foo"]? = first.modules["Foo"]? ∧
    "Bar" ∈ whole.modules ∧
    whole.issues = [⟨⟨"Bar", none⟩, .inputs, .reopened 7⟩, ⟨⟨"Baz", none⟩, .inputs, .unclosed⟩] := by
  intro first whole
  have houtside : ((Capture.initial .inputs ⟨"header", true⟩).takeAll closedModule).place =
      .outside := rfl
  have hnew : ∀ line ∈ damagedModules,
      ∀ name ∈ ((Capture.initial .inputs ⟨"header", true⟩).takeAll closedModule).modules,
        ¬ OpensModule line name := by
    intro line hline name hmem hopens
    have hall : ∀ line ∈ damagedModules, ((moduleOpened? line).all fun name =>
        !((Capture.initial .inputs ⟨"header", true⟩).takeAll closedModule).modules.contains name) =
          true := by decide +kernel
    have hnone := hall line hline
    rw [moduleOpened?_eq_some.2 hopens, Option.all_some, ExtTreeMap.contains_iff_mem.2 hmem] at hnone
    cases hnone
  obtain ⟨hapart, hmodules, hissues⟩ :=
    ofLines_append .inputs ⟨"header", true⟩ closedModule damagedModules houtside hnew
  have hfoo : "Foo" ∈ first.modules := by decide +kernel
  have hbar : "Bar" ∈ (Stream.ofLines .inputs ⟨"header", true⟩ damagedModules).modules := by
    decide +kernel
  refine ⟨houtside, hfoo, ?_, ?_, hissues.trans (by decide +kernel)⟩
  · rw [hmodules]
    exact ExtTreeMap.getElem?_union_of_not_mem_right (hapart "Foo" hfoo)
  · rw [hmodules]
    exact ExtTreeMap.mem_union_of_right hbar

end Unbundle.Declaration
