import Unbundle.Proofs.Declaration.Damage
import Unbundle.Proofs.Declaration.Spans

/-! What damage elsewhere in a stream means for a module without an issue of its own: nothing. Where
a module is entered its name has not been captured, so what came before is not in its slices. Up to
the line that ends its block the place of a capture depends on the lines of the block alone, and
what comes after cannot change a module that has been kept. -/

namespace Unbundle.Declaration
open Std (ExtTreeMap)

namespace Capture

/-- An open module has not been captured before. -/
def Fresh (capture : Capture) : Prop :=
  ∀ block inner, capture.place = .inside block inner → block.name ∉ capture.modules

/-- Nothing of a module has been met. -/
structure Untouched (name : String) (capture : Capture) : Prop where
  notMem : name ∉ capture.modules
  notOpen : ∀ block inner, capture.place = .inside block inner → block.name ≠ name

/-- Equal in all that decides where the next line of a module leads. -/
structure Alike (first second : Capture) : Prop where
  direction : first.direction = second.direction
  options : first.options = second.options
  place : first.place = second.place

section Steps
variable {capture : Capture} {name line : String} {lines : List String}

theorem Fresh.take (h : Fresh capture) (line : String) : Fresh (capture.take line) := by
  intro block inner hp
  rcases place_take hp with ⟨hopens, hnew, -, -⟩ | ⟨hends, block', inner', hp', hname⟩
  · rcases modules_take capture line with hm | ⟨rfl, -⟩
    · exact hm ▸ hnew
    · exact absurd rfl (ne_moduleClose_of_moduleOpened? hopens)
  · rcases modules_take capture line with hm | ⟨rfl, -⟩
    · exact hm ▸ hname ▸ h block' inner' hp'
    · exact absurd rfl (endsModule_eq_false.1 hends).1

theorem Fresh.takeAll (h : Fresh capture) (lines : List String) :
    Fresh (capture.takeAll lines) := by
  induction lines generalizing capture with
  | nil => exact h
  | cons line lines ih => exact ih (h.take line)

theorem getElem?_take_of_mem (hfresh : Fresh capture) (hmem : name ∈ capture.modules)
    (line : String) : (capture.take line).modules[name]? = capture.modules[name]? := by
  rcases modules_take capture line with hm | ⟨-, block, inner, hp, hm⟩
  · rw [hm]
  · have hne : block.name ≠ name := fun h => hfresh block inner hp (h ▸ hmem)
    simp [hm, ExtTreeMap.getElem?_insert, hne]

theorem getElem?_takeAll_of_mem (hfresh : Fresh capture) (hmem : name ∈ capture.modules) :
    (capture.takeAll lines).modules[name]? = capture.modules[name]? := by
  induction lines generalizing capture with
  | nil => rfl
  | cons line lines ih =>
    rw [takeAll_cons, ih (hfresh.take line) (mem_modules_take hmem line),
      getElem?_take_of_mem hfresh hmem]

theorem Untouched.take (h : Untouched name capture) (hopens : moduleOpened? line ≠ some name) :
    Untouched name (capture.take line) where
  notMem := by
    rcases modules_take capture line with hm | ⟨-, block, inner, hp, hm⟩
    · exact hm ▸ h.notMem
    · have hne : block.name ≠ name := h.notOpen block inner hp
      simpa [hm, ExtTreeMap.mem_insert, hne] using h.notMem
  notOpen := by
    intro block inner hp hname
    rcases place_take hp with ⟨hopened, -⟩ | ⟨-, block', inner', hp', hname'⟩
    · exact hopens (hname ▸ hopened)
    · exact h.notOpen block' inner' hp' (hname'.trans hname)

theorem Untouched.takeAll (h : Untouched name capture)
    (hopens : ∀ line ∈ lines, moduleOpened? line ≠ some name) :
    Untouched name (capture.takeAll lines) := by
  induction lines generalizing capture with
  | nil => exact h
  | cons line lines ih =>
    obtain ⟨hline, hlines⟩ := List.forall_mem_cons.1 hopens
    exact ih (h.take hline) hlines

theorem notOpened_of_mem (hfresh : Fresh capture) (hmem : name ∈ capture.modules)
    (hclean : ¬ Reports name (capture.takeAll lines)) :
    ∀ line ∈ lines, moduleOpened? line ≠ some name := by
  induction lines generalizing capture with
  | nil => simp
  | cons line lines ih =>
    have hmem' := mem_modules_take hmem line
    refine List.forall_mem_cons.2 ⟨fun hopens => hclean ?_, ih (hfresh.take line) hmem' hclean⟩
    exact (reports_take_of_mem hmem hopens).mono (grows_takeAll _ lines)

theorem untouched_initial (direction : Direction) (options : Options) :
    Untouched name (initial direction options) :=
  ⟨ExtTreeMap.not_mem_empty, fun _ _ hp => nomatch hp⟩

theorem fresh_initial (direction : Direction) (options : Options) :
    Fresh (initial direction options) := fun _ _ hp => nomatch hp

theorem Untouched.place_take (h : Untouched name capture)
    (hopens : moduleOpened? line = some name) :
    (capture.take line).place =
      .inside ⟨name, { own := .ofHeader capture.options.header }⟩ .body := by
  have hnew : name ∉ capture.counted.settled.modules := by simpa using h.notMem
  have hoptions : capture.counted.settled.options = capture.options :=
    (grows_settled capture.counted).options
  rw [take_of_moduleOpened? capture hopens, enterModule_of_notMem hnew, hoptions]

theorem getElem?_take_moduleClose {block : ModuleBlock} {inner : Inner}
    (hp : capture.place = .inside block inner) :
    (capture.take moduleClose).modules[block.name]? = some block.slices := by
  rw [take_moduleClose, modules_closed, place_counted, hp]
  exact ExtTreeMap.getElem?_insert_self

end Steps

section Alike
variable {first second : Capture} {block : ModuleBlock} {inner : Inner}

theorem Alike.counted (h : Alike first second) : Alike first.counted second.counted :=
  ⟨h.direction, h.options, h.place⟩

theorem Alike.within (h : Alike first second) (line : String) :
    Alike (first.within block inner line) (second.within block inner line) := by
  have hfirst := grows_within first block inner line
  have hsecond := grows_within second block inner line
  refine ⟨by rw [hfirst.direction, hsecond.direction, h.direction],
    by rw [hfirst.options, hsecond.options, h.options], ?_⟩
  cases inner with
  | body =>
    simp only [Capture.within, enterVersion, opensVersion?, h.direction, h.options]
    repeat' split
    all_goals rfl
  | version version =>
    simp only [Capture.within, h.direction]
    split <;> rfl
  | repeated =>
    simp only [Capture.within]
    split
    · rfl
    · exact h.place

theorem Untouched.alike {name line : String} (hfirst : Untouched name first)
    (hsecond : Untouched name second) (hdirection : first.direction = second.direction)
    (hoptions : first.options = second.options) (hopens : moduleOpened? line = some name) :
    Alike (first.take line) (second.take line) where
  direction := by rw [(grows_take first line).direction, (grows_take second line).direction,
    hdirection]
  options := by rw [(grows_take first line).options, (grows_take second line).options, hoptions]
  place := by rw [hfirst.place_take hopens, hsecond.place_take hopens, hoptions]

theorem Alike.takeAll {lines : List String} (h : Alike first second)
    (hp : first.place = .inside block inner) (hstays : ∀ line ∈ lines, endsModule line = false) :
    ∃ block' inner', (first.takeAll lines).place = .inside block' inner' ∧
      (second.takeAll lines).place = .inside block' inner' ∧ block'.name = block.name ∧
      (first.takeAll lines).modules = first.modules := by
  induction lines generalizing first second block inner with
  | nil => exact ⟨block, inner, hp, h.place ▸ hp, rfl, rfl⟩
  | cons line lines ih =>
    obtain ⟨hline, hlines⟩ := List.forall_mem_cons.1 hstays
    have hcounted : first.counted.place = .inside block inner := hp
    obtain ⟨block', inner', hp', hname⟩ := exists_place_within hcounted line
    rw [takeAll_cons, takeAll_cons, take_inside hp hline, take_inside (h.place ▸ hp) hline]
    obtain ⟨block'', inner'', hfirst, hsecond, hname', hmodules⟩ :=
      ih (h.counted.within line) hp' hlines
    exact ⟨block'', inner'', hfirst, hsecond, hname'.trans hname, by simpa using hmodules⟩

theorem exists_place_takeAll {capture : Capture} {lines : List String}
    (hp : capture.place = .inside block inner) (hstays : ∀ line ∈ lines, endsModule line = false) :
    ∃ block' inner', (capture.takeAll lines).place = .inside block' inner' ∧
      block'.name = block.name := by
  have halike : Alike capture capture := ⟨rfl, rfl, rfl⟩
  obtain ⟨block', inner', hp', -, hname, -⟩ := halike.takeAll hp hstays
  exact ⟨block', inner', hp', hname⟩

/-- The block of an open module that is not damaged is closed by the first line that could end it.
-/
theorem exists_close {capture : Capture} {rest : List String}
    (hp : capture.place = .inside block inner)
    (hclean : ¬ (capture.takeAll rest).settled.Reports block.name) :
    ∃ inside after, rest = inside ++ moduleClose :: after ∧
      ∀ line ∈ inside, endsModule line = false := by
  cases hfind : rest.find? endsModule with
  | none =>
    -- the block would be open at the end of the stream
    obtain ⟨block', inner', hp', hname⟩ := exists_place_takeAll hp (by simpa using hfind)
    exact absurd (hname ▸ reports_settled hp') hclean
  | some line =>
    obtain ⟨hends, inside, after, rfl, hstays⟩ := List.find?_eq_some_iff_append.1 hfind
    have hstays : ∀ line ∈ inside, endsModule line = false := by simpa using hstays
    rcases endsModule_iff.1 hends with rfl | ⟨opened, hopens⟩
    · exact ⟨inside, after, rfl, hstays⟩
    · -- another module would find the block open
      obtain ⟨block', inner', hp', hname⟩ := exists_place_takeAll hp hstays
      have hreports := ((reports_take_of_inside hp' hopens).mono
        (grows_takeAll _ after)).mono (grows_settled _)
      rw [takeAll_append, takeAll_cons] at hclean
      exact absurd (hname ▸ hreports) hclean

end Alike

end Capture

section Block
variable {direction : Direction} {options : Options} {lines : List String} {name : String}

theorem issuesOf_eq_nil {stream : Stream} :
    stream.issuesOf name = [] ↔ ∀ issue ∈ stream.issues, issue.scope.module ≠ name := by
  simp [Stream.issuesOf, List.filter_eq_nil_iff]

theorem not_reports_settled
    (h : (Stream.ofLines direction options lines).issuesOf name = []) :
    ¬ ((Capture.initial direction options).takeAll lines).settled.Reports name := by
  rw [Capture.ofLines_eq, Capture.stream_eq, issuesOf_eq_nil] at h
  rintro ⟨issue, hmem, hname⟩
  exact h issue hmem hname

theorem exists_block (hclean : (Stream.ofLines direction options lines).issuesOf name = [])
    {before rest : List String} {opener : String} (hlines : lines = before ++ opener :: rest)
    (hopens : moduleOpened? opener = some name)
    (hbefore : ∀ line ∈ before, moduleOpened? line ≠ some name) :
    ∃ inside after slices, rest = inside ++ moduleClose :: after ∧
      (∀ line ∈ inside, StaysInModule line) ∧
      (∀ line ∈ after, moduleOpened? line ≠ some name) ∧
      (Stream.ofLines direction options lines).modules[name]? = some slices ∧
      (Stream.ofLines direction options (opener :: (inside ++ [moduleClose]))).modules[name]? =
        some slices := by
  let start := Capture.initial direction options
  let met := start.takeAll before
  have hgrows : start.Grows met := Capture.grows_takeAll start before
  have hfresh : start.Fresh := Capture.fresh_initial direction options
  have hstart : start.Untouched name := Capture.untouched_initial direction options
  have hmet : met.Untouched name := hstart.takeAll hbefore
  have halike : (met.take opener).Alike (start.take opener) :=
    hmet.alike hstart hgrows.direction hgrows.options hopens
  have hend := not_reports_settled hclean
  rw [hlines, Capture.takeAll_append, Capture.takeAll_cons] at hend
  have hp := hmet.place_take hopens
  obtain ⟨inside, after, rfl, hstays⟩ := Capture.exists_close hp hend
  obtain ⟨block, inner, hp', hp'', hname, -⟩ := halike.takeAll hp hstays
  have hkept := Capture.getElem?_take_moduleClose hp'
  have hkept' := Capture.getElem?_take_moduleClose hp''
  rw [hname] at hkept hkept'
  have hmem := ExtTreeMap.mem_iff_isSome_getElem?.2 (Option.isSome_of_eq_some hkept)
  have hfresh := (((hfresh.takeAll before).take opener).takeAll inside).take moduleClose
  rw [Capture.takeAll_append, Capture.takeAll_cons] at hend
  refine ⟨inside, after, block.slices, rfl,
    fun line hl => endsModule_eq_false_iff.1 (hstays line hl),
    Capture.notOpened_of_mem hfresh hmem fun h => hend (h.mono (Capture.grows_settled _)), ?_, ?_⟩
  · rw [Capture.modules_ofLines, hlines, Capture.takeAll_append, Capture.takeAll_cons,
      Capture.takeAll_append, Capture.takeAll_cons, Capture.getElem?_takeAll_of_mem hfresh hmem]
    exact hkept
  · rw [Capture.modules_ofLines, Capture.takeAll_cons, Capture.takeAll_append,
      Capture.takeAll_cons, Capture.takeAll_nil]
    exact hkept'

end Block

/-- A module without an issue does not occur in the stream at all, or it has one block there, and
its slices are what reading that block alone gives. -/
theorem independent_of_issuesOf_eq_nil (direction : Direction) (options : Options)
    (lines : List String) (name : String)
    (hclean : (Stream.ofLines direction options lines).issuesOf name = []) :
    ((∀ line ∈ lines, ¬ OpensModule line name) ∧
      name ∉ (Stream.ofLines direction options lines).modules) ∨
    ∃ first last, ModuleSpan lines name first last ∧
      (∀ k line, lines[k]? = some line → OpensModule line name → k = first) ∧
      name ∈ (Stream.ofLines direction options lines).modules ∧
      (Stream.ofLines direction options lines).modules[name]? =
        (Stream.ofLines direction options
          ((lines.drop first).take (last + 1 - first))).modules[name]? := by
  cases hfind : lines.find? fun line => moduleOpened? line == some name with
  | none =>
    have hopens : ∀ line ∈ lines, moduleOpened? line ≠ some name := by simpa using hfind
    refine Or.inl ⟨fun line hl h => hopens line hl (moduleOpened?_eq_some.2 h), ?_⟩
    rw [Capture.modules_ofLines]
    exact ((Capture.untouched_initial direction options).takeAll hopens).notMem
  | some opener =>
    obtain ⟨hopens, before, rest, hlines, hbefore⟩ := List.find?_eq_some_iff_append.1 hfind
    have hopens : moduleOpened? opener = some name := by simpa using hopens
    have hbefore : ∀ line ∈ before, moduleOpened? line ≠ some name := by simpa using hbefore
    obtain ⟨inside, after, slices, rfl, hstays, hafter, hwhole, halone⟩ :=
      exists_block hclean hlines hopens hbefore
    subst hlines
    refine Or.inr ⟨_, _, moduleSpan_append (moduleOpened?_eq_some.1 hopens) hstays,
      fun k line hk hl => ?_, ?_, ?_⟩
    · rcases getElem?_append_cons_cases hk with ⟨-, hmem⟩ | ⟨heq, -⟩ | ⟨-, hk⟩
      · exact absurd (moduleOpened?_eq_some.2 hl) (hbefore line hmem)
      · exact heq
      · rcases List.mem_append.1 (List.mem_of_getElem? hk) with hmem | hmem
        · exact absurd hl ((hstays line hmem).2 name)
        · rcases List.mem_cons.1 hmem with rfl | hmem
          · exact absurd rfl (ne_moduleClose_of_moduleOpened? (moduleOpened?_eq_some.2 hl))
          · exact absurd (moduleOpened?_eq_some.2 hl) (hafter line hmem)
    · exact ExtTreeMap.mem_iff_isSome_getElem?.2 (Option.isSome_of_eq_some hwhole)
    · rw [hwhole, take_drop_append, halone]

/-- The module `Foo` behind one that is never closed. -/
def unclosedBefore : List String :=
  ["export namespace Bar \x7b", "    b: 1;", "export namespace Foo \x7b", "    a: 1;", "\x7d"]

theorem independent_of_unclosedBefore :
    (Stream.ofLines .inputs ⟨"header", true⟩ unclosedBefore).issuesOf "Foo" = [] ∧
    ∃ last, ModuleSpan unclosedBefore "Foo" 2 last ∧
      "Foo" ∈ (Stream.ofLines .inputs ⟨"header", true⟩ unclosedBefore).modules := by
  have hclean : (Stream.ofLines .inputs ⟨"header", true⟩ unclosedBefore).issuesOf "Foo" = [] := by
    decide +kernel
  have hopens : OpensModule "export namespace Foo \x7b" "Foo" := moduleOpened?_eq_some.1 (by decide)
  refine ⟨hclean, ?_⟩
  rcases independent_of_issuesOf_eq_nil .inputs ⟨"header", true⟩ unclosedBefore "Foo" hclean with
    ⟨hnone, -⟩ | ⟨first, last, hspan, honly, hmodule, -⟩
  · exact absurd hopens (hnone _ (by decide))
  · obtain rfl : 2 = first := honly 2 _ rfl hopens
    exact ⟨last, hspan, hmodule⟩

end Unbundle.Declaration
