import Mathlib.Algebra.BigOperators.Group.List.Basic
import Mathlib.Algebra.GroupWithZero.Nat
import Unbundle.Proofs.Declaration.Independence
import Unbundle.Proofs.Declaration.Provenance

/-! The same stream read with its versions split off and with its versions inline. The two captures
stand in the same module all the time, since a line that ends a module does so inside a version as
well, and so they keep the same modules and note the same issues about modules. An undamaged module
loses no line by the split: every version takes its own lines and the two that enclose them out of
the slice of the module. -/

namespace Unbundle.Declaration
open Std (ExtTreeMap)

theorem sum_toList_insert {β : Type} {map : ExtTreeMap String β} {key : String} {value : β}
    (f : String × β → Nat) (h : key ∉ map) :
    ((map.insert key value).toList.map f).sum = f (key, value) + (map.toList.map f).sum := by
  have nodup : ∀ map : ExtTreeMap String β, map.toList.Nodup := fun map =>
    map.distinct_keys_toList.imp fun {a b} hne heq => by
      subst heq
      exact hne Std.ReflCmp.compare_self
  have hnew : (key, value) ∉ map.toList := fun hmem =>
    h (ExtTreeMap.mem_iff_isSome_getElem?.2
      (Option.isSome_of_eq_some (ExtTreeMap.mem_toList_iff_getElem?_eq_some.1 hmem)))
  have hperm : (map.insert key value).toList.Perm ((key, value) :: map.toList) := by
    refine (List.perm_ext_iff_of_nodup (nodup _) (List.nodup_cons.2 ⟨hnew, nodup map⟩)).2 ?_
    rintro ⟨k, v⟩
    rw [List.mem_cons, ExtTreeMap.mem_toList_iff_getElem?_eq_some,
      ExtTreeMap.mem_toList_iff_getElem?_eq_some, ExtTreeMap.getElem?_insert]
    by_cases hk : key = k
    · subst hk
      have hnone : map[key]? = none := by simpa using h
      simp [hnone, eq_comm]
    · simp [hk, Ne.symm hk]
  simpa using (hperm.map f).sum_eq

/-- The number of lines that the slice of a module has when its versions are inline. A version adds
the lines below its header and the two that enclose them. -/
def ModuleSlices.inlineLength (slices : ModuleSlices) : Nat :=
  slices.own.lines.length + (slices.versions.toList.map fun v => v.2.lines.length + 1).sum

theorem inlineLength_ofHeader (header : String) :
    ModuleSlices.inlineLength { own := .ofHeader header } = 1 := by
  have hnil : (∅ : ExtTreeMap String Slice).toList = [] := ExtTreeMap.toList_eq_nil_iff.2 rfl
  simp [ModuleSlices.inlineLength, Slice.ofHeader, hnil]

theorem inlineLength_push (block : ModuleBlock) (line : String) :
    (block.push line).slices.inlineLength = block.slices.inlineLength + 1 := by
  simp only [ModuleSlices.inlineLength, ModuleBlock.push, Slice.push, List.length_append,
    List.length_singleton]
  omega

theorem inlineLength_keep {block : ModuleBlock} {version : VersionBlock}
    (h : version.name ∉ block.slices.versions) :
    (block.keep version).slices.inlineLength =
      block.slices.inlineLength + version.slice.lines.length + 1 := by
  simp only [ModuleSlices.inlineLength, ModuleBlock.keep,
    sum_toList_insert (fun v => v.2.lines.length + 1) h]
  omega

/-- How long the slice of an open module is when its versions are inline. No version is passed over
as repeated, and the lines of an open version are those it has so far, with the one that opened it
in place of the header. -/
inductive Counted (slices : ModuleSlices) (n : Nat) : Inner → Prop where
  | body (length : n = slices.inlineLength) : Counted slices n .body
  | version (version : VersionBlock) (isNew : version.name ∉ slices.versions)
      (length : n = slices.inlineLength + version.slice.lines.length) :
      Counted slices n (.version version)

/-- The two captures stand in the same place, up to versions. The count holds for a module that is
not damaged. -/
inductive SamePlace (split : Capture) : Place → Place → Prop where
  | outside : SamePlace split .outside .outside
  | repeated : SamePlace split .repeated .repeated
  | inside (block whole : ModuleBlock) (inner : Inner) (name : whole.name = block.name)
      (versions : whole.slices.versions = ∅)
      (counted : ¬ split.Reports block.name →
        Counted block.slices whole.slices.own.lines.length inner) :
      SamePlace split (.inside block inner) (.inside whole .body)

/-- A capture that splits versions off, and one of the same stream that does not. -/
structure Inlines (split whole : Capture) : Prop where
  direction : whole.direction = split.direction
  header : whole.options.header = split.options.header
  noSplit : whole.options.splitVersions = false
  line : whole.line = split.line
  place : SamePlace split split.place whole.place
  keys : ∀ name, name ∈ whole.modules ↔ name ∈ split.modules
  versions : ∀ (name : String) (slices : ModuleSlices), whole.modules[name]? = some slices →
    slices.versions = ∅
  issues : whole.issues = split.issues.filter fun issue => issue.scope.version.isNone
  counted : ∀ (name : String) (slices slices' : ModuleSlices), split.modules[name]? = some slices →
    whole.modules[name]? = some slices' → ¬ split.Reports name →
    slices'.own.lines.length = slices.inlineLength

section Steps
variable {split split' whole : Capture} {place place' : Place} {line : String}

theorem SamePlace.mono (h : SamePlace split place place') (hgrows : split.Grows split') :
    SamePlace split' place place' := by
  cases h with
  | outside => exact .outside
  | repeated => exact .repeated
  | inside block whole inner name versions counted =>
    exact .inside block whole inner name versions fun hclean =>
      counted fun h => hclean (h.mono hgrows)

theorem Inlines.counts (h : Inlines split whole) : Inlines split.counted whole.counted :=
  ⟨h.direction, h.header, h.noSplit, congrArg (· + 1) h.line,
    h.place.mono ⟨rfl, rfl, List.prefix_refl _⟩, h.keys, h.versions, h.issues, h.counted⟩

theorem Inlines.place_cases (h : Inlines split whole) :
    (split.place = .outside ∧ whole.place = .outside) ∨
    (split.place = .repeated ∧ whole.place = .repeated) ∨
    ∃ block inner block', split.place = .inside block inner ∧ whole.place = .inside block' .body ∧
      block'.name = block.name ∧ block'.slices.versions = ∅ ∧
      (¬ split.Reports block.name →
        Counted block.slices block'.slices.own.lines.length inner) := by
  have hplace := h.place
  generalize split.place = place at hplace ⊢
  generalize whole.place = place' at hplace ⊢
  cases hplace with
  | outside => exact Or.inl ⟨rfl, rfl⟩
  | repeated => exact Or.inr (Or.inl ⟨rfl, rfl⟩)
  | inside block block' inner hname hversions hcounted =>
    exact Or.inr (Or.inr ⟨block, inner, block', rfl, rfl, hname, hversions, hcounted⟩)

theorem Inlines.noteVersion (h : Inlines split whole) (module version : String)
    (kind : IssueKind) : Inlines (split.note ⟨module, some version⟩ kind) whole where
  direction := h.direction
  header := h.header
  noSplit := h.noSplit
  line := h.line
  place := h.place.mono (Capture.grows_note _ _ _)
  keys := h.keys
  versions := h.versions
  issues := by simpa [Capture.note, List.filter_append] using h.issues
  counted := fun name slices slices' hs hw hclean =>
    h.counted name slices slices' hs hw fun hr => hclean (hr.mono (Capture.grows_note _ _ _))

theorem Inlines.note (h : Inlines split whole) (module : String) (kind : IssueKind) :
    Inlines (split.note ⟨module, none⟩ kind) (whole.note ⟨module, none⟩ kind) where
  direction := h.direction
  header := h.header
  noSplit := h.noSplit
  line := h.line
  place := h.place.mono (Capture.grows_note _ _ _)
  keys := h.keys
  versions := h.versions
  issues := by simp [Capture.note, List.filter_append, h.issues, h.direction]
  counted := fun name slices slices' hs hw hclean =>
    h.counted name slices slices' hs hw fun hr => hclean (hr.mono (Capture.grows_note _ _ _))

theorem Inlines.abandon (h : Inlines split whole) (block : ModuleBlock) (inner : Inner) :
    Inlines (split.abandon block inner) whole := by
  cases inner with
  | version version => exact h.noteVersion block.name version.name .unclosed
  | body => exact h
  | repeated => exact h

theorem Inlines.settled (h : Inlines split whole) : Inlines split.settled whole.settled := by
  unfold Capture.settled
  rcases h.place_cases with ⟨hs, hw⟩ | ⟨hs, hw⟩ | ⟨block, inner, block', hs, hw, hname, -⟩
  · rw [hs, hw]
    exact h
  · rw [hs, hw]
    exact h
  · rw [hs, hw]
    simp only [Capture.abandonModule, hname]
    exact (h.abandon block inner).note block.name .unclosed

theorem Inlines.goes (h : Inlines split whole) (hplace : SamePlace split place place') :
    Inlines { split with place } { whole with place := place' } :=
  ⟨h.direction, h.header, h.noSplit, h.line, hplace.mono ⟨rfl, rfl, List.prefix_refl _⟩, h.keys,
    h.versions, h.issues, h.counted⟩

theorem Inlines.enterModule (h : Inlines split whole) (name : String) :
    Inlines (split.enterModule name) (whole.enterModule name) := by
  by_cases hmem : name ∈ split.modules
  · rw [Capture.enterModule_of_mem hmem, Capture.enterModule_of_mem ((h.keys name).2 hmem), h.line]
    exact (h.note name _).goes .repeated
  · rw [Capture.enterModule_of_notMem hmem,
      Capture.enterModule_of_notMem fun hw => hmem ((h.keys name).1 hw)]
    refine h.goes (.inside _ _ .body rfl rfl fun _ => ?_)
    exact .body (inlineLength_ofHeader split.options.header).symm

theorem Inlines.keepModule (h : Inlines split whole) {block block' : ModuleBlock}
    (hname : block'.name = block.name) (hversions : block'.slices.versions = ∅)
    (hcounted : ¬ split.Reports block.name →
      block'.slices.own.lines.length = block.slices.inlineLength) :
    Inlines (split.keepModule block) (whole.keepModule block') where
  direction := h.direction
  header := h.header
  noSplit := h.noSplit
  line := h.line
  place := .outside
  keys := fun name => by
    simp only [Capture.keepModule, ExtTreeMap.mem_insert, hname, h.keys name]
  versions := by
    intro name slices hw
    simp only [Capture.keepModule, ExtTreeMap.getElem?_insert, Std.compare_eq_iff_eq] at hw
    split at hw
    · exact Option.some.inj hw ▸ hversions
    · exact h.versions name slices hw
  issues := h.issues
  counted := by
    intro name slices slices' hs hw hclean
    simp only [Capture.keepModule, ExtTreeMap.getElem?_insert, Std.compare_eq_iff_eq,
      hname] at hs hw
    split at hs
    · next heq =>
      rw [if_pos heq] at hw
      obtain rfl := Option.some.inj hs
      obtain rfl := Option.some.inj hw
      exact hcounted (heq ▸ hclean)
    · next hne =>
      rw [if_neg hne] at hw
      exact h.counted name slices slices' hs hw hclean

/-- A module that is closed inside a version is damaged, and so is one in which a version is passed
over, so the count has to hold only where no version is open. -/
theorem Counted.eq_inlineLength {block : ModuleBlock} {inner : Inner} {n : Nat}
    (h : ¬ split.Reports block.name → Counted block.slices n inner)
    (hclean : ¬ (split.abandon block inner).Reports block.name) :
    n = block.slices.inlineLength := by
  cases h fun hr => hclean (hr.mono (Capture.grows_abandon _ _ _)) with
  | body hlength => exact hlength
  | version version isNew hlength =>
    exact absurd (Capture.reports_note _ ⟨block.name, some version.name⟩ .unclosed) hclean

theorem Inlines.closed (h : Inlines split whole) : Inlines split.closed whole.closed := by
  unfold Capture.closed
  rcases h.place_cases with
    ⟨hs, hw⟩ | ⟨hs, hw⟩ | ⟨block, inner, block', hs, hw, hname, hversions, hcounted⟩
  · rw [hs, hw]
    exact h.goes .outside
  · rw [hs, hw]
    exact h.goes .outside
  · rw [hs, hw]
    exact (h.abandon block inner).keepModule hname hversions (Counted.eq_inlineLength hcounted)

/-- A line that an open module copies when its versions are inline, while the split capture stays in
that module with the count of one more line. -/
theorem Inlines.copies (h : Inlines split whole) {block block' : ModuleBlock}
    (hname : block'.name = block.name) (hversions : block'.slices.versions = ∅) (line : String)
    (next : ModuleBlock) (inner : Inner) (hnext : next.name = block.name)
    (hcounted : ¬ split.Reports block.name →
      Counted next.slices (block'.slices.own.lines.length + 1) inner) :
    Inlines { split with place := .inside next inner }
      { whole with place := .inside (block'.push line) .body } := by
  refine h.goes (.inside _ _ _ (hname.trans hnext.symm) hversions ?_)
  rw [hnext]
  simpa [ModuleBlock.push, Slice.push] using hcounted

theorem Inlines.within_body (h : Inlines split whole) {block block' : ModuleBlock}
    (hname : block'.name = block.name) (hversions : block'.slices.versions = ∅)
    (hcounted : ¬ split.Reports block.name →
      Counted block.slices block'.slices.own.lines.length .body) (line copied : String) :
    Inlines (split.within block .body line)
      { whole with place := .inside (block'.push copied) .body } := by
  have hlength : ¬ split.Reports block.name →
      block'.slices.own.lines.length = block.slices.inlineLength := by
    intro hclean
    cases hcounted hclean with
    | body hlength => exact hlength
  simp only [Capture.within]
  split
  · next version _ =>
    by_cases hmem : version ∈ block.slices.versions
    · rw [Capture.enterVersion_of_mem hmem]
      refine (h.noteVersion block.name version (.reopened split.line)).copies hname hversions _
        block .repeated rfl fun hclean => ?_
      exact absurd (Capture.reports_note _ ⟨block.name, some version⟩ (.reopened _)) hclean
    · rw [Capture.enterVersion_of_notMem hmem]
      refine h.copies hname hversions _ block _ rfl fun hclean => .version _ hmem ?_
      rw [hlength hclean]
      rfl
  · refine h.copies hname hversions _ (block.push _) .body rfl fun hclean => .body ?_
    rw [hlength hclean, inlineLength_push]

theorem Inlines.within_version (h : Inlines split whole) {block block' : ModuleBlock}
    {version : VersionBlock} (hname : block'.name = block.name)
    (hversions : block'.slices.versions = ∅)
    (hcounted : ¬ split.Reports block.name →
      Counted block.slices block'.slices.own.lines.length (.version version))
    (line copied : String) :
    Inlines (split.within block (.version version) line)
      { whole with place := .inside (block'.push copied) .body } := by
  have hlength : ¬ split.Reports block.name → version.name ∉ block.slices.versions ∧
      block'.slices.own.lines.length =
        block.slices.inlineLength + version.slice.lines.length := by
    intro hclean
    cases hcounted hclean with
    | version _ isNew hlength => exact ⟨isNew, hlength⟩
  simp only [Capture.within]
  split
  · refine h.copies hname hversions _ (block.keep version) .body rfl fun hclean => .body ?_
    rw [(hlength hclean).2, inlineLength_keep (hlength hclean).1]
  · refine h.copies hname hversions _ block _ rfl fun hclean =>
      .version _ (hlength hclean).1 ?_
    simp [(hlength hclean).2, VersionBlock.push, Slice.push, Nat.add_assoc]

/-- What is copied while a version is passed over need not be counted, since the module is damaged.
-/
theorem Inlines.within_repeated (h : Inlines split whole) {block block' : ModuleBlock}
    (hname : block'.name = block.name) (hversions : block'.slices.versions = ∅)
    (hcounted : ¬ split.Reports block.name →
      Counted block.slices block'.slices.own.lines.length .repeated)
    (hs : split.place = .inside block .repeated) (line copied : String) :
    Inlines (split.within block .repeated line)
      { whole with place := .inside (block'.push copied) .body } := by
  have hreports : split.Reports block.name := by
    by_contra hclean
    cases hcounted hclean
  simp only [Capture.within]
  split
  · exact h.copies hname hversions _ block .body rfl fun hclean => absurd hreports hclean
  · have hcopies := h.copies hname hversions copied block .repeated rfl
      fun hclean => absurd hreports hclean
    rw [← hs] at hcopies
    exact hcopies

/-- With versions inline the module copies the line, whatever the split capture does with it. -/
theorem Inlines.within (h : Inlines split whole) {block block' : ModuleBlock} {inner : Inner}
    (hname : block'.name = block.name) (hversions : block'.slices.versions = ∅)
    (hcounted : ¬ split.Reports block.name →
      Counted block.slices block'.slices.own.lines.length inner)
    (hs : split.place = .inside block inner) (line : String) :
    Inlines (split.within block inner line) (whole.within block' .body line) := by
  have hnone : whole.opensVersion? line = none := by simp [Capture.opensVersion?, h.noSplit]
  have hwhole : whole.within block' .body line =
      { whole with place := .inside (block'.push
        (Reference.localize ⟨block'.name, none⟩ whole.direction line)) .body } := by
    simp only [Capture.within, hnone]
  rw [hwhole]
  cases inner with
  | body => exact h.within_body hname hversions hcounted line _
  | version version => exact h.within_version hname hversions hcounted line _
  | repeated => exact h.within_repeated hname hversions hcounted hs line _

theorem Inlines.take (h : Inlines split whole) (line : String) :
    Inlines (split.take line) (whole.take line) := by
  cases hends : endsModule line with
  | true =>
    rcases endsModule_iff.1 hends with rfl | ⟨name, hopens⟩
    · rw [Capture.take_moduleClose, Capture.take_moduleClose]
      exact h.counts.closed
    · rw [Capture.take_of_moduleOpened? split hopens, Capture.take_of_moduleOpened? whole hopens]
      exact h.counts.settled.enterModule name
  | false =>
    rcases h.place_cases with
      ⟨hs, hw⟩ | ⟨hs, hw⟩ | ⟨block, inner, block', hs, hw, hname, hversions, hcounted⟩
    · rw [Capture.take_outside (by simp [hs]) hends, Capture.take_outside (by simp [hw]) hends]
      exact h.counts
    · rw [Capture.take_outside (by simp [hs]) hends, Capture.take_outside (by simp [hw]) hends]
      exact h.counts
    · rw [Capture.take_inside hs hends, Capture.take_inside hw hends]
      exact h.counts.within hname hversions hcounted hs line

theorem Inlines.takeAll (h : Inlines split whole) (lines : List String) :
    Inlines (split.takeAll lines) (whole.takeAll lines) := by
  induction lines generalizing split whole with
  | nil => exact h
  | cons line lines ih => exact ih (h.take line)

end Steps

theorem inlines_initial (direction : Direction) (header : String) :
    Inlines (.initial direction ⟨header, true⟩) (.initial direction ⟨header, false⟩) where
  direction := rfl
  header := rfl
  noSplit := rfl
  line := rfl
  place := .outside
  keys := fun _ => Iff.rfl
  versions := by simp [Capture.initial]
  issues := rfl
  counted := by simp [Capture.initial]

theorem exists_own_eq {direction : Direction} {options : Options} {lines : List String}
    {name : String} {slices : ModuleSlices}
    (h : (Stream.ofLines direction options lines).modules[name]? = some slices) :
    ∃ below, slices.own.lines = options.header :: below := by
  let source : Source := ⟨direction, options, lines⟩
  rw [Capture.modules_ofLines] at h
  have hkept : (source.upTo source.lines.length).modules[name]? = some slices := by
    rwa [Source.upTo_length]
  obtain ⟨_, _, -, hentry⟩ := (Source.traced (Nat.le_refl _)).kept name slices hkept
  exact ⟨_, congrArg Slice.lines hentry.own⟩

/-- A stream gives the same modules and the same issues about modules whether versions are split off
or not. Inline it gives no slices of versions and no issues about them; and an undamaged module has
all its lines inline, those of its versions with the two lines that enclose each. -/
theorem split_agrees_with_inline (direction : Direction) (header : String) (lines : List String) :
    let split := Stream.ofLines direction ⟨header, true⟩ lines
    let whole := Stream.ofLines direction ⟨header, false⟩ lines
    (∀ name, name ∈ whole.modules ↔ name ∈ split.modules) ∧
    whole.issues.filter (·.scope.version.isNone) = split.issues.filter (·.scope.version.isNone) ∧
    (∀ issue ∈ whole.issues, issue.scope.version = none) ∧
    (∀ (name : String) (slices : ModuleSlices), whole.modules[name]? = some slices →
      slices.versions = ∅) ∧
    ∀ (name : String) (slices slices' : ModuleSlices), split.issuesOf name = [] →
      split.modules[name]? = some slices → whole.modules[name]? = some slices' →
      ∃ below below', slices.own.lines = header :: below ∧ slices'.own.lines = header :: below' ∧
        below'.length =
          below.length + (slices.versions.toList.map fun v => v.2.lines.length + 1).sum := by
  intro split whole
  have hrun := ((inlines_initial direction header).takeAll lines).settled
  have hissues : whole.issues = split.issues.filter (·.scope.version.isNone) := by
    simpa only [split, whole, Capture.ofLines_eq, Capture.stream_eq] using hrun.issues
  refine ⟨fun name => ?_, ?_, ?_, ?_, ?_⟩
  · simpa only [split, whole, Capture.modules_ofLines, Capture.modules_settled] using hrun.keys name
  · rw [hissues, List.filter_filter]
    simp only [Bool.and_self]
  · intro issue hmem
    rw [hissues] at hmem
    exact Option.isNone_iff_eq_none.1 (List.mem_filter.1 hmem).2
  · simpa only [split, whole, Capture.modules_ofLines, Capture.modules_settled] using hrun.versions
  · intro name slices slices' hclean hs hw
    obtain ⟨below, hbelow⟩ := exists_own_eq hs
    obtain ⟨below', hbelow'⟩ := exists_own_eq hw
    have hlength := hrun.counted name slices slices'
      (by simpa only [split, Capture.modules_ofLines, Capture.modules_settled] using hs)
      (by simpa only [whole, Capture.modules_ofLines, Capture.modules_settled] using hw)
      (not_reports_settled hclean)
    refine ⟨below, below', hbelow, hbelow', ?_⟩
    simp only [ModuleSlices.inlineLength, hbelow, hbelow', List.length_cons] at hlength
    omega

def versionedBeforeUnclosed : List String :=
  ["export namespace Foo \x7b", "    a: string;", "    export namespace v1 \x7b", "        b: string;",
    "    \x7d", "\x7d", "export namespace Bar \x7b"]

theorem split_agrees_with_inline_versioned :
    (Stream.ofLines .inputs ⟨"header", true⟩ versionedBeforeUnclosed).issuesOf "Foo" = [] ∧
    ∃ slices slices',
      (Stream.ofLines .inputs ⟨"header", true⟩ versionedBeforeUnclosed).modules["Foo"]? =
        some slices ∧
      (Stream.ofLines .inputs ⟨"header", false⟩ versionedBeforeUnclosed).modules["Foo"]? =
        some slices' ∧
      slices.versions.toList.map (fun v => (v.1, v.2.lines)) =
        [("v1", ["header", "    b: string;"])] ∧
      slices'.own.lines.length = slices.own.lines.length +
        (slices.versions.toList.map fun v => v.2.lines.length + 1).sum := by
  have hclean : (Stream.ofLines .inputs ⟨"header", true⟩ versionedBeforeUnclosed).issuesOf "Foo" =
      [] := by decide +kernel
  have hversions : ((Stream.ofLines .inputs ⟨"header", true⟩ versionedBeforeUnclosed).modules["Foo"]?
      ).map (fun slices => slices.versions.toList.map fun v => (v.1, v.2.lines)) =
        some [("v1", ["header", "    b: string;"])] := by decide +kernel
  have hw : ((Stream.ofLines .inputs ⟨"header", false⟩ versionedBeforeUnclosed).modules["Foo"]?
      ).isSome := by decide +kernel
  obtain ⟨slices, hs, hversions⟩ := Option.map_eq_some_iff.1 hversions
  obtain ⟨slices', hw⟩ := Option.isSome_iff_exists.1 hw
  obtain ⟨-, -, -, -, hlength⟩ := split_agrees_with_inline .inputs "header" versionedBeforeUnclosed
  obtain ⟨below, below', hbelow, hbelow', heq⟩ := hlength "Foo" slices slices' hclean hs hw
  refine ⟨hclean, slices, slices', hs, hw, hversions, ?_⟩
  rw [hbelow, hbelow', List.length_cons, List.length_cons, heq]
  omega

end Unbundle.Declaration
