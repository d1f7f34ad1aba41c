import Unbundle.Declaration.Capture
import Unbundle.Proofs.Declaration.Openers

/-! What a capture does with a line, by kind of line. A line that opens a module is taken alike
wherever it is met: what is open is given up first and the module is entered then. So is the line
that closes a module, and any other line matters only inside a module. -/

namespace Unbundle.Declaration
open Std (ExtTreeMap)

namespace Capture

def initial (direction : Direction) (options : Options) : Capture := { direction, options }

def counted (capture : Capture) : Capture := { capture with line := capture.line + 1 }

@[simp] theorem place_counted (capture : Capture) : capture.counted.place = capture.place := rfl

@[simp] theorem modules_counted (capture : Capture) :
    capture.counted.modules = capture.modules := rfl

/-- The capture after what is open was given up, as another module or the end of the stream finds
it. -/
def settled (capture : Capture) : Capture :=
  match capture.place with
  | .inside block inner => capture.abandonModule block inner
  | .outside | .repeated => capture

/-- The capture after the line that closes modules. -/
def closed (capture : Capture) : Capture :=
  match capture.place with
  | .inside block inner => (capture.abandon block inner).keepModule block
  | .outside | .repeated => { capture with place := .outside }

theorem enterModule_of_mem {capture : Capture} {name : String} (h : name ∈ capture.modules) :
    capture.enterModule name =
      { capture.note ⟨name, none⟩ (.reopened capture.line) with place := .repeated } :=
  if_pos (ExtTreeMap.contains_iff_mem.2 h)

theorem enterModule_of_notMem {capture : Capture} {name : String} (h : name ∉ capture.modules) :
    capture.enterModule name =
      { capture with
        place := .inside ⟨name, { own := .ofHeader capture.options.header }⟩ .body } :=
  if_neg (mt ExtTreeMap.contains_iff_mem.1 h)

theorem enterVersion_of_mem {capture : Capture} {block : ModuleBlock} {name : String}
    (h : name ∈ block.slices.versions) :
    capture.enterVersion block name =
      { capture.note ⟨block.name, some name⟩ (.reopened capture.line) with
        place := .inside block .repeated } :=
  if_pos (ExtTreeMap.contains_iff_mem.2 h)

theorem enterVersion_of_notMem {capture : Capture} {block : ModuleBlock} {name : String}
    (h : name ∉ block.slices.versions) :
    capture.enterVersion block name =
      { capture with
        place := .inside block (.version ⟨name, .ofHeader capture.options.header⟩) } :=
  if_neg (mt ExtTreeMap.contains_iff_mem.1 h)

theorem opensVersion?_of_split {capture : Capture} {line name : String}
    (hsplit : capture.options.splitVersions = true) (h : versionOpened? line = some name) :
    capture.opensVersion? line = some name := (if_pos hsplit).trans h

theorem opensVersion_of_opensVersion? {capture : Capture} {line name : String}
    (h : capture.opensVersion? line = some name) : OpensVersion line name := by
  unfold opensVersion? at h
  split at h
  · exact versionOpened?_eq_some.1 h
  · cases h

theorem within_body_of_opensVersion? {capture : Capture} {line name : String}
    (block : ModuleBlock) (h : capture.opensVersion? line = some name) :
    capture.within block .body line = capture.enterVersion block name := by
  simp only [within, h]

theorem take_of_moduleOpened? (capture : Capture) {line name : String}
    (h : moduleOpened? line = some name) :
    capture.take line = capture.counted.settled.enterModule name := by
  have hc := ne_moduleClose_of_moduleOpened? h
  unfold take step counted settled
  cases capture.place <;> simp [h, hc]

theorem take_moduleClose (capture : Capture) : capture.take moduleClose = capture.counted.closed := by
  unfold take step counted closed
  cases hp : capture.place <;> simp [moduleOpened?_moduleClose, ← hp]

theorem take_inside {capture : Capture} {block : ModuleBlock} {inner : Inner} {line : String}
    (hp : capture.place = .inside block inner) (h : endsModule line = false) :
    capture.take line = capture.counted.within block inner line := by
  obtain ⟨hc, ho⟩ := endsModule_eq_false.1 h
  simp [take, step, counted, hp, hc, ho]

theorem take_outside {capture : Capture} {line : String}
    (hp : ∀ block inner, capture.place ≠ .inside block inner) (h : endsModule line = false) :
    capture.take line = capture.counted := by
  obtain ⟨hc, ho⟩ := endsModule_eq_false.1 h
  unfold take step counted
  cases hp' : capture.place with
  | inside block inner => exact absurd hp' (hp block inner)
  | outside => simp [ho]
  | repeated => simp [hc, ho]

/-- Every line is taken in one of these four ways. -/
theorem take_cases (capture : Capture) (line : String) :
    (∃ name, moduleOpened? line = some name ∧
      capture.take line = capture.counted.settled.enterModule name) ∨
    (line = moduleClose ∧ capture.take line = capture.counted.closed) ∨
    (∃ block inner, capture.place = .inside block inner ∧ endsModule line = false ∧
      capture.take line = capture.counted.within block inner line) ∨
    ((∀ block inner, capture.place ≠ .inside block inner) ∧ endsModule line = false ∧
      capture.take line = capture.counted) := by
  cases he : endsModule line with
  | true =>
    rcases endsModule_iff.1 he with rfl | ⟨name, hn⟩
    · exact Or.inr (Or.inl ⟨rfl, take_moduleClose capture⟩)
    · exact Or.inl ⟨name, hn, take_of_moduleOpened? capture hn⟩
  | false =>
    right; right
    by_cases hp : ∃ block inner, capture.place = .inside block inner
    · obtain ⟨block, inner, hp⟩ := hp
      exact Or.inl ⟨block, inner, hp, rfl, take_inside hp he⟩
    · have hp' : ∀ block inner, capture.place ≠ .inside block inner :=
        fun block inner h => hp ⟨block, inner, h⟩
      exact Or.inr ⟨hp', rfl, take_outside hp' he⟩

theorem stream_eq (capture : Capture) :
    capture.stream =
      ⟨capture.settled.direction, capture.settled.modules, capture.settled.issues⟩ := by
  unfold stream settled
  cases capture.place <;> rfl

theorem ofLines_eq (direction : Direction) (options : Options) (lines : List String) :
    Stream.ofLines direction options lines = ((initial direction options).takeAll lines).stream :=
  rfl

@[simp] theorem takeAll_nil (capture : Capture) : capture.takeAll [] = capture := rfl

@[simp] theorem takeAll_cons (capture : Capture) (line : String) (lines : List String) :
    capture.takeAll (line :: lines) = (capture.take line).takeAll lines := rfl

theorem takeAll_append (capture : Capture) (first rest : List String) :
    capture.takeAll (first ++ rest) = (capture.takeAll first).takeAll rest := by
  simp [takeAll, List.foldl_append]

/-! What a line leaves as it was. Nothing changes the direction and the options, the issues are only
added to, and a module is added by the line that closes it and by no other. -/

structure Grows (first last : Capture) : Prop where
  direction : last.direction = first.direction
  options : last.options = first.options
  issues : first.issues <+: last.issues

theorem Grows.refl (capture : Capture) : Grows capture capture := ⟨rfl, rfl, List.prefix_refl _⟩

theorem Grows.trans {a b c : Capture} (h : Grows a b) (h' : Grows b c) : Grows a c :=
  ⟨h'.direction.trans h.direction, h'.options.trans h.options, h.issues.trans h'.issues⟩

theorem grows_note (capture : Capture) (scope : Scope) (kind : IssueKind) :
    Grows capture (capture.note scope kind) := ⟨rfl, rfl, List.prefix_append _ _⟩

theorem grows_abandon (capture : Capture) (block : ModuleBlock) (inner : Inner) :
    Grows capture (capture.abandon block inner) := by
  cases inner with
  | version version => exact grows_note _ _ _
  | body => exact .refl _
  | repeated => exact .refl _

theorem grows_settled (capture : Capture) : Grows capture capture.settled := by
  unfold settled
  split
  · exact (grows_abandon _ _ _).trans (grows_note _ _ _)
  · exact .refl _
  · exact .refl _

theorem grows_closed (capture : Capture) : Grows capture capture.closed := by
  unfold closed
  split
  · next block inner _ =>
    have h := grows_abandon capture block inner
    exact ⟨h.direction, h.options, h.issues⟩
  · exact ⟨rfl, rfl, List.prefix_refl _⟩
  · exact ⟨rfl, rfl, List.prefix_refl _⟩

theorem grows_enterModule (capture : Capture) (name : String) :
    Grows capture (capture.enterModule name) := by
  unfold enterModule
  split
  · exact ⟨rfl, rfl, List.prefix_append _ _⟩
  · exact ⟨rfl, rfl, List.prefix_refl _⟩

theorem grows_within (capture : Capture) (block : ModuleBlock) (inner : Inner) (line : String) :
    Grows capture (capture.within block inner line) := by
  unfold within enterVersion
  repeat' split
  all_goals exact ⟨rfl, rfl, by simp [note]⟩

theorem grows_take (capture : Capture) (line : String) : Grows capture (capture.take line) := by
  have hc : Grows capture capture.counted := ⟨rfl, rfl, List.prefix_refl _⟩
  rcases take_cases capture line with ⟨name, -, h⟩ | ⟨-, h⟩ | ⟨block, inner, -, -, h⟩ | ⟨-, -, h⟩
  · rw [h]; exact hc.trans ((grows_settled _).trans (grows_enterModule _ _))
  · rw [h]; exact hc.trans (grows_closed _)
  · rw [h]; exact hc.trans (grows_within _ _ _ _)
  · rw [h]; exact hc

theorem grows_takeAll (capture : Capture) (lines : List String) :
    Grows capture (capture.takeAll lines) := by
  induction lines generalizing capture with
  | nil => exact .refl _
  | cons line lines ih => exact (grows_take capture line).trans (ih _)

@[simp] theorem modules_settled (capture : Capture) :
    capture.settled.modules = capture.modules := by
  unfold settled abandonModule abandon
  repeat' split
  all_goals rfl

@[simp] theorem modules_enterModule (capture : Capture) (name : String) :
    (capture.enterModule name).modules = capture.modules := by
  unfold enterModule
  split <;> rfl

@[simp] theorem modules_within (capture : Capture) (block : ModuleBlock) (inner : Inner)
    (line : String) : (capture.within block inner line).modules = capture.modules := by
  unfold within enterVersion
  repeat' split
  all_goals rfl

theorem line_settled (capture : Capture) : capture.settled.line = capture.line := by
  unfold settled abandonModule abandon
  repeat' split
  all_goals rfl

theorem line_closed (capture : Capture) : capture.closed.line = capture.line := by
  unfold closed abandon
  repeat' split
  all_goals rfl

theorem line_enterModule (capture : Capture) (name : String) :
    (capture.enterModule name).line = capture.line := by
  unfold enterModule
  split <;> rfl

theorem line_within (capture : Capture) (block : ModuleBlock) (inner : Inner) (line : String) :
    (capture.within block inner line).line = capture.line := by
  unfold within enterVersion
  repeat' split
  all_goals rfl

theorem line_take (capture : Capture) (line : String) :
    (capture.take line).line = capture.line + 1 := by
  rcases take_cases capture line with ⟨name, -, h⟩ | ⟨-, h⟩ | ⟨block, inner, -, -, h⟩ | ⟨-, -, h⟩
  · rw [h, line_enterModule, line_settled]
    rfl
  · rw [h, line_closed]
    rfl
  · rw [h, line_within]
    rfl
  · rw [h]
    rfl

theorem line_takeAll (capture : Capture) (lines : List String) :
    (capture.takeAll lines).line = capture.line + lines.length := by
  induction lines generalizing capture with
  | nil => rfl
  | cons line lines ih =>
    rw [takeAll_cons, ih, line_take, List.length_cons]
    omega

theorem modules_ofLines (direction : Direction) (options : Options) (lines : List String) :
    (Stream.ofLines direction options lines).modules =
      ((initial direction options).takeAll lines).modules := by
  rw [ofLines_eq, stream_eq, modules_settled]

theorem modules_closed (capture : Capture) :
    capture.closed.modules =
      match capture.place with
      | .inside block _ => capture.modules.insert block.name block.slices
      | .outside | .repeated => capture.modules := by
  unfold closed
  cases capture.place with
  | inside block inner => cases inner <;> rfl
  | outside => rfl
  | repeated => rfl

theorem place_closed (capture : Capture) : capture.closed.place = .outside := by
  unfold closed
  split <;> rfl

theorem place_enterModule (capture : Capture) (name : String) :
    (capture.enterModule name).place = .repeated ∨
    (name ∉ capture.modules ∧ (capture.enterModule name).place =
      .inside ⟨name, { own := .ofHeader capture.options.header }⟩ .body) := by
  by_cases h : name ∈ capture.modules
  · exact Or.inl (by rw [enterModule_of_mem h])
  · exact Or.inr ⟨h, by rw [enterModule_of_notMem h]⟩

theorem exists_place_within {capture : Capture} {block : ModuleBlock} {inner : Inner}
    (hp : capture.place = .inside block inner) (line : String) :
    ∃ block' inner', (capture.within block inner line).place = .inside block' inner' ∧
      block'.name = block.name := by
  cases inner with
  | body =>
    simp only [within, enterVersion]
    repeat' split
    all_goals exact ⟨_, _, rfl, rfl⟩
  | version version =>
    simp only [within]
    split <;> exact ⟨_, _, rfl, rfl⟩
  | repeated =>
    simp only [within]
    split
    · exact ⟨_, _, rfl, rfl⟩
    · exact ⟨_, _, hp, rfl⟩

theorem modules_take (capture : Capture) (line : String) :
    (capture.take line).modules = capture.modules ∨
    (line = moduleClose ∧ ∃ block inner, capture.place = .inside block inner ∧
      (capture.take line).modules = capture.modules.insert block.name block.slices) := by
  rcases take_cases capture line with ⟨name, -, h⟩ | ⟨rfl, h⟩ | ⟨block, inner, -, -, h⟩ | ⟨-, -, h⟩
  · exact Or.inl (by simp [h])
  · rw [h, modules_closed]
    cases hp : capture.place with
    | inside block inner => exact Or.inr ⟨rfl, block, inner, rfl, by simp [hp]⟩
    | outside => exact Or.inl (by simp [hp])
    | repeated => exact Or.inl (by simp [hp])
  · exact Or.inl (by simp [h])
  · exact Or.inl (by simp [h])

theorem mem_modules_take {capture : Capture} {name : String} (h : name ∈ capture.modules)
    (line : String) : name ∈ (capture.take line).modules := by
  rcases modules_take capture line with hm | ⟨-, block, inner, -, hm⟩
  · exact hm ▸ h
  · exact hm ▸ ExtTreeMap.mem_insert.2 (Or.inr h)

/-- A module that is open behind a line was opened by it, being new, or was open before. -/
theorem place_take {capture : Capture} {line : String} {block : ModuleBlock} {inner : Inner}
    (h : (capture.take line).place = .inside block inner) :
    (moduleOpened? line = some block.name ∧ block.name ∉ capture.modules ∧
      block = ⟨block.name, { own := .ofHeader capture.options.header }⟩ ∧ inner = .body) ∨
    (endsModule line = false ∧ ∃ block' inner', capture.place = .inside block' inner' ∧
      block'.name = block.name) := by
  rcases take_cases capture line with
    ⟨name, hopens, ht⟩ | ⟨-, ht⟩ | ⟨block', inner', hp, hends, ht⟩ | ⟨hp, -, ht⟩
  · left
    have hoptions : capture.counted.settled.options = capture.options :=
      (grows_settled capture.counted).options
    rcases place_enterModule capture.counted.settled name with hp | ⟨hnew, hp⟩
    · rw [ht, hp] at h
      cases h
    · rw [ht, hp, hoptions] at h
      cases h
      exact ⟨hopens, by simpa using hnew, rfl, rfl⟩
  · rw [ht, place_closed] at h
    cases h
  · right
    have hcounted : capture.counted.place = .inside block' inner' := hp
    obtain ⟨block'', inner'', hw, hname⟩ := exists_place_within hcounted line
    rw [ht, hw] at h
    cases h
    exact ⟨hends, block', inner', hp, hname.symm⟩
  · rw [ht] at h
    exact absurd h (hp block inner)

end Capture

end Unbundle.Declaration
