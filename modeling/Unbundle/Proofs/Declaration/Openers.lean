import Unbundle.Declaration.Opener

/-! The text of the lines that open and close namespaces. A line opens a module or a version exactly
when it is spelled as an opening line with that name, and no line is of two kinds at once. The rest
of the theory can so go through a stream one kind of line at a time. -/

namespace Unbundle.Declaration
open Unbundle.Text

def IsIdentifier : List Char → Prop
  | [] => False
  | c :: s => isIdentifierStart c = true ∧ ∀ d ∈ s, isIdentifierPart d = true

/-- A line that opens the namespace `name`: the name stands between its keyword and a brace, with
nothing but blanks behind the brace. -/
def Opens (keyword line name : String) : Prop :=
  IsIdentifier name.toList ∧ ∃ blanks : List Char, allBlank blanks = true ∧
    line.toList = keyword.toList ++ (name.toList ++ (" \x7b".toList ++ blanks))

def OpensModule (line name : String) : Prop := Opens "export namespace " line name

def OpensVersion (line name : String) : Prop :=
  Opens "    export namespace " line name ∧ name.toList.head? = some 'v'

theorem opensBlock_iff {s : List Char} :
    opensBlock s = true ↔ ∃ blanks, allBlank blanks = true ∧ s = " \x7b".toList ++ blanks := by
  unfold opensBlock
  constructor
  · intro h
    split at h
    · next rest hs => exact ⟨rest, h, after?_eq_some.1 hs⟩
    · cases h
  · rintro ⟨blanks, hb, hs⟩
    rw [after?_eq_some.2 hs]
    exact hb

theorem spanChars_eq_iff {p : Char → Bool} {s first rest : List Char} :
    spanChars p s = (first, rest) ↔
      s = first ++ rest ∧ (∀ c ∈ first, p c = true) ∧ ∀ c ∈ rest.head?, p c = false := by
  induction s generalizing first with
  | nil => simp [spanChars]; grind
  | cons c s ih =>
    simp only [spanChars, Prod.mk.injEq, List.takeWhile_cons, List.dropWhile_cons] at ih ⊢
    cases hc : p c with
    | true =>
      cases first with
      | nil => grind
      | cons d first => grind
    | false => cases first <;> grind

theorem identifier?_eq_some {s name rest : List Char} :
    identifier? s = some (name, rest) ↔ s = name ++ rest ∧ IsIdentifier name ∧
      ∀ c ∈ rest.head?, isIdentifierPart c = false := by
  cases s with
  | nil => cases name <;> simp [identifier?, IsIdentifier]
  | cons c s =>
    cases name with
    | nil => simp only [identifier?, IsIdentifier]; grind
    | cons d name =>
      have hspan := @spanChars_eq_iff isIdentifierPart s name rest
      simp only [identifier?, IsIdentifier]
      grind

theorem identifier?_of_opens {name blanks : List Char} (h : IsIdentifier name) :
    identifier? (name ++ (" \x7b".toList ++ blanks)) = some (name, " \x7b".toList ++ blanks) := by
  refine identifier?_eq_some.2 ⟨rfl, h, ?_⟩
  intro c hc
  obtain rfl : ' ' = c := by simpa using hc
  decide

theorem opened_eq_some {s : List Char} {name : String} :
    ((identifier? s).bind fun read => if opensBlock read.2 then some (String.ofList read.1) else none)
        = some name ↔
      IsIdentifier name.toList ∧ ∃ blanks : List Char, allBlank blanks = true ∧
        s = name.toList ++ (" \x7b".toList ++ blanks) := by
  simp only [Option.bind_eq_some_iff, Prod.exists]
  constructor
  · rintro ⟨chars, rest, hname, hopens⟩
    split at hopens
    · next hb =>
      obtain ⟨blanks, hblanks, rfl⟩ := opensBlock_iff.1 hb
      obtain ⟨rfl, hident, -⟩ := identifier?_eq_some.1 hname
      obtain rfl := Option.some.inj hopens
      rw [String.toList_ofList]
      exact ⟨hident, blanks, hblanks, rfl⟩
    · cases hopens
  · rintro ⟨hident, blanks, hblanks, rfl⟩
    refine ⟨_, _, identifier?_of_opens hident, ?_⟩
    rw [if_pos (opensBlock_iff.2 ⟨blanks, hblanks, rfl⟩), String.ofList_toList]

theorem moduleOpened?_eq_some {line name : String} :
    moduleOpened? line = some name ↔ OpensModule line name := by
  unfold moduleOpened?
  simp only [Option.bind_eq_bind]
  rw [Option.bind_eq_some_iff]
  constructor
  · rintro ⟨rest, hrest, h⟩
    obtain ⟨hident, blanks, hblanks, rfl⟩ := opened_eq_some.1 h
    exact ⟨hident, blanks, hblanks, after?_eq_some.1 hrest⟩
  · rintro ⟨hident, blanks, hblanks, hline⟩
    exact ⟨_, after?_eq_some.2 hline, opened_eq_some.2 ⟨hident, blanks, hblanks, rfl⟩⟩

theorem versionOpened?_eq_some {line name : String} :
    versionOpened? line = some name ↔ OpensVersion line name := by
  unfold versionOpened?
  simp only [Option.bind_eq_bind]
  rw [Option.bind_eq_some_iff]
  constructor
  · rintro ⟨rest, hrest, h⟩
    split at h
    · next tail =>
      obtain ⟨hident, blanks, hblanks, hs⟩ := opened_eq_some.1 h
      refine ⟨⟨hident, blanks, hblanks, hs ▸ after?_eq_some.1 hrest⟩, ?_⟩
      cases hname : name.toList with
      | nil => simp [hname, IsIdentifier] at hident
      | cons c chars =>
        rw [hname] at hs
        obtain ⟨rfl, -⟩ := List.cons.inj hs
        rfl
    · cases h
  · rintro ⟨⟨hident, blanks, hblanks, hline⟩, hv⟩
    refine ⟨_, after?_eq_some.2 hline, ?_⟩
    obtain ⟨chars, hname⟩ := List.head?_eq_some_iff.1 hv
    have h := opened_eq_some.2 ⟨hident, blanks, hblanks, rfl⟩
    rw [hname] at h ⊢
    exact h

theorem moduleOpened?_moduleClose : moduleOpened? moduleClose = none := by decide

theorem moduleOpened?_versionClose : moduleOpened? versionClose = none := by decide

/-- A module opens at column 0 and a version does not. -/
theorem moduleOpened?_of_versionOpened? {line name : String}
    (h : versionOpened? line = some name) : moduleOpened? line = none := by
  obtain ⟨⟨-, blanks, -, hline⟩, -⟩ := versionOpened?_eq_some.1 h
  cases hm : moduleOpened? line with
  | none => rfl
  | some module =>
    obtain ⟨-, blanks', -, hline'⟩ := moduleOpened?_eq_some.1 hm
    simp [hline] at hline'

theorem ne_moduleClose_of_moduleOpened? {line name : String} (h : moduleOpened? line = some name) :
    line ≠ moduleClose := by
  rintro rfl
  rw [moduleOpened?_moduleClose] at h
  cases h

theorem ne_moduleClose_of_versionOpened? {line name : String}
    (h : versionOpened? line = some name) : line ≠ moduleClose := by
  rintro rfl
  have hclose : versionOpened? moduleClose = none := by decide
  rw [hclose] at h
  cases h

/-- A line that a module's block does not go beyond: it closes the module or opens another one. -/
def endsModule (line : String) : Bool := line == moduleClose || (moduleOpened? line).isSome

theorem endsModule_eq_false {line : String} :
    endsModule line = false ↔ line ≠ moduleClose ∧ moduleOpened? line = none := by
  simp [endsModule]

theorem endsModule_iff {line : String} :
    endsModule line = true ↔ line = moduleClose ∨ ∃ name, moduleOpened? line = some name := by
  simp [endsModule, Option.isSome_iff_exists]

def StaysInModule (line : String) : Prop := line ≠ moduleClose ∧ ∀ name, ¬ OpensModule line name

theorem endsModule_eq_false_iff {line : String} :
    endsModule line = false ↔ StaysInModule line := by
  rw [endsModule_eq_false, StaysInModule, Option.eq_none_iff_forall_ne_some]
  simp only [ne_eq, moduleOpened?_eq_some]

end Unbundle.Declaration
