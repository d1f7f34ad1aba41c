import Mathlib.Data.List.Basic
import Unbundle.Files.Path

/-! The steps of paths that are put together. A name joined to a path adds one step behind the steps
of the path, and a path written down from its steps has these steps again. -/

namespace Unbundle.Files

/-- A name that leads into a directory when it is joined to a path. -/
structure IsName (name : String) : Prop where
  nonempty : name ≠ ""
  notHere : name ≠ "."
  notUp : name ≠ ".."
  noSlash : '/' ∉ name.toList

instance (name : String) : Decidable (IsName name) :=
  decidable_of_iff (name ≠ "" ∧ name ≠ "." ∧ name ≠ ".." ∧ '/' ∉ name.toList)
    ⟨fun ⟨a, b, c, d⟩ => ⟨a, b, c, d⟩, fun ⟨a, b, c, d⟩ => ⟨a, b, c, d⟩⟩

theorem isName_of_isFileName {name : String} (h : isFileName name = true) : IsName name := by
  simp only [isFileName, Bool.and_eq_true, bne_iff_ne, ne_eq, Bool.not_eq_true',
    List.contains_eq_mem, decide_eq_false_iff_not] at h
  exact ⟨h.1.1.1.1.1, h.1.1.1.1.2, h.1.1.1.2, h.1.1.2⟩

/-- A step that a path can be spelled with. -/
def Step.IsPiece : Step → Prop
  | .here | .up => True
  | .into name => IsName name
  | .slash => False

namespace Path

def stepsIn (s : List Char) : List Step :=
  ((pieces s).filter fun piece => !piece.isEmpty).map fun piece => Step.ofName (String.ofList piece)

section Text
variable {a b s : List Char} {name : String} {path : Path}

theorem steps_eq : path.steps = stepsIn path.text.toList := rfl

theorem pieces_ne_nil : pieces s ≠ [] := by
  cases s with
  | nil => simp [pieces]
  | cons c s =>
    simp only [pieces]
    split
    · simp
    · split <;> simp

theorem pieces_append_slash : pieces (a ++ '/' :: b) = pieces a ++ pieces b := by
  induction a with
  | nil => simp [pieces]
  | cons c a ih =>
    simp only [List.cons_append, pieces]
    split
    · rw [ih, List.cons_append]
    · rw [ih]
      obtain ⟨piece, more, hpieces⟩ := List.exists_cons_of_ne_nil (@pieces_ne_nil a)
      rw [hpieces, List.cons_append, List.cons_append]

theorem pieces_of_notMem (h : '/' ∉ s) : pieces s = [s] := by
  induction s with
  | nil => rfl
  | cons c s ih =>
    simp only [List.mem_cons, not_or] at h
    rw [pieces, if_neg (Ne.symm h.1), ih h.2]

theorem mem_of_mem_pieces {piece : List Char} {c : Char} (h : piece ∈ pieces s) (hc : c ∈ piece) :
    c ∈ s ∧ c ≠ '/' := by
  induction s generalizing piece with
  | nil =>
    rw [pieces, List.mem_singleton] at h
    simp [h] at hc
  | cons a s ih =>
    have hrest : c ∈ s ∧ c ≠ '/' → c ∈ a :: s ∧ c ≠ '/' := And.imp_left (List.mem_cons_of_mem _)
    rw [pieces] at h
    split at h
    · rcases List.mem_cons.1 h with rfl | h
      · cases hc
      · exact hrest (ih h hc)
    · next ha =>
      obtain ⟨first, more, hpieces⟩ := List.exists_cons_of_ne_nil (@pieces_ne_nil s)
      rw [hpieces] at h ih
      rcases List.mem_cons.1 h with rfl | h
      · rcases List.mem_cons.1 hc with rfl | hc
        · exact ⟨List.mem_cons_self, ha⟩
        · exact hrest (ih List.mem_cons_self hc)
      · exact hrest (ih (List.mem_cons_of_mem _ h) hc)

theorem stepsIn_append_slash : stepsIn (a ++ '/' :: b) = stepsIn a ++ stepsIn b := by
  simp [stepsIn, pieces_append_slash]

theorem ofName_of_isName (h : IsName name) : Step.ofName name = .into name := by
  simp [Step.ofName, h.notHere, h.notUp]

theorem stepsIn_piece (hne : name ≠ "") (hslash : '/' ∉ name.toList) :
    stepsIn name.toList = [Step.ofName name] := by
  have hne : name.toList ≠ [] := by simpa using hne
  simp [stepsIn, pieces_of_notMem hslash, hne]

theorem isPiece_of_mem_steps {step : Step} (h : step ∈ path.steps) : step.IsPiece := by
  simp only [steps, List.mem_map, List.mem_filter] at h
  obtain ⟨piece, ⟨hmem, hne⟩, rfl⟩ := h
  unfold Step.ofName
  split
  · trivial
  · split
    · trivial
    · next hhere hup =>
      refine ⟨by simpa using hne, hhere, hup, fun hslash => ?_⟩
      exact (mem_of_mem_pieces hmem (by simpa using hslash)).2 rfl

end Text

section Join
variable {path : Path} {name : String}

theorem isAbsolute_mk (hslash : '/' ∉ name.toList) : (Path.mk name).isAbsolute = false := by
  cases hs : name.toList with
  | nil => simp [isAbsolute, hs]
  | cons c s =>
    have hc : c ≠ '/' := by
      rintro rfl
      exact hslash (by simp [hs])
    simp [isAbsolute, hs, hc]

theorem isAbsolute_mk_of_isName (h : IsName name) : (Path.mk name).isAbsolute = false :=
  isAbsolute_mk h.noSlash

/-- The text of a path with a piece joined to it is that of the path, a slash if it lacks one, and
the piece. -/
theorem join_cases (hslash : '/' ∉ name.toList) :
    (path.text = "" ∧ (path.join name).text = name) ∨
    (∃ s, path.text.toList = s ++ ['/'] ∧ (path.join name).text.toList = s ++ '/' :: name.toList) ∨
    (path.text ≠ "" ∧ (path.join name).text.toList = path.text.toList ++ '/' :: name.toList) := by
  unfold join
  rw [isAbsolute_mk hslash]
  simp only [Bool.false_eq_true, if_false]
  split
  · next hend =>
    rcases Bool.or_eq_true_iff.1 hend with hempty | hslash
    · left
      have htext : path.text = "" := by simpa [isEmpty] using hempty
      exact ⟨htext, by simp [htext]⟩
    · right; left
      obtain ⟨s, hs⟩ := List.getLast?_eq_some_iff.1 (by simpa [endsInSlash] using hslash)
      exact ⟨s, hs, by simp [hs]⟩
  · next hend =>
    right; right
    simp only [Bool.or_eq_true, not_or] at hend
    exact ⟨by simpa [isEmpty] using hend.1, by simp⟩

theorem steps_join_piece (hne : name ≠ "") (hslash : '/' ∉ name.toList) :
    (path.join name).steps = path.steps ++ [Step.ofName name] := by
  have hpiece := stepsIn_piece hne hslash
  rw [steps_eq, steps_eq]
  rcases @join_cases path name hslash with ⟨hpath, hjoin⟩ | ⟨s, hpath, hjoin⟩ | ⟨-, hjoin⟩
  · rw [hpath, hjoin, hpiece]
    rfl
  · rw [hpath, hjoin, stepsIn_append_slash, stepsIn_append_slash, hpiece]
    simp [stepsIn, pieces]
  · rw [hjoin, stepsIn_append_slash, hpiece]

theorem steps_join (h : IsName name) : (path.join name).steps = path.steps ++ [.into name] := by
  rw [steps_join_piece h.nonempty h.noSlash, ofName_of_isName h]

theorem isAbsolute_join_piece (hslash : '/' ∉ name.toList) :
    (path.join name).isAbsolute = path.isAbsolute := by
  rcases @join_cases path name hslash with ⟨hpath, hjoin⟩ | ⟨s, hpath, hjoin⟩ | ⟨hne, hjoin⟩
  · have := isAbsolute_mk hslash
    simpa [isAbsolute, hpath, hjoin] using this
  · cases s <;> simp [isAbsolute, hpath, hjoin]
  · obtain ⟨c, s, hs⟩ := List.exists_cons_of_ne_nil (l := path.text.toList) (by simpa using hne)
    simp [isAbsolute, hjoin, hs]

theorem isAbsolute_join (h : IsName name) : (path.join name).isAbsolute = path.isAbsolute :=
  isAbsolute_join_piece h.noSlash

theorem steps_of_isEmpty (h : path.isEmpty = true) : path.steps = [] := by
  have htext : path.text = "" := by simpa [isEmpty] using h
  rw [steps_eq, htext]
  rfl

theorem isEmpty_eq_false (h : path.steps ≠ []) : path.isEmpty = false := by
  cases he : path.isEmpty with
  | true => exact absurd (steps_of_isEmpty he) h
  | false => rfl

end Join

section OfSteps
variable {absolute : Bool} {step : Step} {steps : List Step} {path : Path}

theorem ofName_name (h : step.IsPiece) : Step.ofName step.name = step := by
  cases step with
  | here => rfl
  | up => rfl
  | into name => exact ofName_of_isName h
  | slash => cases h

theorem noSlash_name (h : step.IsPiece) : '/' ∉ step.name.toList := by
  cases step with
  | here => simp [Step.name]
  | up => simp [Step.name]
  | into name => exact h.noSlash
  | slash => cases h

theorem name_ne_empty (h : step.IsPiece) : step.name ≠ "" := by
  cases step with
  | here => simp [Step.name]
  | up => simp [Step.name]
  | into name => exact h.nonempty
  | slash => cases h

theorem stepsIn_step (h : step.IsPiece) : stepsIn step.name.toList = [step] := by
  have hne : step.name.toList ≠ [] := by simpa using name_ne_empty h
  simp [stepsIn, pieces_of_notMem (noSlash_name h), hne, ofName_name h]

theorem stepsIn_intercalate (h : ∀ step ∈ steps, step.IsPiece) :
    stepsIn ("/".intercalate (steps.map Step.name)).toList = steps := by
  induction steps with
  | nil => rfl
  | cons step steps ih =>
    obtain ⟨hstep, hsteps⟩ := List.forall_mem_cons.1 h
    cases steps with
    | nil => simpa using stepsIn_step hstep
    | cons next rest =>
      have ih := ih hsteps
      rw [List.map_cons] at ih
      have htext : ("/".intercalate ((step :: next :: rest).map Step.name)).toList =
          step.name.toList ++ '/' ::
            ("/".intercalate (next.name :: rest.map Step.name)).toList := by
        simp [String.intercalate_cons_cons]
      rw [htext, stepsIn_append_slash, stepsIn_step hstep, ih]
      rfl

theorem steps_ofSteps (h : ∀ step ∈ steps, step.IsPiece) :
    (ofSteps absolute steps).steps = steps := by
  rw [steps_eq, ofSteps]
  cases absolute with
  | true =>
    have htext : ((if true then "/" else "") ++ "/".intercalate (steps.map Step.name)).toList =
        [] ++ '/' :: ("/".intercalate (steps.map Step.name)).toList := by simp
    rw [htext, stepsIn_append_slash, stepsIn_intercalate h]
    rfl
  | false => simpa using stepsIn_intercalate h

theorem head?_intercalate (h : ∀ step ∈ steps, step.IsPiece) :
    ("/".intercalate (steps.map Step.name)).toList.head? ≠ some '/' := by
  cases steps with
  | nil => simp
  | cons step steps =>
    have hstep := h step (by simp)
    obtain ⟨c, s, hs⟩ := List.exists_cons_of_ne_nil (l := step.name.toList)
      (by simpa using name_ne_empty hstep)
    have hc : c ≠ '/' := by
      rintro rfl
      exact noSlash_name hstep (by simp [hs])
    cases steps with
    | nil => simpa [hs] using hc
    | cons next rest => simpa [String.intercalate_cons_cons, hs] using hc

theorem isAbsolute_ofSteps (h : ∀ step ∈ steps, step.IsPiece) :
    (ofSteps absolute steps).isAbsolute = absolute := by
  cases absolute with
  | true => simp [isAbsolute, ofSteps]
  | false =>
    have := head?_intercalate h
    simpa [isAbsolute, ofSteps] using this

/-- The steps without those that stay, except one that a relative path begins with. -/
def plain (absolute : Bool) : List Step → List Step
  | [] => []
  | first :: rest =>
    if absolute && first == .here then rest.filter (· != .here)
    else first :: rest.filter (· != .here)

theorem plainSteps_eq : path.plainSteps = plain path.isAbsolute path.steps := by
  unfold plainSteps plain
  cases path.steps <;> rfl

theorem plain_append_into (names : List String) :
    plain absolute (steps ++ names.map .into) = plain absolute steps ++ names.map .into := by
  have hfilter : ∀ names : List String,
      (names.map Step.into).filter (· != .here) = names.map .into := by
    intro names
    rw [List.filter_eq_self]
    simp
  cases steps with
  | nil =>
    cases names with
    | nil => rfl
    | cons name names => simp [plain, hfilter]
  | cons first rest =>
    simp only [List.cons_append, plain, List.filter_append, hfilter]
    split <;> rfl

theorem mem_of_mem_plain (h : step ∈ plain absolute steps) : step ∈ steps := by
  cases steps with
  | nil => exact h
  | cons first rest =>
    rw [plain] at h
    split at h
    · exact List.mem_cons_of_mem _ (List.mem_filter.1 h).1
    · rcases List.mem_cons.1 h with rfl | h
      · exact List.mem_cons_self
      · exact List.mem_cons_of_mem _ (List.mem_filter.1 h).1

end OfSteps

end Path

end Unbundle.Files
