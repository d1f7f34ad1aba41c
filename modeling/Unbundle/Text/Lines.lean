/-! Cutting a text into lines. A line ends at a newline or where the text ends. A carriage return
directly before a newline belongs to the terminator, any other one to the line. The cut is stated
over any alphabet, so that characters and bytes are cut by the same rule. -/

namespace Unbundle.Text

section Cut
variable {α : Type} [DecidableEq α]

def cutLines (nl cr : α) : List α → List (List α)
  | [] => []
  | c :: rest =>
    if c = nl then [] :: cutLines nl cr rest
    else if c = cr ∧ rest.head? = some nl then cutLines nl cr rest
    else
      match cutLines nl cr rest with
      | [] => [[c]]
      | line :: more => (c :: line) :: more

theorem cutLines_newline (nl cr : α) (rest : List α) :
    cutLines nl cr (nl :: rest) = [] :: cutLines nl cr rest := by
  simp [cutLines]

theorem cutLines_eq_nil {nl cr : α} {s : List α} :
    cutLines nl cr s = [] ↔ s = [] := by
  induction s with
  | nil => simp [cutLines]
  | cons c rest ih =>
    simp only [cutLines]
    split
    · simp
    · split
      · next h => rcases rest with - | ⟨d, rest⟩ <;> simp_all
      · split <;> simp

theorem newline_notMem_of_mem_cutLines {nl cr : α} {s line : List α}
    (h : line ∈ cutLines nl cr s) : nl ∉ line := by
  induction s generalizing line with
  | nil => simp [cutLines] at h
  | cons c rest ih =>
    simp only [cutLines] at h
    split at h
    · rcases List.mem_cons.1 h with rfl | h
      · simp
      · exact ih h
    · next hc =>
      split at h
      · exact ih h
      · split at h
        · simp only [List.mem_singleton] at h
          subst h
          simpa using Ne.symm hc
        · next first more he =>
          rcases List.mem_cons.1 h with rfl | h
          · have : nl ∉ first := ih (by simp [he])
            simpa [this] using Ne.symm hc
          · exact ih (by simp [he, h])

end Cut

def lines (text : String) : List String :=
  (cutLines '\n' '\r' text.toList).map String.ofList

def joinLines (lines : List String) : String := "\n".intercalate lines

/-- The lines of encoded text; nothing when some line is not UTF-8. -/
def decodeLines? (bytes : ByteArray) : Option (List String) :=
  (cutLines 10 13 bytes.data.toList).mapM fun line => String.fromUTF8? ⟨line.toArray⟩

end Unbundle.Text
