import Mathlib.Data.List.Chain
import Unbundle.Reference.Rule

/-! A line as runs of token characters and the characters between them. The cut into runs is unique.
A rule looks at substrings, but when its pattern is made of token characters an occurrence lies
within one run, and only one that begins the run is replaced. So such a rule works on each run alone
and leaves everything between the runs where it is. -/

namespace Unbundle.Reference

inductive Segment where
  | run (chars : List Char)
  | other (c : Char)
deriving DecidableEq, Repr

namespace Segment

def chars : Segment → List Char
  | run r => r
  | other c => [c]

/-- A run holds token characters only, and no other segment is one of them. -/
def Fits : Segment → Prop
  | run r => ∀ c ∈ r, isTokenChar c = true
  | other c => isTokenChar c = false

instance : DecidablePred Fits
  | run r => List.decidableBAll (fun c => isTokenChar c = true) r
  | other c => inferInstanceAs (Decidable (isTokenChar c = false))

/-- Two runs do not touch. -/
def Apart : Segment → Segment → Prop
  | run _, run _ => False
  | _, _ => True

/-- Changes a run, keeps any other character. -/
def onRun (f : List Char → List Char) : Segment → Segment
  | run r => run (f r)
  | other c => other c

end Segment

def textOf (segments : List Segment) : List Char := segments.flatMap Segment.chars

/-- Runs with other characters between them. A run may be empty here, since a rule can delete the
whole of one. -/
structure Spaced (segments : List Segment) : Prop where
  fits : ∀ s ∈ segments, s.Fits
  apart : segments.IsChain Segment.Apart

/-- The segments of a line: its runs are not empty and reach as far as they can. -/
structure Splits (line : List Char) (segments : List Segment) : Prop extends Spaced segments where
  text : textOf segments = line
  nonempty : .run [] ∉ segments

def segmentsOf : List Char → List Segment
  | [] => []
  | c :: s =>
    if isTokenChar c then
      match segmentsOf s with
      | .run r :: more => .run (c :: r) :: more
      | more => .run [c] :: more
    else .other c :: segmentsOf s

/-- No run goes on into this text. -/
def EndsRun (s : List Char) : Prop := ∀ c ∈ s.head?, isTokenChar c = false

section Segments
variable {segments : List Segment} {line r s : List Char}

@[simp] theorem textOf_nil : textOf [] = [] := rfl

@[simp] theorem textOf_cons (segment : Segment) :
    textOf (segment :: segments) = segment.chars ++ textOf segments := rfl

theorem Spaced.tail {segment : Segment} (h : Spaced (segment :: segments)) : Spaced segments :=
  ⟨fun s hs => h.fits s (List.mem_cons_of_mem _ hs), h.apart.tail⟩

theorem Spaced.endsRun (h : Spaced (.run r :: segments)) : EndsRun (textOf segments) := by
  intro c hc
  cases segments with
  | nil => simp at hc
  | cons segment segments =>
    cases segment with
    | run r' => exact absurd (List.isChain_cons_cons.1 h.apart).1 id
    | other d =>
      simp only [textOf_cons, Segment.chars, List.cons_append, List.head?_cons,
        Option.mem_some_iff] at hc
      exact hc ▸ h.fits (.other d) (by simp)

theorem Spaced.map_onRun {f : List Char → List Char} (h : Spaced segments)
    (hf : ∀ r, Segment.Fits (.run r) → Segment.Fits (.run (f r))) :
    Spaced (segments.map (Segment.onRun f)) := by
  refine ⟨fun s hs => ?_, ?_⟩
  · obtain ⟨t, ht, rfl⟩ := List.mem_map.1 hs
    have := h.fits t ht
    cases t with
    | run r => exact hf r this
    | other c => exact this
  · refine (List.isChain_map _).2 (h.apart.imp fun a b hab => ?_)
    cases a <;> cases b <;> exact hab

theorem segmentsOf_other {c : Char} (hc : isTokenChar c = false) :
    segmentsOf (c :: s) = .other c :: segmentsOf s := by
  simp [segmentsOf, hc]

theorem segmentsOf_endsRun (hs : EndsRun s) : ∀ r more, segmentsOf s ≠ .run r :: more := by
  cases s with
  | nil => simp [segmentsOf]
  | cons c s => simp [segmentsOf_other (hs c rfl)]

theorem segmentsOf_run (hr : Segment.Fits (.run r)) (hs : EndsRun s) (hne : r ≠ []) :
    segmentsOf (r ++ s) = .run r :: segmentsOf s := by
  induction r with
  | nil => exact absurd rfl hne
  | cons c r ih =>
    have hc : isTokenChar c = true := hr c (by simp)
    cases r with
    | nil =>
      simp only [List.cons_append, List.nil_append, segmentsOf, hc, if_true]
      split
      · next he => exact absurd he (segmentsOf_endsRun hs _ _)
      · rfl
    | cons d r =>
      have ih := ih (fun c' hc' => hr c' (List.mem_cons_of_mem _ hc')) (by simp)
      rw [List.cons_append, segmentsOf, ih]
      simp [hc]

theorem textOf_segmentsOf : textOf (segmentsOf line) = line := by
  induction line with
  | nil => rfl
  | cons c s ih =>
    simp only [segmentsOf]
    split
    · split
      · next he => simpa [he, Segment.chars] using ih
      · simp [ih, Segment.chars]
    · simp [ih, Segment.chars]

theorem Spaced.cons_other {c : Char} (h : Spaced segments) (hc : isTokenChar c = false) :
    Spaced (.other c :: segments) := by
  refine ⟨List.forall_mem_cons.2 ⟨hc, h.fits⟩, ?_⟩
  cases segments with
  | nil => exact List.isChain_singleton _
  | cons segment segments => exact List.isChain_cons_cons.2 ⟨trivial, h.apart⟩

theorem Spaced.cons_run (h : Spaced segments) (hr : Segment.Fits (.run r))
    (hn : ∀ r' more, segments ≠ .run r' :: more) : Spaced (.run r :: segments) := by
  refine ⟨List.forall_mem_cons.2 ⟨hr, h.fits⟩, ?_⟩
  cases segments with
  | nil => exact List.isChain_singleton _
  | cons segment segments =>
    refine List.isChain_cons_cons.2 ⟨?_, h.apart⟩
    cases segment with
    | run r' => exact absurd rfl (hn r' segments)
    | other c => trivial

theorem splits_segmentsOf : Splits line (segmentsOf line) := by
  induction line with
  | nil => exact ⟨⟨by simp [segmentsOf], by simp [segmentsOf]⟩, rfl, by simp [segmentsOf]⟩
  | cons c s ih =>
    obtain ⟨hs, -, hne⟩ := ih
    refine ⟨?_, textOf_segmentsOf, ?_⟩
    · simp only [segmentsOf]
      split
      · next hc =>
        split
        · next r more he =>
          rw [he] at hs
          refine hs.tail.cons_run (List.forall_mem_cons.2 ⟨hc, hs.fits (.run r) (by simp)⟩) ?_
          rintro r' more rfl
          exact (List.isChain_cons_cons.1 hs.apart).1
        · next hn => exact hs.cons_run (by simpa [Segment.Fits] using hc) hn
      · next hc => exact hs.cons_other (by simpa using hc)
    · simp only [segmentsOf]
      split
      · split
        · next he => simp_all
        · simpa using hne
      · simpa using hne

theorem Splits.eq_segmentsOf (h : Splits line segments) : segments = segmentsOf line := by
  obtain ⟨hs, rfl, hne⟩ := h
  induction segments with
  | nil => rfl
  | cons segment segments ih =>
    have ih := ih hs.tail (fun h => hne (List.mem_cons_of_mem _ h))
    cases segment with
    | run r =>
      have hr : r ≠ [] := fun h => hne (by simp [h])
      rw [textOf_cons, Segment.chars, segmentsOf_run (hs.fits _ (by simp)) hs.endsRun hr, ← ih]
    | other c =>
      have hc : isTokenChar c = false := hs.fits (.other c) (by simp)
      rw [textOf_cons, Segment.chars, List.singleton_append, segmentsOf_other hc, ← ih]

end Segments

end Unbundle.Reference
