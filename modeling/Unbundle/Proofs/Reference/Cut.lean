import Unbundle.Proofs.Reference.Runs

/-! What a rule does to a line, run by run. When its pattern is made of token characters an
occurrence that is turned down lies within the run it stands in and cannot hide the start of the
next one. When its replacement is made of them too, what is put in stays in its run, and rules can
be followed one after another on a single run. -/

namespace Unbundle.Reference

/-- Puts `replacement` for the pattern when the run begins with it. -/
def swap (pattern replacement run : List Char) : List Char :=
  if pattern.isPrefixOf run then replacement ++ run.drop pattern.length else run

theorem swap_of_isPrefixOf {pattern replacement run : List Char}
    (h : pattern.isPrefixOf run = true) :
    swap pattern replacement run = replacement ++ run.drop pattern.length := by
  simp [swap, h]

theorem swap_of_not_isPrefixOf {pattern replacement run : List Char}
    (h : pattern.isPrefixOf run = false) : swap pattern replacement run = run := by
  simp [swap, h]

def textOfPieces (replacement : List Char) (pieces : List Piece) : List Char :=
  pieces.flatMap (Piece.text replacement)

section Cut
variable {pattern replacement r s : List Char} {fresh keep : Bool} {left : Nat}

theorem cut_zero : cut pattern fresh 0 keep s = cut pattern fresh 0 true s := by
  cases s <;> simp [cut]

/-- At the end of a run it does not matter whether a token may begin, nor which character of the
line comes next. -/
theorem cut_other {c : Char} (hne : pattern ≠ []) (hp : Segment.Fits (.run pattern))
    (hc : isTokenChar c = false) :
    cut pattern fresh 0 keep (c :: s) = .kept c :: cut pattern true 0 true s := by
  have hno : pattern.isPrefixOf (c :: s) = false := by
    cases pattern with
    | nil => exact absurd rfl hne
    | cons p pattern =>
      have hpc : p ≠ c := fun h => by simp [← h, hp p (by simp)] at hc
      simp [List.isPrefixOf, hpc]
  simp [cut, hno, hc]

theorem cut_endsRun (hne : pattern ≠ []) (hp : Segment.Fits (.run pattern)) (hs : EndsRun s) :
    cut pattern fresh 0 keep s = cut pattern true 0 true s := by
  cases s with
  | nil => rfl
  | cons c s => rw [cut_other hne hp (hs c rfl), cut_other hne hp (hs c rfl)]

theorem isPrefixOf_run (hp : Segment.Fits (.run pattern)) (hs : EndsRun s) :
    pattern.isPrefixOf (r ++ s) = pattern.isPrefixOf r := by
  induction pattern generalizing r with
  | nil => simp
  | cons p pattern ih =>
    have hpc : isTokenChar p = true := hp p (by simp)
    cases r with
    | nil =>
      cases s with
      | nil => rfl
      | cons c s =>
        have hc : p ≠ c := fun h => by simp [← h, hpc, EndsRun] at hs
        simp [List.isPrefixOf, hc]
    | cons c r => simp [List.isPrefixOf, ih (fun d hd => hp d (List.mem_cons_of_mem _ hd))]

theorem cut_inside (hp : Segment.Fits (.run pattern)) (hr : Segment.Fits (.run r))
    (hs : EndsRun s) (hleft : left ≤ r.length) :
    cut pattern false left true (r ++ s) = r.map .kept ++ cut pattern false 0 true s := by
  induction r generalizing left with
  | nil => simp [show left = 0 by simpa using hleft]
  | cons c r ih =>
    have hc : isTokenChar c = true := hr c (by simp)
    have ih := fun left => @ih left (fun d hd => hr d (List.mem_cons_of_mem _ hd))
    cases left with
    | succ left =>
      simp only [List.length_cons, Nat.add_le_add_iff_right] at hleft
      simp [cut, hc, ih left hleft]
    | zero =>
      rw [List.cons_append, cut]
      split
      · next hpre =>
        have hlen : pattern.length - 1 ≤ r.length := by
          rw [← List.cons_append, isPrefixOf_run hp hs, List.isPrefixOf_iff_prefix] at hpre
          have := hpre.length_le
          simp only [List.length_cons] at this
          omega
        simp [hc, ih _ hlen]
      · simp [hc, ih 0 (Nat.zero_le _)]

/-- The rest of an occurrence is passed over, and what follows it in its run does not begin it. -/
theorem cut_passed (hr : Segment.Fits (.run r)) (hleft : left ≤ r.length) :
    cut pattern false left false (r ++ s) = cut pattern false 0 true (r.drop left ++ s) := by
  induction left generalizing r with
  | zero => simpa using cut_zero
  | succ left ih =>
    cases r with
    | nil => simp at hleft
    | cons c r =>
      simp only [List.length_cons, Nat.add_le_add_iff_right] at hleft
      simp [cut, hr c (by simp), ih (fun d hd => hr d (List.mem_cons_of_mem _ hd)) hleft]

theorem textOfPieces_kept : textOfPieces replacement (s.map .kept) = s := by
  simp [textOfPieces, List.flatMap_map, Piece.text]

theorem textOfPieces_cons {piece : Piece} {pieces : List Piece} :
    textOfPieces replacement (piece :: pieces) =
      piece.text replacement ++ textOfPieces replacement pieces := rfl

/-- The pieces of a run: the pattern goes when the run begins with it, and nothing else does. -/
def runPieces (pattern run : List Char) : List Piece :=
  if pattern.isPrefixOf run then .replaced :: (run.drop pattern.length).map .kept
  else run.map .kept

theorem cut_run (hne : pattern ≠ []) (hp : Segment.Fits (.run pattern))
    (hr : Segment.Fits (.run r)) (hs : EndsRun s) :
    cut pattern true 0 true (r ++ s) = runPieces pattern r ++ cut pattern true 0 true s := by
  cases r with
  | nil => cases pattern <;> simp_all [runPieces]
  | cons c r =>
    have hc : isTokenChar c = true := hr c (by simp)
    have hr : Segment.Fits (.run r) := fun d hd => hr d (List.mem_cons_of_mem _ hd)
    have hpre := isPrefixOf_run (r := c :: r) hp hs
    rw [List.cons_append] at hpre
    rw [List.cons_append, cut, hpre, runPieces]
    split
    · next hpre =>
      obtain ⟨rest, hrest⟩ := List.isPrefixOf_iff_prefix.1 hpre
      have hlen : pattern.length - 1 ≤ r.length := by
        have := congrArg List.length hrest
        simp only [List.length_append, List.length_cons] at this
        omega
      have hdrop : (c :: r).drop pattern.length = r.drop (pattern.length - 1) := by
        obtain ⟨k, hk⟩ := Nat.exists_eq_succ_of_ne_zero (by simpa using hne : pattern.length ≠ 0)
        simp [hk]
      have hfits : Segment.Fits (.run (r.drop (pattern.length - 1))) :=
        fun d hd => hr d (List.mem_of_mem_drop hd)
      simp only [hc, Bool.not_true, if_true]
      rw [cut_passed hr hlen, cut_inside hp hfits hs (Nat.zero_le _), cut_endsRun hne hp hs, hdrop,
        List.cons_append]
    · simp only [hc, Bool.not_true]
      rw [cut_inside hp hr hs (Nat.zero_le _), cut_endsRun hne hp hs, List.map_cons,
        List.cons_append]

theorem textOfPieces_runPieces :
    textOfPieces replacement (runPieces pattern r) = swap pattern replacement r := by
  unfold runPieces swap
  split
  · rw [textOfPieces_cons, textOfPieces_kept]
    rfl
  · exact textOfPieces_kept

theorem cut_run_alone (hne : pattern ≠ []) (hp : Segment.Fits (.run pattern))
    (hr : Segment.Fits (.run r)) : cut pattern true 0 true r = runPieces pattern r := by
  have hrun := @cut_run _ _ [] hne hp hr (by simp [EndsRun])
  simpa [cut] using hrun

theorem cut_spaced {segments : List Segment} (hne : pattern ≠ [])
    (hp : Segment.Fits (.run pattern)) (h : Spaced segments) :
    cut pattern true 0 true (textOf segments) =
      segments.flatMap fun segment => cut pattern true 0 true segment.chars := by
  induction segments with
  | nil => rfl
  | cons segment segments ih =>
    rw [textOf_cons, List.flatMap_cons, ← ih h.tail]
    cases segment with
    | run r =>
      have hr : Segment.Fits (.run r) := h.fits (.run r) (by simp)
      rw [Segment.chars, cut_run hne hp hr h.endsRun, cut_run_alone hne hp hr]
    | other c =>
      have hc : isTokenChar c = false := h.fits (.other c) (by simp)
      rw [Segment.chars, List.singleton_append, cut_other hne hp hc, cut_other hne hp hc]
      rfl

theorem textOfPieces_cut {segments : List Segment} (hne : pattern ≠ [])
    (hp : Segment.Fits (.run pattern)) (h : Spaced segments) :
    textOfPieces replacement (cut pattern true 0 true (textOf segments)) =
      textOf (segments.map (Segment.onRun (swap pattern replacement))) := by
  rw [cut_spaced hne hp h, textOfPieces, List.flatMap_assoc, textOf, List.flatMap_map]
  refine List.flatMap_congr fun segment hsegment => ?_
  have hfits := h.fits segment hsegment
  cases segment with
  | run r =>
    rw [Segment.chars, cut_run_alone hne hp hfits]
    exact textOfPieces_runPieces
  | other c =>
    rw [Segment.chars, cut_other hne hp hfits]
    rfl

end Cut

/-- The rule stays inside runs: its pattern can only occur in one, and puts no other character
there. -/
structure Rule.InRun (rule : Rule) : Prop where
  nonempty : rule.pattern.toList ≠ []
  pattern : Segment.Fits (.run rule.pattern.toList)
  replacement : Segment.Fits (.run rule.replacement.toList)

def Rule.onRun (rule : Rule) (run : List Char) : List Char :=
  swap rule.pattern.toList rule.replacement.toList run

section Apply
variable {rule : Rule} {segments : List Segment} {line : String}

theorem Rule.InRun.fits_onRun (h : rule.InRun) {run : List Char}
    (hr : Segment.Fits (.run run)) : Segment.Fits (.run (rule.onRun run)) := by
  unfold Rule.onRun swap
  split
  · exact fun c hc => (List.mem_append.1 hc).elim (h.replacement c)
      fun hc => hr c (List.mem_of_mem_drop hc)
  · exact hr

theorem Rule.apply_spaced (h : rule.InRun) (hs : Spaced segments)
    (hline : line.toList = textOf segments) :
    (rule.apply line).toList = textOf (segments.map (Segment.onRun rule.onRun)) := by
  have hne : rule.pattern.toList.isEmpty = false := by simpa using h.nonempty
  simp only [Rule.apply, Rule.pieces, hne, Bool.false_eq_true, if_false, String.toList_ofList,
    hline]
  exact textOfPieces_cut h.nonempty h.pattern hs

theorem foldl_apply_spaced {rules : List Rule} (h : ∀ rule ∈ rules, rule.InRun)
    (hs : Spaced segments) (hline : line.toList = textOf segments) :
    (rules.foldl (fun line rule => rule.apply line) line).toList = textOf (segments.map
      (Segment.onRun fun run => rules.foldl (fun run rule => rule.onRun run) run)) := by
  induction rules generalizing line segments with
  | nil =>
    have hid : Segment.onRun (fun run => run) = id := by
      funext s
      cases s <;> rfl
    simpa [hid] using hline
  | cons rule rules ih =>
    obtain ⟨hrule, h⟩ := List.forall_mem_cons.1 h
    rw [List.foldl_cons,
      ih h (hs.map_onRun fun r => hrule.fits_onRun) (Rule.apply_spaced hrule hs hline),
      List.map_map]
    congr 2
    funext s
    cases s <;> rfl

end Apply

end Unbundle.Reference
