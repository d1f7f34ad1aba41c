import Unbundle.Proofs.Reference.Runwise

/-! What is left of a qualification. Each run of a line is rewritten once, so a scope whose name
stands twice in front of a type keeps one of the two. That is the only way in which a reference of a
scope to itself gets through the rules of its types, and all depends on how a run begins. -/

namespace Unbundle.Reference

/-- The pattern stands at the start of the line or behind a character of no token. -/
def BeginsToken (pattern line : List Char) : Prop :=
  ∃ before after, line = before ++ pattern ++ after ∧ ∀ c ∈ before.getLast?, isTokenChar c = false

section Runs
variable {pattern line before after r s : List Char} {segments : List Segment}

theorem BeginsToken.of_all (h : line = before ++ pattern ++ after)
    (hlast : before.getLast?.all (fun c => !isTokenChar c) = true) : BeginsToken pattern line :=
  ⟨before, after, h, fun c hc => by simpa [Option.mem_def.1 hc] using hlast⟩

theorem beginsToken_other {c : Char} (hne : pattern ≠ []) (hp : Segment.Fits (.run pattern))
    (hc : isTokenChar c = false) : BeginsToken pattern (c :: s) ↔ BeginsToken pattern s := by
  constructor
  · rintro ⟨before, after, hline, hbefore⟩
    cases before with
    | nil =>
      obtain ⟨p, rest, rfl⟩ := List.exists_cons_of_ne_nil hne
      obtain ⟨rfl, -⟩ : c = p ∧ _ := by simpa using hline
      simp [hp c (by simp)] at hc
    | cons d before =>
      obtain ⟨rfl, hs⟩ : c = d ∧ s = before ++ pattern ++ after := by simpa using hline
      refine ⟨before, after, hs, fun x hx => hbefore x ?_⟩
      cases before with
      | nil => cases hx
      | cons d before => simpa using hx
  · rintro ⟨before, after, rfl, hbefore⟩
    refine ⟨c :: before, after, rfl, fun x hx => ?_⟩
    cases before with
    | nil =>
      obtain rfl : c = x := by simpa using hx
      exact hc
    | cons d before => exact hbefore x (by simpa using hx)

theorem beginsToken_run (hne : pattern ≠ []) (hp : Segment.Fits (.run pattern))
    (hr : Segment.Fits (.run r)) (hs : EndsRun s) :
    BeginsToken pattern (r ++ s) ↔ pattern <+: r ∨ BeginsToken pattern s := by
  constructor
  · rintro ⟨before, after, hline, hbefore⟩
    cases before with
    | nil =>
      left
      have hprefix : pattern <+: r ++ s := ⟨after, by simpa using hline.symm⟩
      rwa [← List.isPrefixOf_iff_prefix, isPrefixOf_run hp hs, List.isPrefixOf_iff_prefix] at hprefix
    | cons d before =>
      right
      rw [List.append_assoc, List.append_eq_append_iff] at hline
      rcases hline with ⟨rest, hsplit, hs'⟩ | ⟨rest, hsplit, -⟩
      · refine ⟨rest, after, by rw [hs', List.append_assoc], fun x hx => hbefore x ?_⟩
        rw [hsplit, List.getLast?_append_of_ne_nil _ (by rintro rfl; cases hx)]
        exact hx
      · -- the occurrence would begin inside the run, behind one of its characters
        obtain ⟨c, hc⟩ : ∃ c, (d :: before).getLast? = some c :=
          ⟨_, List.getLast?_eq_some_getLast (List.cons_ne_nil d before)⟩
        have hmem : c ∈ r := hsplit ▸ List.mem_append_left _ (List.mem_of_getLast? hc)
        have := hr c hmem
        simp [hbefore c hc] at this
  · rintro (⟨rest, rfl⟩ | ⟨before, after, hline, hbefore⟩)
    · exact ⟨[], rest ++ s, by simp, nofun⟩
    · have hnonempty : before ≠ [] := by
        rintro rfl
        obtain ⟨p, rest, rfl⟩ := List.exists_cons_of_ne_nil hne
        have := hs p (by simp [hline])
        simp [hp p (by simp)] at this
      refine ⟨r ++ before, after, by simp [hline], ?_⟩
      rwa [List.getLast?_append_of_ne_nil _ hnonempty]

theorem beginsToken_iff (hne : pattern ≠ []) (hp : Segment.Fits (.run pattern))
    (h : Spaced segments) :
    BeginsToken pattern (textOf segments) ↔ ∃ r, .run r ∈ segments ∧ pattern <+: r := by
  induction segments with
  | nil =>
    constructor
    · rintro ⟨before, after, hline, -⟩
      simp [hne] at hline
    · simp
  | cons segment segments ih =>
    rw [textOf_cons]
    cases segment with
    | run r =>
      rw [Segment.chars, beginsToken_run hne hp (h.fits (.run r) (by simp)) h.endsRun, ih h.tail]
      simp
    | other c =>
      rw [Segment.chars, List.singleton_append, beginsToken_other hne hp (h.fits (.other c) (by simp)),
        ih h.tail]
      simp

end Runs

/-- The line refers to types or enums of the scope by its own name. -/
def SelfQualified (scope : Scope) (direction : Direction) (line : List Char) : Prop :=
  BeginsToken (qualified direction.namespaceName scope) line ∨
  BeginsToken (qualified enumsNamespace scope) line

/-- The line refers to the scope with its name given twice. -/
def TwiceQualified (scope : Scope) (direction : Direction) (line : List Char) : Prop :=
  BeginsToken (qualified direction.namespaceName scope ++ qualified direction.namespaceName scope)
    line ∨
  BeginsToken (qualified direction.namespaceName scope ++
    (qualified enumsNamespace scope ++ scope.qualification.toList)) line ∨
  BeginsToken (qualified enumsNamespace scope ++ scope.qualification.toList) line

section Scoped
variable {scope : Scope} {direction : Direction} {run : List Char}

theorem direction_head?_ne (direction : Direction) :
    direction.namespaceName.toList.head? ≠ enumsNamespace.toList.head? := by
  cases direction <;> decide

theorem direction_ne_nil (direction : Direction) : direction.namespaceName.toList ≠ [] := by
  cases direction <;> decide

theorem not_qualified_prefix {space : String} (hs : space.toList ≠ [])
    (h : run.head? ≠ space.toList.head?) : ¬ qualified space scope <+: run := by
  rw [← List.isPrefixOf_iff_prefix, isPrefixOf_qualified_of_head_ne hs h]
  decide

theorem qualified_eq_append {space : String} :
    qualified space scope = (space ++ ".").toList ++ scope.qualification.toList := by
  simp [qualified]

theorem direction_prefix_swap :
    qualified direction.namespaceName scope <+:
        swap (qualified enumsNamespace scope) (enumsNamespace ++ ".").toList run ↔
      qualified direction.namespaceName scope <+: run := by
  cases hpre : (qualified enumsNamespace scope).isPrefixOf run with
  | true =>
    obtain ⟨rest, rfl⟩ := List.isPrefixOf_iff_prefix.1 hpre
    have hno : ∀ rest, ¬ qualified direction.namespaceName scope <+:
        enumsNamespace.toList ++ '.' :: rest :=
      fun _ => not_qualified_prefix (direction_ne_nil direction) (direction_head?_ne direction).symm
    rw [swap_of_isPrefixOf hpre, List.drop_left]
    constructor
    · intro h
      exact absurd h (hno rest)
    · intro h
      have hsplit : qualified enumsNamespace scope ++ rest =
          enumsNamespace.toList ++ '.' :: (scope.qualification.toList ++ rest) := by simp [qualified]
      exact absurd (hsplit ▸ h) (hno _)
  | false => rw [swap_of_not_isPrefixOf hpre]

theorem enums_prefix_swap :
    qualified enumsNamespace scope <+:
        swap (qualified enumsNamespace scope) (enumsNamespace ++ ".").toList run ↔
      qualified enumsNamespace scope ++ scope.qualification.toList <+: run := by
  cases hpre : (qualified enumsNamespace scope).isPrefixOf run with
  | true =>
    obtain ⟨rest, rfl⟩ := List.isPrefixOf_iff_prefix.1 hpre
    rw [swap_of_isPrefixOf hpre, List.drop_left, List.prefix_append_right_inj, qualified_eq_append,
      List.prefix_append_right_inj]
  | false =>
    have hno : ¬ qualified enumsNamespace scope <+: run := by
      rw [← List.isPrefixOf_iff_prefix, hpre]
      decide
    rw [swap_of_not_isPrefixOf hpre]
    constructor
    · intro h
      exact absurd h hno
    · intro h
      exact absurd ((List.prefix_append _ _).trans h) hno

theorem prefix_inTypesRun :
    qualified direction.namespaceName scope <+: inTypesRun scope direction run ∨
      qualified enumsNamespace scope <+: inTypesRun scope direction run ↔
    qualified direction.namespaceName scope ++ qualified direction.namespaceName scope <+: run ∨
      qualified direction.namespaceName scope ++
        (qualified enumsNamespace scope ++ scope.qualification.toList) <+: run ∨
      qualified enumsNamespace scope ++ scope.qualification.toList <+: run := by
  rw [inTypesRun, direction_prefix_swap, enums_prefix_swap]
  cases hpre : (qualified direction.namespaceName scope).isPrefixOf run with
  | true =>
    obtain ⟨rest, rfl⟩ := List.isPrefixOf_iff_prefix.1 hpre
    have hno : ¬ qualified enumsNamespace scope ++ scope.qualification.toList <+:
        qualified direction.namespaceName scope ++ rest := by
      intro h
      refine not_qualified_prefix (by decide) ?_ ((List.prefix_append _ _).trans h)
      obtain ⟨c, space, hspace⟩ := List.exists_cons_of_ne_nil (direction_ne_nil direction)
      have := direction_head?_ne direction
      simpa [qualified, hspace] using this
    rw [swap_of_isPrefixOf hpre, List.drop_left, List.nil_append, List.prefix_append_right_inj,
      List.prefix_append_right_inj]
    simp [hno]
  | false =>
    have hno : ∀ more, ¬ qualified direction.namespaceName scope ++ more <+: run := by
      intro more h
      have := List.isPrefixOf_iff_prefix.2 ((List.prefix_append _ _).trans h)
      simp [hpre] at this
    rw [swap_of_not_isPrefixOf hpre]
    have hno' := hno []
    rw [List.append_nil] at hno'
    simp only [hno, hno', false_or]

theorem PlainNames.fits_qualified (h : PlainNames scope) {space : String}
    (hs : Segment.Fits (.run space.toList)) : Segment.Fits (.run (qualified space scope)) := by
  have hrule := (@PlainNames.inRun _ h _ "" hs (by simp [Segment.Fits])).pattern
  rwa [qualified_eq] at hrule

theorem fits_append {a b : List Char} (ha : Segment.Fits (.run a)) (hb : Segment.Fits (.run b)) :
    Segment.Fits (.run (a ++ b)) :=
  fun c hc => (List.mem_append.1 hc).elim (ha c) (hb c)

theorem fits_swap {pattern replacement : List Char} (hreplacement : Segment.Fits (.run replacement))
    (hr : Segment.Fits (.run run)) : Segment.Fits (.run (swap pattern replacement run)) := by
  unfold swap
  split
  · exact fits_append hreplacement fun c hc => hr c (List.mem_of_mem_drop hc)
  · exact hr

theorem fits_inTypesRun (hr : Segment.Fits (.run run)) :
    Segment.Fits (.run (inTypesRun scope direction run)) :=
  fits_swap (by decide) (fits_swap (by simp [Segment.Fits]) hr)

theorem run_mem_map_onRun {f : List Char → List Char} {segments : List Segment} :
    .run run ∈ segments.map (Segment.onRun f) ↔ ∃ r, .run r ∈ segments ∧ f r = run := by
  rw [List.mem_map]
  constructor
  · rintro ⟨segment, hmem, heq⟩
    cases segment with
    | run r => exact ⟨r, hmem, Segment.run.inj heq⟩
    | other c => cases heq
  · rintro ⟨r, hmem, rfl⟩
    exact ⟨.run r, hmem, rfl⟩

/-- The rules of a scope leave a reference of it to itself where its name is given twice, and
nowhere else. -/
theorem selfQualified_apply (h : PlainNames scope) (line : String) :
    SelfQualified scope direction ((Rules.inTypes scope direction).apply line).toList ↔
      TwiceQualified scope direction line.toList := by
  have hown : Segment.Fits (.run (qualified direction.namespaceName scope)) :=
    h.fits_qualified (by cases direction <;> decide)
  have henums : Segment.Fits (.run (qualified enumsNamespace scope)) := h.fits_qualified (by decide)
  have hnil : ∀ space, qualified space scope ≠ [] := by simp [qualified]
  obtain ⟨segments, hs, hline⟩ : ∃ segments, Spaced segments ∧ textOf segments = line.toList :=
    ⟨_, splits_segmentsOf.toSpaced, textOf_segmentsOf⟩
  have hs' := hs.map_onRun fun run => @fits_inTypesRun scope direction run
  unfold SelfQualified TwiceQualified
  rw [apply_inTypes h hs hline.symm, beginsToken_iff (hnil _) hown hs',
    beginsToken_iff (hnil _) henums hs', ← hline,
    beginsToken_iff (by simp [hnil]) (fits_append hown hown) hs,
    beginsToken_iff (by simp [hnil]) (fits_append hown (fits_append henums h.fits)) hs,
    beginsToken_iff (by simp [hnil]) (fits_append henums h.fits) hs]
  simp only [run_mem_map_onRun, ← exists_or, ← and_or_left, ← prefix_inTypesRun]
  constructor
  · rintro ⟨_, ⟨run, hmem, rfl⟩, hrun⟩
    exact ⟨run, hmem, hrun⟩
  · rintro ⟨run, hmem, hrun⟩
    exact ⟨_, ⟨run, hmem, rfl⟩, hrun⟩

end Scoped

end Unbundle.Reference
