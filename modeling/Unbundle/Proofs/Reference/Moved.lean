import Unbundle.Proofs.Reference.Residue
import Unbundle.Proofs.Text.Lines

/-! References that the rules for implementation code move. A reference to the scope goes through
`types` once they are done, none is left, and a text without one stays as it is. Where a token
begins in lines that are joined, it begins in one of them. -/

namespace Unbundle.Reference
open Unbundle.Text

section Pattern
variable {pattern a b s : List Char} {c : Char} {segments more : List Segment} {list : List String}

theorem Spaced.append_other (h : Spaced segments) (hc : isTokenChar c = false)
    (hmore : Spaced more) : Spaced (segments ++ .other c :: more) := by
  refine ⟨List.forall_mem_append.2 ⟨h.fits, (hmore.cons_other hc).fits⟩,
    List.isChain_append.2 ⟨h.apart, (hmore.cons_other hc).apart, fun first _ second hsecond => ?_⟩⟩
  obtain rfl : .other c = second := by simpa using hsecond
  cases first <;> trivial

theorem textOf_append : textOf (segments ++ more) = textOf segments ++ textOf more :=
  List.flatMap_append

theorem beginsToken_append_cons (hne : pattern ≠ []) (hp : Segment.Fits (.run pattern))
    (hc : isTokenChar c = false) :
    BeginsToken pattern (a ++ c :: b) ↔ BeginsToken pattern a ∨ BeginsToken pattern b := by
  obtain ⟨segments, hsegments, rfl⟩ : ∃ segments, Spaced segments ∧ textOf segments = a :=
    ⟨_, splits_segmentsOf.toSpaced, textOf_segmentsOf⟩
  obtain ⟨more, hmore, rfl⟩ : ∃ segments, Spaced segments ∧ textOf segments = b :=
    ⟨_, splits_segmentsOf.toSpaced, textOf_segmentsOf⟩
  have htext : textOf segments ++ c :: textOf more = textOf (segments ++ .other c :: more) := by
    rw [textOf_append]
    rfl
  rw [htext, beginsToken_iff hne hp (hsegments.append_other hc hmore),
    beginsToken_iff hne hp hsegments, beginsToken_iff hne hp hmore, ← exists_or]
  simp only [List.mem_append, List.mem_cons, reduceCtorEq, false_or, or_and_right]

theorem BeginsToken.append (h : BeginsToken pattern a) : BeginsToken pattern (a ++ b) := by
  obtain ⟨before, after, rfl, hbefore⟩ := h
  exact ⟨before, after ++ b, by simp, hbefore⟩

theorem not_beginsToken_nil (hne : pattern ≠ []) : ¬ BeginsToken pattern [] := by
  rintro ⟨before, after, htext, -⟩
  simp [hne] at htext

theorem beginsToken_joinLines (hne : pattern ≠ []) (hp : Segment.Fits (.run pattern)) :
    BeginsToken pattern (joinLines list).toList ↔ ∃ line ∈ list, BeginsToken pattern line.toList := by
  induction list with
  | nil => simpa [joinLines] using not_beginsToken_nil hne
  | cons first list ih =>
    cases list with
    | nil => simp [joinLines]
    | cons second list =>
      have htext : (first ++ "\n" ++ joinLines (second :: list)).toList =
          first.toList ++ '\n' :: (joinLines (second :: list)).toList := by simp
      have hnewline : isTokenChar '\n' = false := by decide
      rw [joinLines_cons_cons, htext, beginsToken_append_cons hne hp hnewline, ih]
      simp

theorem beginsToken_of_mem_lines {line text : String} (hne : pattern ≠ [])
    (hp : Segment.Fits (.run pattern)) (hline : line ∈ lines text)
    (h : BeginsToken pattern line.toList) : BeginsToken pattern text.toList := by
  obtain ⟨chars, hchars, rfl⟩ := List.mem_map.1 hline
  rw [String.toList_ofList] at h
  rcases exists_of_mem_cutLines hchars with ⟨after, htext⟩ | ⟨before, after, htext⟩
  · exact htext ▸ h.append
  · have hnewline : isTokenChar '\n' = false := by decide
    rw [htext, beginsToken_append_cons hne hp hnewline]
    exact .inr h.append

theorem infix_textOf {segments : List Segment} {run : List Char} (h : .run run ∈ segments) :
    run <:+: textOf segments := by
  obtain ⟨before, after, rfl⟩ := List.append_of_mem h
  exact ⟨textOf before, textOf after, by simp [textOf, Segment.chars]⟩

end Pattern

section Scoped
variable {scope : Scope} {line space : String} {run : List Char}

theorem qualified_ne_nil : qualified space scope ≠ [] := by simp [qualified]

theorem find?_qualified {run : List Char} (hspace : space ∈ sharedNamespaces)
    (h : qualified space scope <+: run) :
    (sharedNamespaces.find? fun space => (qualified space scope).isPrefixOf run) = some space := by
  have hstarts := List.isPrefixOf_iff_prefix.2 h
  have hne : ∀ a ∈ sharedNamespaces, a.toList ≠ [] := by decide
  have hheads : ∀ a ∈ sharedNamespaces, ∀ b ∈ sharedNamespaces,
      a.toList.head? = b.toList.head? → a = b := by decide
  cases hfound : sharedNamespaces.find? fun space => (qualified space scope).isPrefixOf run with
  | none => exact absurd hstarts (List.find?_eq_none.1 hfound space hspace)
  | some other =>
    have hother := List.mem_of_find?_eq_some hfound
    have hstarts' : (qualified other scope).isPrefixOf run = true := by
      simpa using List.find?_some hfound
    rw [hheads other hother space hspace]
    rw [← head?_of_isPrefixOf_qualified (hne other hother) hstarts',
      head?_of_isPrefixOf_qualified (hne space hspace) hstarts]

theorem inImplementationRun_of_starts {run : List Char} (hspace : space ∈ sharedNamespaces)
    (h : qualified space scope <+: run) :
    inImplementationRun scope run = (typesNamespace ++ "." ++ space ++ ".").toList ++
      run.drop (qualified space scope).length := by
  unfold inImplementationRun
  rw [find?_qualified hspace h]

theorem fits_shared (hspace : space ∈ sharedNamespaces) : Segment.Fits (.run space.toList) := by
  have hall : ∀ space ∈ sharedNamespaces, Segment.Fits (.run space.toList) := by decide
  exact hall space hspace

theorem infix_apply (hspace : space ∈ sharedNamespaces) (hnames : PlainNames scope)
    (h : BeginsToken (qualified space scope) line.toList) :
    (typesNamespace ++ "." ++ space ++ ".").toList <:+:
      ((Rules.inImplementation scope).apply line).toList := by
  have hfits := hnames.fits_qualified (fits_shared hspace)
  have hne : qualified space scope ≠ [] := by simp [qualified]
  have hspaced : Spaced (segmentsOf line.toList) := splits_segmentsOf.toSpaced
  have htext : line.toList = textOf (segmentsOf line.toList) := textOf_segmentsOf.symm
  rw [htext, beginsToken_iff hne hfits hspaced] at h
  obtain ⟨run, hrun, hstarts⟩ := h
  have hmoved : .run (inImplementationRun scope run) ∈
      (segmentsOf line.toList).map (Segment.onRun (inImplementationRun scope)) :=
    run_mem_map_onRun.2 ⟨run, hrun, rfl⟩
  rw [apply_inImplementation hnames hspaced htext]
  refine List.IsInfix.trans ?_ (infix_textOf hmoved)
  rw [inImplementationRun_of_starts hspace hstarts]
  exact (List.prefix_append _ _).isInfix

theorem inImplementationRun_of_not
    (h : ∀ space ∈ sharedNamespaces, ¬ qualified space scope <+: run) :
    inImplementationRun scope run = run := by
  have hnone : (sharedNamespaces.find? fun space => (qualified space scope).isPrefixOf run) =
      none :=
    List.find?_eq_none.2 fun space hspace hstarts =>
      h space hspace (List.isPrefixOf_iff_prefix.1 hstarts)
  unfold inImplementationRun
  rw [hnone]

theorem not_prefix_inImplementationRun (hspace : space ∈ sharedNamespaces) :
    ¬ qualified space scope <+: inImplementationRun scope run := by
  have hheads : ∀ space ∈ sharedNamespaces, space.toList ≠ [] ∧ space.toList.head? ≠ some 't' := by
    decide
  obtain ⟨hne, hhead⟩ := hheads space hspace
  by_cases h : ∃ space ∈ sharedNamespaces, qualified space scope <+: run
  · obtain ⟨moved, hmoved, hstarts⟩ := h
    rw [inImplementationRun_of_starts hmoved hstarts]
    refine not_qualified_prefix hne ?_
    simpa [typesNamespace] using Ne.symm hhead
  · have hnot : ∀ space ∈ sharedNamespaces, ¬ qualified space scope <+: run :=
      fun space hspace hstarts => h ⟨space, hspace, hstarts⟩
    rw [inImplementationRun_of_not hnot]
    exact hnot space hspace

theorem fits_inImplementationRun (hr : Segment.Fits (.run run)) :
    Segment.Fits (.run (inImplementationRun scope run)) := by
  have hmoved : ∀ space ∈ sharedNamespaces,
      Segment.Fits (.run (typesNamespace ++ "." ++ space ++ ".").toList) := by decide
  unfold inImplementationRun
  split
  · next space hfound =>
    exact fits_append (hmoved space (List.mem_of_find?_eq_some hfound))
      fun c hc => hr c (List.mem_of_mem_drop hc)
  · exact hr

theorem not_beginsToken_apply (hnames : PlainNames scope) (hspace : space ∈ sharedNamespaces) :
    ¬ BeginsToken (qualified space scope) ((Rules.inImplementation scope).apply line).toList := by
  obtain ⟨segments, hs, hline⟩ : ∃ segments, Spaced segments ∧ textOf segments = line.toList :=
    ⟨_, splits_segmentsOf.toSpaced, textOf_segmentsOf⟩
  have hfits := hnames.fits_qualified (fits_shared hspace)
  rw [apply_inImplementation hnames hs hline.symm, beginsToken_iff qualified_ne_nil hfits
    (hs.map_onRun fun _ => fits_inImplementationRun)]
  rintro ⟨run, hrun, hstarts⟩
  obtain ⟨run, -, rfl⟩ := run_mem_map_onRun.1 hrun
  exact not_prefix_inImplementationRun hspace hstarts

theorem apply_of_not_beginsToken (hnames : PlainNames scope)
    (h : ∀ space ∈ sharedNamespaces, ¬ BeginsToken (qualified space scope) line.toList) :
    (Rules.inImplementation scope).apply line = line := by
  obtain ⟨segments, hs, hline⟩ : ∃ segments, Spaced segments ∧ textOf segments = line.toList :=
    ⟨_, splits_segmentsOf.toSpaced, textOf_segmentsOf⟩
  have hstays : ∀ segment ∈ segments, segment.onRun (inImplementationRun scope) = segment := by
    intro segment hsegment
    cases segment with
    | other c => rfl
    | run run =>
      refine congrArg Segment.run (inImplementationRun_of_not fun space hspace hstarts =>
        h space hspace ?_)
      have hfits := hnames.fits_qualified (fits_shared hspace)
      rw [← hline, beginsToken_iff qualified_ne_nil hfits hs]
      exact ⟨run, hsegment, hstarts⟩
  refine String.toList_injective ?_
  rw [apply_inImplementation hnames hs hline.symm, List.map_congr_left hstays, List.map_id', hline]

theorem exists_infix_apply (hnames : PlainNames scope) (hspace : space ∈ sharedNamespaces)
    (h : (typesNamespace ++ "." ++ space ++ ".").toList <:+: line.toList) :
    ∃ space ∈ sharedNamespaces, (typesNamespace ++ "." ++ space ++ ".").toList <:+:
      ((Rules.inImplementation scope).apply line).toList := by
  by_cases hrefers : ∃ space ∈ sharedNamespaces, BeginsToken (qualified space scope) line.toList
  · obtain ⟨moved, hmoved, hbegins⟩ := hrefers
    exact ⟨moved, hmoved, infix_apply hmoved hnames hbegins⟩
  · have hnot : ∀ space ∈ sharedNamespaces, ¬ BeginsToken (qualified space scope) line.toList :=
      fun space hspace hbegins => hrefers ⟨space, hspace, hbegins⟩
    rw [apply_of_not_beginsToken hnames hnot]
    exact ⟨space, hspace, h⟩

end Scoped

end Unbundle.Reference
