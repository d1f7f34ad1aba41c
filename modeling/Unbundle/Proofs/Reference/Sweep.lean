import Mathlib.Data.List.Find
import Unbundle.Proofs.Reference.Runwise

/-! Rules that keep clear of each other. No run begins with the patterns of two of them, and what
one of them puts in front of a run begins with the pattern of none, so that at most one acts on a
run and acts once. They can be taken in any order, do nothing on what they left, and come to what a
single sweep over the line does that tries all of them where a token may begin. -/

namespace Unbundle.Reference

/-- Goes over a text once. Where a token may begin, the first rule whose pattern stands there puts
its replacement, and `left` counts the characters of the pattern that are still to pass. -/
def sweep (rules : List Rule) (fresh : Bool) (left : Nat) : List Char → List Char
  | [] => []
  | c :: s =>
    match left with
    | left + 1 => sweep rules (!isTokenChar c) left s
    | 0 =>
      match if fresh then rules.find? fun rule => rule.pattern.toList.isPrefixOf (c :: s) else none with
      | some rule =>
        rule.replacement.toList ++ sweep rules (!isTokenChar c) (rule.pattern.toList.length - 1) s
      | none => c :: sweep rules (!isTokenChar c) 0 s

/-- The first rule whose pattern begins the run acts on it. -/
def exchange (rules : List Rule) (run : List Char) : List Char :=
  match rules.find? fun rule => rule.pattern.toList.isPrefixOf run with
  | some rule => rule.replacement.toList ++ run.drop rule.pattern.toList.length
  | none => run

/-- Rules in runs that tell their patterns apart by the first character, and put in front of a run
what begins with none of these. -/
structure Clear (rules : List Rule) : Prop where
  inRun : ∀ rule ∈ rules, rule.InRun
  patterns : ∀ a ∈ rules, ∀ b ∈ rules, a.pattern.toList.head? = b.pattern.toList.head? → a = b
  nonempty : ∀ rule ∈ rules, rule.replacement.toList ≠ []
  replacements : ∀ a ∈ rules, ∀ b ∈ rules,
    a.replacement.toList.head? ≠ b.pattern.toList.head?

section Sweep
variable {rules : List Rule} {fresh : Bool} {left : Nat} {r s : List Char}

theorem sweep_other {c : Char} (hrules : ∀ rule ∈ rules, rule.InRun) (hc : isTokenChar c = false) :
    sweep rules fresh 0 (c :: s) = c :: sweep rules true 0 s := by
  have hnone : (rules.find? fun rule => rule.pattern.toList.isPrefixOf (c :: s)) = none := by
    refine List.find?_eq_none.2 fun rule hrule => ?_
    have hends : EndsRun (c :: s) := by
      intro d hd
      obtain rfl : c = d := by simpa using hd
      exact hc
    have hpre := @isPrefixOf_run _ [] _ (hrules rule hrule).pattern hends
    rw [List.nil_append] at hpre
    rw [hpre, List.isPrefixOf_iff_prefix, List.prefix_nil]
    exact (hrules rule hrule).nonempty
  rw [sweep, hnone, ite_self, hc]
  rfl

theorem sweep_endsRun (hrules : ∀ rule ∈ rules, rule.InRun) (hs : EndsRun s) :
    sweep rules fresh 0 s = sweep rules true 0 s := by
  cases s with
  | nil => rfl
  | cons c s => rw [sweep_other hrules (hs c rfl), sweep_other hrules (hs c rfl)]

/-- Inside a run no token begins: what is left of a pattern is passed over and the rest stays. -/
theorem sweep_inside (hr : Segment.Fits (.run r)) (hleft : left ≤ r.length) :
    sweep rules false left (r ++ s) = r.drop left ++ sweep rules false 0 s := by
  induction r generalizing left with
  | nil =>
    obtain rfl : left = 0 := by simpa using hleft
    rfl
  | cons c r ih =>
    have hc : isTokenChar c = true := hr c (by simp)
    have ih := fun left => @ih left fun d hd => hr d (List.mem_cons_of_mem _ hd)
    cases left with
    | succ left =>
      rw [List.cons_append, sweep, hc, Bool.not_true, ih left (by simpa using hleft),
        List.drop_succ_cons]
    | zero =>
      rw [List.cons_append, sweep, if_neg (by decide), hc, Bool.not_true, ih 0 (Nat.zero_le _)]
      rfl

theorem sweep_run (hrules : ∀ rule ∈ rules, rule.InRun) (hr : Segment.Fits (.run r))
    (hs : EndsRun s) :
    sweep rules true 0 (r ++ s) = exchange rules r ++ sweep rules true 0 s := by
  have hfind : ∀ r, (rules.find? fun rule => rule.pattern.toList.isPrefixOf (r ++ s)) =
      rules.find? fun rule => rule.pattern.toList.isPrefixOf r := by
    intro r
    have hpre : ∀ rule ∈ rules, rule.pattern.toList.isPrefixOf (r ++ s) =
        rule.pattern.toList.isPrefixOf r := fun rule hrule =>
      isPrefixOf_run (hrules rule hrule).pattern hs
    exact List.find?_congr hpre
  unfold exchange
  cases r with
  | nil =>
    have hnone : (rules.find? fun rule => rule.pattern.toList.isPrefixOf []) = none :=
      List.find?_eq_none.2 fun rule hrule => by simpa using (hrules rule hrule).nonempty
    rw [hnone]
    rfl
  | cons c r =>
    have hc : isTokenChar c = true := hr c (by simp)
    have hr : Segment.Fits (.run r) := fun d hd => hr d (List.mem_cons_of_mem _ hd)
    have hfound := hfind (c :: r)
    rw [List.cons_append] at hfound
    rw [List.cons_append, sweep, if_pos rfl, hfound, hc]
    cases hrule : rules.find? fun rule => rule.pattern.toList.isPrefixOf (c :: r) with
    | none =>
      simp only [Bool.not_true]
      rw [sweep_inside hr (Nat.zero_le _), sweep_endsRun hrules hs]
      rfl
    | some rule =>
      have hmem := List.mem_of_find?_eq_some hrule
      have hpre : rule.pattern.toList <+: c :: r :=
        List.isPrefixOf_iff_prefix.1 (by simpa using List.find?_some hrule)
      obtain ⟨n, hn⟩ := Nat.exists_eq_succ_of_ne_zero
        (by simpa using (hrules rule hmem).nonempty : rule.pattern.toList.length ≠ 0)
      have hlength : n ≤ r.length := by
        have := hpre.length_le
        rw [hn, List.length_cons] at this
        omega
      simp only [Bool.not_true, hn, Nat.succ_eq_add_one, Nat.add_sub_cancel, List.drop_succ_cons]
      rw [sweep_inside hr hlength, sweep_endsRun hrules hs, List.append_assoc]

theorem sweep_spaced {segments : List Segment} (hrules : ∀ rule ∈ rules, rule.InRun)
    (h : Spaced segments) :
    sweep rules true 0 (textOf segments) =
      textOf (segments.map (Segment.onRun (exchange rules))) := by
  induction segments with
  | nil => rfl
  | cons segment segments ih =>
    rw [textOf_cons, List.map_cons, textOf_cons, ← ih h.tail]
    cases segment with
    | run r => exact sweep_run hrules (h.fits (.run r) (by simp)) h.endsRun
    | other c =>
      rw [Segment.chars, List.singleton_append, sweep_other hrules (h.fits (.other c) (by simp))]
      rfl

end Sweep

namespace Clear
variable {rules order : List Rule} {a b : Rule} {run : List Char} {line : String}

theorem head?_of_starts (ha : a.InRun) (h : a.pattern.toList.isPrefixOf run = true) :
    run.head? = a.pattern.toList.head? := by
  obtain ⟨rest, rfl⟩ := List.isPrefixOf_iff_prefix.1 h
  exact List.head?_append_of_ne_nil _ ha.nonempty

theorem onRun_replaced (h : Clear rules) (ha : a ∈ rules) (hb : b ∈ rules) :
    b.onRun (a.replacement.toList ++ run) = a.replacement.toList ++ run := by
  refine swap_of_not_isPrefixOf (Bool.eq_false_iff.2 fun hpre => h.replacements a ha b hb ?_)
  rw [← head?_of_starts (h.inRun b hb) hpre, List.head?_append_of_ne_nil _ (h.nonempty a ha)]

theorem foldl_replaced (h : Clear rules) (ha : a ∈ rules) (horder : order ⊆ rules) :
    order.foldl (fun run rule => rule.onRun run) (a.replacement.toList ++ run) =
      a.replacement.toList ++ run := by
  induction order with
  | nil => rfl
  | cons b order ih =>
    obtain ⟨hb, horder⟩ := List.cons_subset.1 horder
    rw [List.foldl_cons, h.onRun_replaced ha hb, ih horder]

/-- One after another, the rules do to a run what the one does whose pattern begins it. -/
theorem foldl_onRun (h : Clear rules) (horder : order ⊆ rules) :
    order.foldl (fun run rule => rule.onRun run) run = exchange order run := by
  induction order with
  | nil => rfl
  | cons a order ih =>
    obtain ⟨ha, horder⟩ := List.cons_subset.1 horder
    rw [List.foldl_cons, exchange, List.find?_cons]
    cases hpre : a.pattern.toList.isPrefixOf run with
    | true => rw [Rule.onRun, swap_of_isPrefixOf hpre, h.foldl_replaced ha horder]
    | false =>
      rw [Rule.onRun, swap_of_not_isPrefixOf hpre]
      exact ih horder

theorem find?_of_perm (h : Clear rules) (hperm : order.Perm rules) :
    (order.find? fun rule => rule.pattern.toList.isPrefixOf run) =
      rules.find? fun rule => rule.pattern.toList.isPrefixOf run := by
  cases hfound : rules.find? fun rule => rule.pattern.toList.isPrefixOf run with
  | none =>
    rw [List.find?_eq_none] at hfound ⊢
    exact fun rule hrule => hfound rule (hperm.mem_iff.1 hrule)
  | some a =>
    have ha := List.mem_of_find?_eq_some hfound
    have hpre : a.pattern.toList.isPrefixOf run = true := by simpa using List.find?_some hfound
    cases hother : order.find? fun rule => rule.pattern.toList.isPrefixOf run with
    | none => exact absurd hpre (List.find?_eq_none.1 hother a (hperm.mem_iff.2 ha))
    | some b =>
      have hb := hperm.mem_iff.1 (List.mem_of_find?_eq_some hother)
      have hpre' : b.pattern.toList.isPrefixOf run = true := by simpa using List.find?_some hother
      have hheads := (head?_of_starts (h.inRun b hb) hpre').symm.trans
        (head?_of_starts (h.inRun a ha) hpre)
      rw [h.patterns b hb a ha hheads]

theorem exchange_of_perm (h : Clear rules) (hperm : order.Perm rules) :
    exchange order = exchange rules := by
  funext run
  unfold exchange
  rw [h.find?_of_perm hperm]

theorem exchange_exchange (h : Clear rules) :
    exchange rules (exchange rules run) = exchange rules run := by
  rw [← h.foldl_onRun (List.Subset.refl rules), exchange]
  cases hfound : rules.find? fun rule => rule.pattern.toList.isPrefixOf run with
  | none =>
    rw [h.foldl_onRun (List.Subset.refl rules), exchange, hfound]
  | some a => exact h.foldl_replaced (List.mem_of_find?_eq_some hfound) (List.Subset.refl rules)

theorem fits_exchange (h : Clear rules) (hr : Segment.Fits (.run run)) :
    Segment.Fits (.run (exchange rules run)) := by
  unfold exchange
  cases hfound : rules.find? fun rule => rule.pattern.toList.isPrefixOf run with
  | none => exact hr
  | some a =>
    intro c hc
    rcases List.mem_append.1 hc with hc | hc
    · exact (h.inRun a (List.mem_of_find?_eq_some hfound)).replacement c hc
    · exact hr c (List.mem_of_mem_drop hc)

theorem foldl_apply (h : Clear rules) (hperm : order.Perm rules) :
    order.foldl (fun line rule => rule.apply line) line =
      String.ofList (sweep rules true 0 line.toList) := by
  obtain ⟨segments, hs, hline⟩ : ∃ segments, Spaced segments ∧ textOf segments = line.toList :=
    ⟨_, splits_segmentsOf.toSpaced, textOf_segmentsOf⟩
  refine String.toList_injective ?_
  rw [foldl_apply_spaced (fun rule hrule => h.inRun rule (hperm.mem_iff.1 hrule)) hs hline.symm,
    String.toList_ofList, ← hline, sweep_spaced h.inRun hs]
  simp only [h.foldl_onRun hperm.subset, h.exchange_of_perm hperm]

theorem sweep_of_perm (h : Clear rules) (hperm : order.Perm rules) {s : List Char} :
    sweep order true 0 s = sweep rules true 0 s := by
  obtain ⟨segments, hs, rfl⟩ : ∃ segments, Spaced segments ∧ textOf segments = s :=
    ⟨_, splits_segmentsOf.toSpaced, textOf_segmentsOf⟩
  have horder : ∀ rule ∈ order, rule.InRun := fun rule hrule => h.inRun rule (hperm.mem_iff.1 hrule)
  rw [sweep_spaced h.inRun hs, sweep_spaced horder hs, h.exchange_of_perm hperm]

theorem sweep_sweep (h : Clear rules) {s : List Char} :
    sweep rules true 0 (sweep rules true 0 s) = sweep rules true 0 s := by
  obtain ⟨segments, hs, rfl⟩ : ∃ segments, Spaced segments ∧ textOf segments = s :=
    ⟨_, splits_segmentsOf.toSpaced, textOf_segmentsOf⟩
  rw [sweep_spaced h.inRun hs, sweep_spaced h.inRun (hs.map_onRun fun _ => h.fits_exchange),
    List.map_map]
  congr 2
  funext segment
  cases segment with
  | run r => exact congrArg Segment.run h.exchange_exchange
  | other c => rfl

end Clear

section Scoped
variable {scope : Scope}

theorem PlainNames.clear (h : PlainNames scope) : Clear (Rules.inImplementation scope).toList := by
  refine ⟨h.inRun_inImplementation, ?_, ?_, ?_⟩
  · simp [inImplementation_toList]
  · simp [inImplementation_toList]
  · simp [inImplementation_toList, typesNamespace]

theorem apply_eq_sweep (h : PlainNames scope) (line : String) :
    (Rules.inImplementation scope).apply line =
      String.ofList (sweep (Rules.inImplementation scope).toList true 0 line.toList) :=
  h.clear.foldl_apply (.refl _)

end Scoped

/-- The rules for implementation code do nothing on what they left, come to the same in any order,
and do what one sweep does that tries all of them, in any order, wherever a token may begin. -/
theorem Rules.inImplementation_confluent (scope : Scope) (line : String) (h : PlainNames scope) :
    (Rules.inImplementation scope).apply ((Rules.inImplementation scope).apply line) =
      (Rules.inImplementation scope).apply line ∧
    ∀ order : List Rule, order.Perm (Rules.inImplementation scope).toList →
      order.foldl (fun line rule => rule.apply line) line =
        (Rules.inImplementation scope).apply line ∧
      String.ofList (sweep order true 0 line.toList) =
        (Rules.inImplementation scope).apply line := by
  refine ⟨?_, fun order hperm => ⟨?_, ?_⟩⟩
  · rw [apply_eq_sweep h, apply_eq_sweep h, String.toList_ofList, h.clear.sweep_sweep]
  · rw [h.clear.foldl_apply hperm, apply_eq_sweep h]
  · rw [h.clear.sweep_of_perm hperm, apply_eq_sweep h]

theorem Rules.inImplementation_confluent_types :
    PlainNames ⟨"types", some "inputs"⟩ ∧
    (Rules.inImplementation ⟨"types", some "inputs"⟩).toList.reverse.foldl
        (fun line rule => rule.apply line) "f(inputs.types.inputs.types.inputs.A, enums.types.inputs.)" =
      "f(types.inputs.types.inputs.A, types.enums.)" := by
  have h : PlainNames ⟨"types", some "inputs"⟩ := by
    refine ⟨⟨by decide, by simp⟩, fun version hv => ?_⟩
    obtain rfl : "inputs" = version := Option.some.inj hv
    exact ⟨by decide, by simp⟩
  have horders := (Rules.inImplementation_confluent _
    "f(inputs.types.inputs.types.inputs.A, enums.types.inputs.)" h).2 _ (List.reverse_perm _)
  refine ⟨h, horders.1.trans (horders.2.symm.trans ?_)⟩
  decide

end Unbundle.Reference
