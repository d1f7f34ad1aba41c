import Unbundle.Proofs.Reference.Runwise

/-! Lines in which references are reworded. A rule for implementation code puts one qualification in
the place of another, and both have a dot and a name in them but no quote, no slash and no newline.
So whatever stands between two of these is left alone if it has no dot in it or nothing else, and
goes on to have both if it has both. -/

namespace Unbundle.Reference

/-- What no reference goes across. -/
def borders : List Char := ['"', '/', '\n']

/-- A reference: names and dots, and no border. -/
structure IsWording (s : List Char) : Prop where
  dotted : '.' ∈ s
  named : ∃ c ∈ s, c ≠ '.'
  within : ∀ c ∈ borders, c ∉ s

/-- One line is the other with references in the place of references. -/
inductive Reworded : List Char → List Char → Prop
  | nil : Reworded [] []
  | kept (c : Char) {s t : List Char} (h : Reworded s t) : Reworded (c :: s) (c :: t)
  | swapped {old new s t : List Char} (hold : IsWording old) (hnew : IsWording new)
      (h : Reworded s t) : Reworded (old ++ s) (new ++ t)

namespace Reworded
variable {s t rest : List Char} {c : Char}

theorem symm (h : Reworded s t) : Reworded t s := by
  induction h with
  | nil => exact .nil
  | kept c _ ih => exact .kept c ih
  | swapped hold hnew _ ih => exact .swapped hnew hold ih

theorem border_mem (hc : c ∈ borders) (h : Reworded s t) (ht : c ∈ t) : c ∈ s := by
  induction h with
  | nil => exact ht
  | kept d _ ih =>
    rcases List.mem_cons.1 ht with rfl | ht
    · exact List.mem_cons_self
    · exact List.mem_cons_of_mem _ (ih ht)
  | swapped _ hnew _ ih =>
    rcases List.mem_append.1 ht with ht | ht
    · exact absurd ht (hnew.within c hc)
    · exact List.mem_append_right _ (ih ht)

theorem eq_of_none (h : Reworded s t) (hs : ∀ old, IsWording old → ¬ old <:+: s) : t = s := by
  induction h with
  | nil => rfl
  | kept c _ ih =>
    rw [ih fun old hold hoccurs => hs old hold (hoccurs.trans (List.suffix_cons _ _).isInfix)]
  | swapped hold _ _ _ => exact absurd (List.prefix_append _ _).isInfix (hs _ hold)

theorem eq_of_not_dotted (h : Reworded s t) (hs : '.' ∉ s) : t = s :=
  h.eq_of_none fun _ hold hoccurs => hs (hoccurs.subset hold.dotted)

theorem eq_of_not_named (h : Reworded s t) (hs : ¬ ∃ c ∈ s, c ≠ '.') : t = s :=
  h.eq_of_none fun _ hold hoccurs =>
    hs (hold.named.imp fun _ hc => ⟨hoccurs.subset hc.1, hc.2⟩)

theorem eq_or_named (h : Reworded s t) :
    t = s ∨ (∃ c ∈ s, c ≠ '.') ∧ ∃ c ∈ t, c ≠ '.' := by
  by_cases hs : ∃ c ∈ s, c ≠ '.'
  · by_cases ht : ∃ c ∈ t, c ≠ '.'
    · exact .inr ⟨hs, ht⟩
    · exact .inl (h.symm.eq_of_not_named ht).symm
  · exact .inl (h.eq_of_not_named hs)

theorem split (hc : c ∈ borders) (h : Reworded (s ++ c :: rest) t) :
    ∃ s' rest', t = s' ++ c :: rest' ∧ Reworded s s' ∧ Reworded rest rest' := by
  generalize htext : s ++ c :: rest = text at h
  induction h generalizing s with
  | nil => simp at htext
  | kept d h ih =>
    cases s with
    | nil =>
      obtain ⟨rfl, rfl⟩ := List.cons.inj htext
      exact ⟨[], _, rfl, .nil, h⟩
    | cons e s =>
      obtain ⟨rfl, hbehind⟩ := List.cons.inj htext
      obtain ⟨s', rest', rfl, hs, hrest⟩ := ih hbehind
      exact ⟨e :: s', rest', rfl, .kept e hs, hrest⟩
  | @swapped old new _ _ hold hnew h ih =>
    obtain ⟨more, rfl, hmore⟩ : ∃ more, s = old ++ more ∧ more ++ c :: rest = _ := by
      rcases List.append_eq_append_iff.1 htext with
        ⟨across, hacross, hbehind⟩ | ⟨more, rfl, hbehind⟩
      · -- the reference would have to go across the border
        cases across with
        | nil => exact ⟨[], by simpa using hacross.symm, hbehind⟩
        | cons d across =>
          obtain rfl := (List.cons.inj hbehind).1
          exact absurd (by simp [hacross]) (hold.within c hc)
      · exact ⟨more, rfl, hbehind.symm⟩
    obtain ⟨s', rest', rfl, hs, hrest⟩ := ih hmore
    exact ⟨new ++ s', rest', by rw [List.append_assoc], .swapped hold hnew hs, hrest⟩

end Reworded

section Rules
variable {pattern replacement s : List Char} {fresh keep : Bool} {left : Nat} {scope : Scope}

/-- What a cut makes of a text, or of the text behind an occurrence that is being passed over. -/
theorem reworded_cut (hpattern : IsWording pattern) (hreplacement : IsWording replacement) :
    Reworded (if keep then s else s.drop left)
      (textOfPieces replacement (cut pattern fresh left keep s)) := by
  induction s generalizing fresh left keep with
  | nil => cases keep <;> simpa [cut, textOfPieces] using Reworded.nil
  | cons c s ih =>
    have hkept : ∀ fresh left, Reworded s
        (textOfPieces replacement (cut pattern fresh left true s)) := fun fresh left => by
      simpa using @ih fresh true left
    have hdropped : ∀ fresh left, Reworded (s.drop left)
        (textOfPieces replacement (cut pattern fresh left false s)) := fun fresh left => by
      simpa using @ih fresh false left
    cases left with
    | succ left =>
      cases keep with
      | true => simpa [cut, textOfPieces_cons, Piece.text] using .kept c (hkept _ left)
      | false => simpa [cut] using hdropped _ left
    | zero =>
      rw [List.drop_zero, ite_self, cut]
      split
      · next hbegins =>
        cases fresh with
        | true =>
          obtain ⟨rest, hrest⟩ := List.isPrefixOf_iff_prefix.1 hbegins
          have hne : pattern ≠ [] := List.ne_nil_of_mem hpattern.dotted
          have hdrop : s.drop (pattern.length - 1) = rest := by
            obtain ⟨p, pattern, rfl⟩ := List.exists_cons_of_ne_nil hne
            obtain ⟨-, rfl⟩ := List.cons.inj hrest
            simp
          have hbehind := hdropped (!isTokenChar c) (pattern.length - 1)
          rw [hdrop] at hbehind
          rw [← hrest]
          exact .swapped hpattern hreplacement hbehind
        | false => exact .kept c (hkept _ _)
      · exact .kept c (hkept _ _)

theorem Rule.reworded_apply {rule : Rule} {line : String} (hpattern : IsWording rule.pattern.toList)
    (hreplacement : IsWording rule.replacement.toList) :
    Reworded line.toList (rule.apply line).toList := by
  have hne : rule.pattern.toList.isEmpty = false := by
    simpa using List.ne_nil_of_mem hpattern.dotted
  have hcut := @reworded_cut _ _ line.toList true true 0 hpattern hreplacement
  rw [if_pos rfl] at hcut
  unfold Rule.apply Rule.pieces
  simpa [hne, textOfPieces] using hcut

/-- A rule for implementation code rewords a line if the scope's names have no border in them. -/
theorem reworded_of_mem_inImplementation {rule : Rule}
    (hscope : ∀ c ∈ borders, c ∉ scope.name.toList)
    (hrule : rule ∈ (Rules.inImplementation scope).toList) (line : String) :
    Reworded line.toList (rule.apply line).toList := by
  rw [inImplementation_toList] at hrule
  obtain ⟨space, hspace, rfl⟩ := List.mem_map.1 hrule
  have hspaces : ∀ space ∈ ["outputs", "inputs", "enums"], (∃ c ∈ space.toList, c ≠ '.') ∧
      (∀ c ∈ borders, c ∉ space.toList) ∧
      ∀ c ∈ borders, c ∉ (typesNamespace ++ "." ++ space ++ ".").toList := by
    simp [borders, typesNamespace]
  obtain ⟨⟨c, hc, hne⟩, hwithin, hmoved⟩ := hspaces space hspace
  refine Rule.reworded_apply ⟨?_, ⟨c, ?_, hne⟩, ?_⟩ ⟨?_, ⟨c, ?_, hne⟩, hmoved⟩
  · simp
  · simp [hc]
  · intro d hd
    have hdot : d ≠ '.' := by
      rintro rfl
      exact absurd hd (by decide)
    simp [Scope.qualification, hwithin d hd, hscope d hd, hdot]
  · simp
  · simp [hc]

end Rules

end Unbundle.Reference
