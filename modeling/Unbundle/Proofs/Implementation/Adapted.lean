import Unbundle.Proofs.Implementation.Reexports
import Unbundle.Proofs.Reference.Moved

/-! The text of an adapted file. A line that is kept is a line of it in its adapted form, and where
a line that is kept referred to the scope's own types there is an import of them on top. -/

namespace Unbundle.Implementation
open Unbundle.Text Unbundle.Reference

section Adapted
variable {imports : Imports} {context : Context} {content line module : String}
  {space : String} {version : Option String} {climbs : Nat} {direction : Direction} {scope : Scope}

theorem exists_body_eq : ∃ behind, (behind = "" ∨ behind = "\n") ∧ body imports context content =
    joinLines (((lines content).filter imports.keeps).map context.adapt) ++ behind := by
  unfold body
  simp only
  split
  · exact ⟨"\n", .inr rfl, rfl⟩
  · exact ⟨"", .inl rfl, String.append_empty.symm⟩

theorem body_eq : ∃ behind, (behind = [] ∨ behind = ['\n']) ∧ (body imports context content).toList =
    (joinLines (((lines content).filter imports.keeps).map context.adapt)).toList ++ behind := by
  obtain ⟨behind, hbehind, hbody⟩ := @exists_body_eq imports context content
  refine ⟨behind.toList, ?_, by rw [hbody, String.toList_append]⟩
  rcases hbehind with rfl | rfl
  · exact .inl rfl
  · exact .inr rfl

theorem exists_body (hline : line ∈ lines content) (hkept : imports.keeps line = true) :
    ∃ before after, Closed '\n' before ∧ Opens '\n' after ∧
      (body imports context content).toList =
        before ++ ((context.adapt line).toList ++ after) := by
  have hmem : context.adapt line ∈ ((lines content).filter imports.keeps).map context.adapt :=
    List.mem_map_of_mem (List.mem_filter.2 ⟨hline, hkept⟩)
  obtain ⟨before, after, hbefore, hafter, htext⟩ := exists_joinLines hmem
  obtain ⟨behind, hbehind, hbody⟩ := @body_eq imports context content
  rw [htext] at hbody
  rcases hbehind with rfl | rfl
  · exact ⟨before, after, hbefore, hafter, by simpa using hbody⟩
  · exact ⟨before, after ++ ['\n'], hbefore, hafter.above, by simpa using hbody⟩

theorem infix_body {pattern : List Char} (hne : pattern ≠ []) (hnl : '\n' ∉ pattern) :
    pattern <:+: (body imports context content).toList ↔ ∃ line ∈ lines content,
      imports.keeps line = true ∧ pattern <:+: (context.adapt line).toList := by
  obtain ⟨behind, hbehind, htext⟩ := @body_eq imports context content
  have hjoined : pattern <:+: (body imports context content).toList ↔ pattern <:+:
      (joinLines (((lines content).filter imports.keeps).map context.adapt)).toList := by
    rw [htext]
    rcases hbehind with rfl | rfl
    · rw [List.append_nil]
    · rw [infix_append_cons hnl, List.infix_nil, or_iff_left hne]
  rw [hjoined, infix_joinLines hne hnl]
  constructor
  · rintro ⟨_, hmem, hinfix⟩
    obtain ⟨line, hline, rfl⟩ := List.mem_map.1 hmem
    obtain ⟨hline, hkept⟩ := List.mem_filter.1 hline
    exact ⟨line, hline, hkept, hinfix⟩
  · rintro ⟨line, hline, hkept, hinfix⟩
    exact ⟨_, List.mem_map_of_mem (List.mem_filter.2 ⟨hline, hkept⟩), hinfix⟩

theorem toList_adaptSource : (adaptSource imports context content).toList =
    (joinLines (header imports context (body imports context content))).toList ++
      '\n' :: (body imports context content).toList := by
  simp [adaptSource]

theorem mem_lines_adaptSource (hline : line ∈ lines content) (hkept : imports.keeps line = true)
    (h : IsLine (context.adapt line)) :
    context.adapt line ∈ lines (adaptSource imports context content) := by
  obtain ⟨before, after, hbefore, hafter, htext⟩ := @exists_body imports context _ _ hline hkept
  have hsource := @toList_adaptSource imports context content
  rw [htext, ← List.cons_append, ← List.append_assoc] at hsource
  exact h.mem_lines hbefore.below hafter hsource

theorem namespaceImport_mem_lines (hneeds : needsTypes (body imports context content) = true)
    (h : IsLine (namespaceImport typesNamespace context.typesPath)) :
    namespaceImport typesNamespace context.typesPath ∈
      lines (adaptSource imports context content) := by
  have hmem : namespaceImport typesNamespace context.typesPath ∈
      header imports context (body imports context content) := by
    simp [header, hneeds]
  obtain ⟨before, after, hbefore, hafter, htext⟩ := exists_joinLines hmem
  have hsource := @toList_adaptSource imports context content
  rw [htext, List.append_assoc, List.append_assoc] at hsource
  exact h.mem_lines hbefore hafter.above hsource

/-! The re-export of a scope's own enums. -/

theorem keeps_sharedReexport : imports.keeps (sharedReexport climbs module version) = true := by
  have hstart : ∀ s, "export * from \"../".toList ++ s = 'e' :: ("xport * from \"../".toList ++ s) :=
    fun _ => rfl
  have himport : importPath? (sharedReexport climbs module version) = none := by
    unfold importPath?
    rw [toList_sharedReexport, hstart]
    rfl
  have hbanner : isBanner (sharedReexport climbs module version) = false := by
    unfold isBanner
    rw [toList_sharedReexport, hstart]
    rfl
  simp [Imports.keeps, himport, hbanner]

theorem newline_notMem_enumsPath (hpath : '\n' ∉ context.typesPath.toList)
    (hversion : ∀ v ∈ version, '\n' ∉ v.toList) : '\n' ∉ (context.enumsPath version).toList := by
  have henums : '\n' ∉ enumsNamespace.toList := by decide
  unfold Context.enumsPath
  split
  · next v _ =>
    simpa [hpath, henums] using hversion v rfl
  · simp [hpath, henums]

/-- A re-export of the scope's own enums points beside the scope's types in the adapted file. -/
theorem adapt_sharedReexport (hentry : context.isEntry = true) (hmodule : IsEnumsName module)
    (hversion : ∀ v ∈ version, IsEnumsName v) (hscope : context.scope.module = module)
    (hcontext : context.version = version) : context.adapt (sharedReexport climbs module version) =
      "export * from \"" ++ context.enumsPath version ++ "\";" := by
  have hshared : sharedEnums? (sharedReexport climbs module version) = some (module, version) :=
    sharedEnums?_sharedReexport hmodule hversion
  unfold Context.adapt
  simp only [hentry, if_true]
  rw [apply_of_not_dotted (not_dotted_of_sharedEnums? hshared)]
  unfold Context.redirect
  rw [hshared]
  simp only
  rw [if_pos ⟨hscope.symm, hcontext.symm⟩]

/-! References to the scope's own types. -/

theorem namespaceName_mem (direction : Direction) :
    direction.namespaceName ∈ sharedNamespaces := by
  cases direction <;> decide

theorem dotted_moved (hspace : space ∈ sharedNamespaces) :
    Dotted (typesNamespace ++ "." ++ space ++ ".").toList :=
  (dotted_shared hspace).mono ⟨(typesNamespace ++ ".").toList, [], by simp⟩

theorem redirect_moved (h : Dotted line.toList) : context.redirect line = line := by
  unfold Context.redirect
  cases hshared : sharedEnums? line with
  | none => rfl
  | some found => exact absurd h (not_dotted_of_sharedEnums? hshared)

theorem newline_notMem_moved (hspace : space ∈ sharedNamespaces) :
    '\n' ∉ (typesNamespace ++ "." ++ space ++ ".").toList := by
  have hall : ∀ space ∈ sharedNamespaces, '\n' ∉ (typesNamespace ++ "." ++ space ++ ".").toList := by
    decide
  exact hall space hspace

theorem needsTypes_body (hnames : PlainNames context.scope) (hline : line ∈ lines content)
    (hkept : imports.keeps line = true)
    (h : BeginsToken (qualified direction.namespaceName context.scope) line.toList) :
    needsTypes (body imports context content) = true := by
  have hspace := namespaceName_mem direction
  have hmoved := infix_apply hspace hnames h
  have hadapt : context.adapt line = (Rules.inImplementation context.scope).apply line := by
    unfold Context.adapt
    simp only [redirect_moved ((dotted_moved hspace).mono hmoved), ite_self]
  have hpattern := newline_notMem_moved hspace
  unfold needsTypes
  refine List.any_eq_true.2 ⟨direction.namespaceName, hspace, occurs_iff.2 ?_⟩
  exact (infix_body (by simp) hpattern).2 ⟨line, hline, hkept, hadapt ▸ hmoved⟩

end Adapted

end Unbundle.Implementation
