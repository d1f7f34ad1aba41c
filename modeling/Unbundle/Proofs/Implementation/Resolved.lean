import Unbundle.Proofs.Implementation.Adapted

/-! What the references in an adapted file lead to. No line of its own refers to the scope by its
name any more, and the import of `types` stands on top if and only if a line that was kept referred
to the scope or went through `types` already. -/

namespace Unbundle.Implementation
open Unbundle.Text Unbundle.Reference

/-- The line refers to the scope by its name, under one of the shared namespaces. -/
def RefersTo (scope : Scope) (line : String) : Prop :=
  ∃ space ∈ sharedNamespaces, BeginsToken (qualified space scope) line.toList

/-- The line has a piece that goes through `types`. -/
def ThroughTypes (line : String) : Prop :=
  ∃ space ∈ sharedNamespaces, (typesNamespace ++ "." ++ space ++ ".").toList <:+: line.toList

section Resolved
variable {imports : Imports} {context : Context} {content line : String} {scope : Scope}

theorem RefersTo.dotted (h : RefersTo scope line) : Dotted line.toList := by
  obtain ⟨space, hspace, before, after, hline, -⟩ := h
  refine (dotted_shared hspace).mono ⟨before, scope.qualification.toList ++ after, ?_⟩
  rw [hline, qualified_eq_append]
  simp

theorem ThroughTypes.dotted (h : ThroughTypes line) : Dotted line.toList := by
  obtain ⟨space, hspace, hinfix⟩ := h
  exact (dotted_moved hspace).mono hinfix

theorem exists_enumsPath {version : Option String}
    (h : ∀ v ∈ version, ∀ c ∈ v.toList, isIdentifierPart c = true) : ∃ behind : String,
    '.' ∉ behind.toList ∧
      context.enumsPath version = context.typesPath ++ "/" ++ enumsNamespace ++ behind := by
  unfold Context.enumsPath
  cases version with
  | none => exact ⟨"", by simp, by simp⟩
  | some v =>
    cases context.scope.version with
    | none =>
      have hdot := dot_notMem (h v rfl)
      exact ⟨"/" ++ v, by simpa using hdot, by simp [String.append_assoc]⟩
    | some _ => exact ⟨"", by simp, by simp⟩

theorem redirect_eq_or (hpath : context.typesPath ∈ ["./types", "../types"]) :
    context.redirect line = line ∨ ¬ Dotted (context.redirect line).toList := by
  have hstart : ∀ path ∈ ["./types", "../types"],
      ¬ Dotted ("export * from \"" ++ (path ++ "/" ++ enumsNamespace)).toList := by
    simp [Dotted, enumsNamespace, List.infix_cons_iff]
  have hend : '.' ∉ "\";".toList := by decide
  unfold Context.redirect
  cases hshared : sharedEnums? line with
  | none => exact .inl rfl
  | some found =>
    obtain ⟨module, version⟩ := found
    simp only
    split
    · right
      obtain ⟨-, -, -, -, hversion, -⟩ := of_sharedEnums? hshared
      obtain ⟨behind, hbehind, henums⟩ := @exists_enumsPath context _ hversion
      rw [henums, String.toList_append, dotted_append hend, ← String.append_assoc,
        String.toList_append, dotted_append hbehind]
      exact hstart _ hpath
    · exact .inl rfl

theorem adapt_eq_or (hpath : context.typesPath ∈ ["./types", "../types"]) :
    context.adapt line = (Rules.inImplementation context.scope).apply line ∨
      ¬ Dotted (context.adapt line).toList := by
  unfold Context.adapt
  simp only
  split
  · exact redirect_eq_or hpath
  · exact .inl rfl

theorem not_refersTo_adapt (hnames : PlainNames context.scope)
    (hpath : context.typesPath ∈ ["./types", "../types"]) :
    ¬ RefersTo context.scope (context.adapt line) := by
  intro hrefers
  rcases @adapt_eq_or context line hpath with hadapt | hplain
  · obtain ⟨space, hspace, hbegins⟩ := hrefers
    exact not_beginsToken_apply hnames hspace (hadapt ▸ hbegins)
  · exact hplain hrefers.dotted

/-- An adapted line goes through `types` if it did or had a reference to move there. -/
theorem throughTypes_adapt (hnames : PlainNames context.scope)
    (hpath : context.typesPath ∈ ["./types", "../types"]) :
    ThroughTypes (context.adapt line) ↔ RefersTo context.scope line ∨ ThroughTypes line := by
  constructor
  · intro hthrough
    rw [or_iff_not_imp_left]
    intro hnot
    rcases @adapt_eq_or context line hpath with hadapt | hplain
    · rwa [hadapt, apply_of_not_beginsToken hnames fun space hspace hbegins =>
        hnot ⟨space, hspace, hbegins⟩] at hthrough
    · exact absurd hthrough.dotted hplain
  · intro h
    have happly : ThroughTypes ((Rules.inImplementation context.scope).apply line) := by
      rcases h with ⟨space, hspace, hbegins⟩ | ⟨space, hspace, hinfix⟩
      · exact ⟨space, hspace, infix_apply hspace hnames hbegins⟩
      · exact exists_infix_apply hnames hspace hinfix
    unfold Context.adapt
    simpa only [redirect_moved happly.dotted, ite_self] using happly

theorem not_refersTo_body (hnames : PlainNames context.scope)
    (hpath : context.typesPath ∈ ["./types", "../types"]) :
    ¬ RefersTo context.scope (body imports context content) := by
  rintro ⟨space, hspace, hbegins⟩
  have hfits := hnames.fits_qualified (fits_shared hspace)
  have hjoined : BeginsToken (qualified space context.scope)
      (joinLines (((lines content).filter imports.keeps).map context.adapt)).toList := by
    obtain ⟨behind, hbehind, htext⟩ := @body_eq imports context content
    rw [htext] at hbegins
    rcases hbehind with rfl | rfl
    · rwa [List.append_nil] at hbegins
    · have hnewline : isTokenChar '\n' = false := by decide
      rw [beginsToken_append_cons qualified_ne_nil hfits hnewline] at hbegins
      exact hbegins.resolve_right (not_beginsToken_nil qualified_ne_nil)
  obtain ⟨line, hline, hbegins⟩ := (beginsToken_joinLines qualified_ne_nil hfits).1 hjoined
  obtain ⟨line, -, rfl⟩ := List.mem_map.1 hline
  exact not_refersTo_adapt hnames hpath ⟨space, hspace, hbegins⟩

theorem needsTypes_iff {text : String} : needsTypes text = true ↔ ThroughTypes text := by
  unfold needsTypes Text.contains ThroughTypes
  simp only [List.any_eq_true, occurs_iff]

theorem throughTypes_body : ThroughTypes (body imports context content) ↔
    ∃ line ∈ lines content, imports.keeps line = true ∧ ThroughTypes (context.adapt line) := by
  constructor
  · rintro ⟨space, hspace, hinfix⟩
    obtain ⟨line, hline, hkept, hinfix⟩ := (infix_body (by simp) (newline_notMem_moved hspace)).1 hinfix
    exact ⟨line, hline, hkept, space, hspace, hinfix⟩
  · rintro ⟨line, hline, hkept, space, hspace, hinfix⟩
    exact ⟨space, hspace,
      (infix_body (by simp) (newline_notMem_moved hspace)).2 ⟨line, hline, hkept, hinfix⟩⟩

/-- No line of an adapted file below its header refers to the scope by its name. The types of the
scope are imported in the header, behind the framework and the core, if and only if some line that
was kept did so or went through `types`. -/
theorem adaptSource_resolved (imports : Imports) (context : Context) (content : String)
    (hnames : PlainNames context.scope) (hpath : context.typesPath ∈ ["./types", "../types"]) :
    (∀ line ∈ lines (body imports context content), ¬ RefersTo context.scope line) ∧
    ((∃ line ∈ lines content, imports.keeps line = true ∧
        (RefersTo context.scope line ∨ ThroughTypes line)) →
      adaptSource imports context content = joinLines [imports.framework, imports.core,
        namespaceImport typesNamespace context.typesPath] ++ "\n" ++ body imports context content) ∧
    ((¬ ∃ line ∈ lines content, imports.keeps line = true ∧
        (RefersTo context.scope line ∨ ThroughTypes line)) →
      adaptSource imports context content =
        joinLines [imports.framework, imports.core] ++ "\n" ++ body imports context content) := by
  have hneeds : needsTypes (body imports context content) = true ↔ ∃ line ∈ lines content,
      imports.keeps line = true ∧ (RefersTo context.scope line ∨ ThroughTypes line) := by
    rw [needsTypes_iff, throughTypes_body]
    simp only [throughTypes_adapt hnames hpath]
  refine ⟨fun line hline ⟨space, hspace, hbegins⟩ => ?_, fun hsome => ?_, fun hnone => ?_⟩
  · exact not_refersTo_body hnames hpath ⟨space, hspace, beginsToken_of_mem_lines qualified_ne_nil
      (hnames.fits_qualified (fits_shared hspace)) hline hbegins⟩
  · unfold adaptSource header
    simp only [if_pos (hneeds.2 hsome), List.cons_append, List.nil_append]
  · unfold adaptSource header
    simp only [if_neg (mt hneeds.1 hnone), List.append_nil]

/-- A file of a version with an import that is dropped and a reference that is moved. -/
theorem adaptSource_resolved_web :
    PlainNames ⟨"web", some "v1"⟩ ∧
    RefersTo ⟨"web", some "v1"⟩ "export type Pages = inputs.web.v1.Page[];" ∧
    adaptSource ⟨defaultFrameworkImport, "@split/"⟩ ⟨⟨"web", some "v1"⟩, some "v1", true, "./types"⟩
        ("import * as other from \"../other\";\n" ++ "export type Pages = inputs.web.v1.Page[];\n") =
      "import * as pulumi from \"@pulumi/pulumi\";\n" ++
        "import * as utilities from \"@split/core/utilities\";\n" ++
        "import * as types from \"./types\";\n" ++ "export type Pages = types.inputs.Page[];\n" := by
  have hnames : PlainNames ⟨"web", some "v1"⟩ :=
    ⟨⟨by decide, by simp⟩, by simp [IsPlainName]⟩
  have hrefers : RefersTo ⟨"web", some "v1"⟩ "export type Pages = inputs.web.v1.Page[];" :=
    ⟨"inputs", by decide,
      @BeginsToken.of_all _ _ "export type Pages = ".toList "Page[];".toList (by decide) (by decide)⟩
  have hresolved := adaptSource_resolved ⟨defaultFrameworkImport, "@split/"⟩
    ⟨⟨"web", some "v1"⟩, some "v1", true, "./types"⟩
    ("import * as other from \"../other\";\n" ++ "export type Pages = inputs.web.v1.Page[];\n")
    hnames (by decide)
  refine ⟨hnames, hrefers, (hresolved.2.1 ⟨_, ?_, ?_, .inl hrefers⟩).trans ?_⟩
  · decide +kernel
  · decide +kernel
  · decide +kernel

end Resolved

end Unbundle.Implementation
