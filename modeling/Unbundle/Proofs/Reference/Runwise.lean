import Unbundle.Proofs.Reference.Cut
import Unbundle.Reference.Rules

/-! What the rules of a scope do to a line, run by run. Names of modules and versions are made of
token characters, and so are the patterns of all rules of a scope. On one run the rules of a slice
of types act in order; of those for implementation code at most one acts. -/

namespace Unbundle.Reference

def qualified (space : String) (scope : Scope) : List Char :=
  space.toList ++ '.' :: scope.qualification.toList

/-- A run in a slice of types: a module's own types lose their qualification, then its enums lose
the module. -/
def inTypesRun (scope : Scope) (direction : Direction) (run : List Char) : List Char :=
  swap (qualified enumsNamespace scope) (enumsNamespace ++ ".").toList
    (swap (qualified direction.namespaceName scope) [] run)

/-- A run in implementation code: the first namespace it refers to the scope under moves into
`types`. -/
def inImplementationRun (scope : Scope) (run : List Char) : List Char :=
  match sharedNamespaces.find? fun space => (qualified space scope).isPrefixOf run with
  | some space =>
    (typesNamespace ++ "." ++ space ++ ".").toList ++ run.drop (qualified space scope).length
  | none => run

def IsPlainName (name : String) : Prop :=
  name ≠ "" ∧ ∀ c ∈ name.toList, (c.isAlphanum || c == '_' || c == '$') = true

/-- Module and version are spelled with letters, digits, `_` and `$` only. -/
def PlainNames (scope : Scope) : Prop :=
  IsPlainName scope.module ∧ ∀ version ∈ scope.version, IsPlainName version

section Scoped
variable {scope : Scope} {direction : Direction}

theorem IsPlainName.fits {name : String} (h : IsPlainName name) :
    Segment.Fits (.run name.toList) :=
  fun c hc => by simp [isTokenChar, h.2 c hc]

theorem PlainNames.fits (h : PlainNames scope) :
    Segment.Fits (.run scope.qualification.toList) := by
  obtain ⟨module, version⟩ := scope
  have hmodule : Segment.Fits (.run module.toList) := h.1.fits
  have hdot : isTokenChar '.' = true := by decide
  cases version with
  | none => simpa [Scope.qualification, Scope.name, Segment.Fits, or_imp, forall_and, hdot]
      using hmodule
  | some version =>
    have hversion : Segment.Fits (.run version.toList) := (h.2 version rfl).fits
    simp only [Segment.Fits] at hmodule hversion
    simp only [Scope.qualification, Scope.name, Segment.Fits, String.toList_append,
      List.mem_append]
    grind

/-- A pattern is as long as its namespace makes it, since all qualify the same scope. -/
theorem precedes_qualified {a b q ra rb : String} :
    Rule.precedes ⟨a ++ "." ++ q, ra⟩ ⟨b ++ "." ++ q, rb⟩ =
      decide (b.utf8ByteSize ≤ a.utf8ByteSize) := by
  simp [Rule.precedes, String.utf8ByteSize_append]

theorem inTypes_toList : (Rules.inTypes scope direction).toList =
    [⟨direction.namespaceName ++ "." ++ scope.qualification, ""⟩,
     ⟨enumsNamespace ++ "." ++ scope.qualification, enumsNamespace ++ "."⟩] := by
  have henums : enumsNamespace.utf8ByteSize ≤ direction.namespaceName.utf8ByteSize := by
    cases direction <;> decide
  simp only [Rules.inTypes, Rules.ofList, stableSort, List.foldr, place, precedes_qualified, henums,
    decide_true, if_true]

theorem inImplementation_toList : (Rules.inImplementation scope).toList =
    ["outputs", "inputs", "enums"].map fun space =>
      ⟨space ++ "." ++ scope.qualification, typesNamespace ++ "." ++ space ++ "."⟩ := by
  have houtputs : "enums".utf8ByteSize ≤ "outputs".utf8ByteSize := by decide
  have hinputs : ¬ "outputs".utf8ByteSize ≤ "inputs".utf8ByteSize := by decide
  have henums : "enums".utf8ByteSize ≤ "inputs".utf8ByteSize := by decide
  simp only [Rules.inImplementation, Rules.ofList, sharedNamespaces, Direction.namespaceName,
    enumsNamespace, stableSort, List.map, List.foldr, place, precedes_qualified, houtputs, hinputs,
    henums, decide_true, decide_false, if_true, Bool.false_eq_true, if_false]

theorem qualified_eq {space : String} :
    (space ++ "." ++ scope.qualification).toList = qualified space scope := by
  simp [qualified]

theorem PlainNames.inRun (h : PlainNames scope) {space replacement : String}
    (hs : Segment.Fits (.run space.toList)) (hr : Segment.Fits (.run replacement.toList)) :
    Rule.InRun ⟨space ++ "." ++ scope.qualification, replacement⟩ := by
  refine ⟨by simp, ?_, hr⟩
  rw [qualified_eq]
  have hdot : isTokenChar '.' = true := by decide
  have hq := h.fits
  simp only [Segment.Fits, qualified, List.mem_append, List.mem_cons] at hs hq ⊢
  grind

theorem apply_inTypes {segments : List Segment} {line : String} (h : PlainNames scope)
    (hs : Spaced segments) (hline : line.toList = textOf segments) :
    ((Rules.inTypes scope direction).apply line).toList =
      textOf (segments.map (Segment.onRun (inTypesRun scope direction))) := by
  have hrules : ∀ rule ∈ (Rules.inTypes scope direction).toList, rule.InRun := by
    rw [inTypes_toList]
    simp only [List.forall_mem_cons, List.not_mem_nil, false_implies, implies_true, and_true]
    refine ⟨h.inRun ?_ (by simp [Segment.Fits]), h.inRun (by decide) (by decide)⟩
    cases direction <;> decide
  rw [Rules.apply, foldl_apply_spaced hrules hs hline, inTypes_toList]
  simp only [List.foldl, Rule.onRun, qualified_eq]
  rfl

theorem isPrefixOf_qualified_of_head_ne {space : String} {run : List Char}
    (hs : space.toList ≠ []) (h : run.head? ≠ space.toList.head?) :
    (qualified space scope).isPrefixOf run = false := by
  rw [Bool.eq_false_iff, ne_eq, List.isPrefixOf_iff_prefix]
  rintro ⟨rest, rfl⟩
  cases hspace : space.toList with
  | nil => exact hs hspace
  | cons c chars => simp [qualified, hspace] at h

theorem head?_of_isPrefixOf_qualified {space : String} {run : List Char}
    (hs : space.toList ≠ []) (h : (qualified space scope).isPrefixOf run = true) :
    run.head? = space.toList.head? := by
  by_contra hne
  simp [isPrefixOf_qualified_of_head_ne hs hne] at h

theorem swap_moved {space moved : String} {replacement rest : List Char}
    (hs : space.toList ≠ []) (h : space.toList.head? ≠ some 't') :
    swap (qualified space scope) replacement
        ((typesNamespace ++ "." ++ moved ++ ".").toList ++ rest) =
      (typesNamespace ++ "." ++ moved ++ ".").toList ++ rest := by
  refine swap_of_not_isPrefixOf (isPrefixOf_qualified_of_head_ne hs ?_)
  simpa [typesNamespace] using Ne.symm h

/-- At most one of the rules changes a run. -/
theorem foldl_onRun_inImplementation {run : List Char} :
    (Rules.inImplementation scope).toList.foldl (fun run rule => rule.onRun run) run =
      inImplementationRun scope run := by
  rw [inImplementation_toList]
  simp only [List.map, List.foldl, Rule.onRun, qualified_eq, inImplementationRun, sharedNamespaces,
    Direction.namespaceName, enumsNamespace, List.find?]
  cases hi : (qualified "inputs" scope).isPrefixOf run with
  | true =>
    have ho : (qualified "outputs" scope).isPrefixOf run = false := by
      apply isPrefixOf_qualified_of_head_ne (by decide)
      rw [head?_of_isPrefixOf_qualified (by decide) hi]
      decide
    rw [swap_of_not_isPrefixOf ho, swap_of_isPrefixOf hi, swap_moved (by decide) (by decide)]
  | false =>
    cases ho : (qualified "outputs" scope).isPrefixOf run with
    | true =>
      rw [swap_of_isPrefixOf ho, swap_moved (by decide) (by decide),
        swap_moved (by decide) (by decide)]
    | false =>
      rw [swap_of_not_isPrefixOf ho, swap_of_not_isPrefixOf hi]
      cases he : (qualified "enums" scope).isPrefixOf run with
      | true => rw [swap_of_isPrefixOf he]
      | false => rw [swap_of_not_isPrefixOf he]

theorem PlainNames.inRun_inImplementation (h : PlainNames scope) :
    ∀ rule ∈ (Rules.inImplementation scope).toList, rule.InRun := by
  rw [inImplementation_toList]
  simp only [List.map, List.forall_mem_cons, List.not_mem_nil, false_implies, implies_true, and_true]
  exact ⟨h.inRun (by decide) (by decide), h.inRun (by decide) (by decide),
    h.inRun (by decide) (by decide)⟩

theorem apply_inImplementation {segments : List Segment} {line : String} (h : PlainNames scope)
    (hs : Spaced segments) (hline : line.toList = textOf segments) :
    ((Rules.inImplementation scope).apply line).toList =
      textOf (segments.map (Segment.onRun (inImplementationRun scope))) := by
  rw [Rules.apply, foldl_apply_spaced h.inRun_inImplementation hs hline]
  simp only [foldl_onRun_inImplementation]

end Scoped

/-- The rules of a scope work on each run of a line by itself and leave every other character where
it is. -/
theorem apply_runwise (scope : Scope) (direction : Direction) (line : String)
    (h : PlainNames scope) :
    (∃! segments, Splits line.toList segments) ∧ ∀ segments, Splits line.toList segments →
      ((Rules.inTypes scope direction).apply line).toList =
        textOf (segments.map (Segment.onRun (inTypesRun scope direction))) ∧
      ((Rules.inImplementation scope).apply line).toList =
        textOf (segments.map (Segment.onRun (inImplementationRun scope))) := by
  refine ⟨⟨segmentsOf line.toList, splits_segmentsOf, fun _ hs => hs.eq_segmentsOf⟩, ?_⟩
  intro segments hs
  exact ⟨apply_inTypes h hs.toSpaced hs.text.symm, apply_inImplementation h hs.toSpaced hs.text.symm⟩

theorem apply_runwise_scan : PlainNames ⟨"scan", some "v1"⟩ ∧
    ((Rules.inTypes ⟨"scan", some "v1"⟩ .inputs).apply
        "a(inputs.scan.v1.enums.scan.v1.B)").toList = "a(enums.B)".toList ∧
    ((Rules.inImplementation ⟨"scan", some "v1"⟩).apply
        "a(inputs.scan.v1.enums.scan.v1.B)").toList =
      "a(types.inputs.enums.scan.v1.B)".toList := by
  have h : PlainNames ⟨"scan", some "v1"⟩ := by
    refine ⟨⟨by decide, by simp⟩, fun version hv => ?_⟩
    obtain rfl : "v1" = version := Option.some.inj hv
    exact ⟨by decide, by simp⟩
  have hruns := (apply_runwise _ .inputs "a(inputs.scan.v1.enums.scan.v1.B)" h).2 _
    splits_segmentsOf
  exact ⟨h, hruns.1.trans (by decide), hruns.2.trans (by decide)⟩

end Unbundle.Reference
