import Unbundle.Implementation.Module
import Unbundle.Proofs.Reference.Residue
import Unbundle.Proofs.Text.Lines

/-! Re-exports of enums. In such a line every dot begins a climb to the directory above, so that it
holds no reference for the rules to move, and what the rules have moved is no such line. -/

namespace Unbundle.Implementation
open Unbundle.Text Unbundle.Reference

/-- A name that ends with `s` stands before a dot, as the namespaces of references do. -/
def Dotted (s : List Char) : Prop := ['.', 's'] <:+: s.reverse

section Dotted
variable {s t : List Char}

theorem Dotted.mono (h : s <:+: t) (hs : Dotted s) : Dotted t :=
  List.IsInfix.trans hs (List.reverse_infix.2 h)

theorem dotted_concat (h : s.getLast? = some 's') : Dotted (s ++ ['.']) := by
  obtain ⟨before, rfl⟩ := List.getLast?_eq_some_iff.1 h
  exact ⟨[], before.reverse, by simp⟩

theorem dotted_shared {space : String} (h : space ∈ sharedNamespaces) :
    Dotted (space ++ ".").toList := by
  have hlast : ∀ space ∈ sharedNamespaces, space.toList.getLast? = some 's' := by decide
  rw [String.toList_append]
  exact dotted_concat (hlast space h)

theorem dotted_append (h : '.' ∉ t) : Dotted (s ++ t) ↔ Dotted s := by
  have hback : ∀ back : List Char, '.' ∉ back →
      (['.', 's'] <:+: back ++ s.reverse ↔ ['.', 's'] <:+: s.reverse) := by
    intro back hback
    induction back with
    | nil => rfl
    | cons c back ih =>
      obtain ⟨hc, hback⟩ := not_or.1 (mt List.mem_cons.2 hback)
      rw [List.cons_append, List.infix_cons_iff, ih hback, or_iff_right]
      rintro ⟨rest, hrest⟩
      exact hc (List.cons.inj hrest).1
  unfold Dotted
  rw [List.reverse_append]
  exact hback t.reverse (by simpa using h)

theorem dotted_climb (h : s.getLast? ≠ some 's') : Dotted (s ++ "../".toList) ↔ Dotted s := by
  have hreverse : (s ++ "../".toList).reverse = '/' :: '.' :: '.' :: s.reverse := by simp
  unfold Dotted
  rw [hreverse, List.infix_cons_iff, List.infix_cons_iff, List.infix_cons_iff]
  cases hs : s.reverse with
  | nil => simp
  | cons c rest =>
    have hc : c ≠ 's' := by
      rintro rfl
      exact h (by rw [← List.head?_reverse, hs]; rfl)
    simp [Ne.symm hc]

end Dotted

def climb (n : Nat) : List Char := (List.replicate n "../".toList).flatten

section Climbs
variable {s : List Char} {n : Nat}

theorem climb_succ : climb (n + 1) = "../".toList ++ climb n := rfl

theorem dropClimbs_climb (h : s.head? ≠ some '.') : dropClimbs (climb n ++ s) = s := by
  induction n with
  | zero =>
    cases s with
    | nil => rfl
    | cons c s =>
      have hc : c ≠ '.' := fun heq => h (congrArg some heq)
      change dropClimbs (c :: s) = c :: s
      unfold dropClimbs
      split
      · next heq => exact absurd (List.cons.inj heq).1 hc
      · rfl
  | succ n ih =>
    rw [climb_succ, List.append_assoc]
    exact ih

theorem exists_climb (s : List Char) : ∃ n, s = climb n ++ dropClimbs s := by
  induction s using dropClimbs.induct with
  | case1 rest ih =>
    obtain ⟨n, hn⟩ := ih
    refine ⟨n + 1, ?_⟩
    rw [climb_succ, List.append_assoc, dropClimbs, ← hn]
    rfl
  | case2 rest hrest => exact ⟨0, by simp [climb, dropClimbs]⟩

theorem dotted_climbs (h : s.getLast? ≠ some 's') : Dotted (s ++ climb n) ↔ Dotted s := by
  induction n generalizing s with
  | zero => simp [climb]
  | succ n ih =>
    rw [climb_succ, ← List.append_assoc, ih (by simp), dotted_climb h]

end Climbs

/-- What the name of a module or of a version is made of in a re-export. -/
def IsEnumsName (name : String) : Prop :=
  name ≠ "" ∧ ∀ c ∈ name.toList, isIdentifierPart c = true

theorem IsEnumsName.of_all {name : String} (hne : name ≠ "")
    (hchars : name.toList.all isIdentifierPart = true) : IsEnumsName name :=
  ⟨hne, List.all_eq_true.1 hchars⟩

def behindModule : Option String → List Char
  | none => []
  | some version => '/' :: version.toList

/-- The re-export of a scope's enums from the tree of all enums, so many directories up and one
more. -/
def sharedReexport (climbs : Nat) (module : String) (version : Option String) : String :=
  "export * from \"../" ++ String.ofList (climb climbs) ++ "types/enums/" ++ module ++
    String.ofList (behindModule version) ++ "\";"

section Reexports
variable {line module : String} {version : Option String} {climbs : Nat} {s rest name : List Char}
  {context : Context}

theorem many1?_append {p : Char → Bool} (hne : name ≠ []) (hname : ∀ c ∈ name, p c = true)
    (hrest : ∀ c ∈ rest.head?, p c = false) : many1? p (name ++ rest) = some (name, rest) := by
  have htake : rest.takeWhile p = [] ∧ rest.dropWhile p = rest := by
    cases rest with
    | nil => exact ⟨rfl, rfl⟩
    | cons c rest => simp [hrest c rfl]
  unfold many1? spanChars
  rw [List.takeWhile_append_of_pos hname, List.dropWhile_append_of_pos hname, htake.1, htake.2,
    List.append_nil]
  simp [hne]

theorem of_many1? {p : Char → Bool} (h : many1? p s = some (name, rest)) :
    s = name ++ rest ∧ ∀ c ∈ name, p c = true := by
  unfold many1? spanChars at h
  simp only at h
  split at h
  · cases h
  · cases h
    exact ⟨List.takeWhile_append_dropWhile.symm, List.all_eq_true.1 List.all_takeWhile⟩

theorem toList_sharedReexport : (sharedReexport climbs module version).toList =
    "export * from \"../".toList ++ (climb climbs ++ ("types/enums/".toList ++
      (module.toList ++ (behindModule version ++ "\";".toList)))) := by
  unfold sharedReexport
  simp only [String.toList_append, String.toList_ofList, List.append_assoc]

theorem after?_append {pattern : List Char} : after? pattern (pattern ++ s) = some s :=
  after?_eq_some.2 rfl

theorem dot_notMem (h : ∀ c ∈ name, isIdentifierPart c = true) : '.' ∉ name := fun hmem =>
  absurd (h _ hmem) (by decide)

theorem dot_notMem_of_allBlank (h : allBlank s = true) : '.' ∉ s := fun hmem =>
  absurd (List.all_eq_true.1 h _ hmem) (by decide)

def version? (s : List Char) : Option (Option (List Char) × List Char) :=
  match after? ['/'] s with
  | none => some (none, s)
  | some rest => (many1? isIdentifierPart rest).map fun read => (some read.1, read.2)

theorem of_version? {found : Option (List Char)} (h : version? s = some (found, rest)) :
    s = behindModule (found.map String.ofList) ++ rest ∧
      ∀ v ∈ found.map String.ofList, ∀ c ∈ v.toList, isIdentifierPart c = true := by
  unfold version? at h
  split at h
  · cases h
    exact ⟨rfl, nofun⟩
  · next rest' hslash =>
    obtain ⟨⟨name, rest''⟩, hread, heq⟩ := Option.map_eq_some_iff.1 h
    cases heq
    rw [after?_eq_some] at hslash
    obtain ⟨hread, hchars⟩ := of_many1? hread
    refine ⟨?_, fun v hv c hc => ?_⟩
    · rw [hslash, hread]
      simp [behindModule]
    · obtain rfl : String.ofList name = v := by simpa using hv
      exact hchars c (by simpa using hc)

theorem not_identifierPart_end : ∀ c ∈ "\";".toList.head?, isIdentifierPart c = false := by
  intro c hc
  obtain rfl : '"' = c := by simpa using hc
  decide

theorem version?_behindModule (hversion : ∀ v ∈ version, IsEnumsName v) :
    version? (behindModule version ++ "\";".toList) =
      some (version.map String.toList, "\";".toList) := by
  cases version with
  | none => rfl
  | some version =>
    have hread : many1? isIdentifierPart (version.toList ++ "\";".toList) =
        some (version.toList, "\";".toList) :=
      many1?_append (by simpa using (hversion version rfl).1) (hversion version rfl).2
        not_identifierPart_end
    have hslash : after? ['/'] (behindModule (some version) ++ "\";".toList) =
        some (version.toList ++ "\";".toList) := rfl
    unfold version?
    rw [hslash]
    simp only
    rw [hread]
    rfl

theorem sharedEnums?_eq : sharedEnums? line = (after? "export * from \"../".toList line.toList).bind
    fun rest => (after? "types/enums/".toList (dropClimbs rest)).bind
    fun rest => (many1? isIdentifierPart rest).bind
    fun named => (version? named.2).bind
    fun versioned => (after? "\";".toList versioned.2).bind
    fun rest => if allBlank rest then
      some (String.ofList named.1, versioned.1.map String.ofList) else none := by
  unfold sharedEnums? version?
  simp only [Option.bind_eq_bind]
  congr 1; funext rest
  congr 1; funext rest
  congr 1; funext named
  cases after? ['/'] named.2 <;> rfl

theorem sharedEnums?_sharedReexport (hmodule : IsEnumsName module)
    (hversion : ∀ v ∈ version, IsEnumsName v) :
    sharedEnums? (sharedReexport climbs module version) = some (module, version) := by
  have hclimbs : ("types/enums/".toList ++ (module.toList ++
      (behindModule version ++ "\";".toList))).head? ≠ some '.' := by
    have hfirst : "types/enums/".toList.head? = some 't' := by decide
    rw [List.head?_append, hfirst]
    simp
  have hname : many1? isIdentifierPart (module.toList ++ (behindModule version ++ "\";".toList)) =
      some (module.toList, behindModule version ++ "\";".toList) := by
    refine many1?_append (by simpa using hmodule.1) hmodule.2 ?_
    cases version with
    | none => exact not_identifierPart_end
    | some version =>
      intro c hc
      obtain rfl : '/' = c := by simpa [behindModule] using hc
      decide
  rw [sharedEnums?_eq, toList_sharedReexport, after?_append, Option.bind_some,
    dropClimbs_climb hclimbs, after?_append, Option.bind_some, hname, Option.bind_some,
    version?_behindModule hversion, Option.bind_some]
  have hend : after? "\";".toList "\";".toList = some [] := by decide
  rw [hend, Option.bind_some]
  cases version with
  | none => simp [allBlank]
  | some version => simp [allBlank]

theorem of_sharedEnums? (h : sharedEnums? line = some (module, version)) : ∃ climbs blanks,
    allBlank blanks = true ∧ (∀ c ∈ module.toList, isIdentifierPart c = true) ∧
    (∀ v ∈ version, ∀ c ∈ v.toList, isIdentifierPart c = true) ∧
    line.toList = "export * from \"../".toList ++ climb climbs ++ "types/enums/".toList ++
      module.toList ++ behindModule version ++ "\";".toList ++ blanks := by
  rw [sharedEnums?_eq] at h
  obtain ⟨rest, hstart, h⟩ := Option.bind_eq_some_iff.1 h
  obtain ⟨rest₁, henums, h⟩ := Option.bind_eq_some_iff.1 h
  obtain ⟨⟨name, rest₂⟩, hname, h⟩ := Option.bind_eq_some_iff.1 h
  obtain ⟨⟨found, rest₃⟩, hfound, h⟩ := Option.bind_eq_some_iff.1 h
  obtain ⟨blanks, hend, h⟩ := Option.bind_eq_some_iff.1 h
  split at h
  · next hblanks =>
    cases h
    rw [after?_eq_some] at hstart henums hend
    obtain ⟨hname, hchars⟩ := of_many1? hname
    obtain ⟨hversion, hversionChars⟩ := of_version? hfound
    simp only at hversion hend
    obtain ⟨n, hclimb⟩ := exists_climb rest
    refine ⟨n, blanks, hblanks, by simpa using hchars, hversionChars, ?_⟩
    rw [hstart, hclimb, henums, hname, hversion, hend]
    simp only [String.toList_ofList, List.append_assoc]
  · cases h

theorem not_dotted_of_sharedEnums? (h : sharedEnums? line = some (module, version)) :
    ¬ Dotted line.toList := by
  obtain ⟨climbs, blanks, hblanks, hmodule, hversion, hline⟩ := of_sharedEnums? h
  have hbehind : '.' ∉ behindModule version := by
    cases version with
    | none => simp [behindModule]
    | some version =>
      have hdot := dot_notMem (hversion version rfl)
      simpa [behindModule] using hdot
  have hfrom : ¬ Dotted "export * from \"../".toList := by simp [Dotted, List.infix_cons_iff]
  have hclimbs : "export * from \"../".toList.getLast? ≠ some 's' := by decide
  have henums : '.' ∉ "types/enums/".toList := by decide
  have hend : '.' ∉ "\";".toList := by decide
  rw [hline, dotted_append (dot_notMem_of_allBlank hblanks), dotted_append hend,
    dotted_append hbehind, dotted_append (dot_notMem hmodule), dotted_append henums,
    dotted_climbs hclimbs]
  exact hfrom

/-! The rules for references. -/

theorem cut_of_absent {pattern : List Char} {fresh keep : Bool} (h : ¬ pattern <:+: s) :
    cut pattern fresh 0 keep s = s.map .kept := by
  induction s generalizing fresh keep with
  | nil => rfl
  | cons c s ih =>
    rw [List.infix_cons_iff, not_or] at h
    have hprefix : pattern.isPrefixOf (c :: s) = false := by
      rw [Bool.eq_false_iff, ne_eq, List.isPrefixOf_iff_prefix]
      exact h.1
    simp only [cut, hprefix, Bool.false_eq_true, if_false, List.map_cons, ih h.2]

theorem apply_of_absent {rule : Rule} (h : ¬ rule.pattern.toList <:+: line.toList) :
    rule.apply line = line := by
  have hpieces : rule.pieces line = line.toList.map .kept := by
    unfold Rule.pieces
    simp only [cut_of_absent h, ite_self]
  unfold Rule.apply
  rw [hpieces, List.flatMap_map]
  simp [Piece.text]

/-- The rules for implementation code move nothing but names before a dot. -/
theorem apply_of_not_dotted {scope : Scope} (h : ¬ Dotted line.toList) :
    (Rules.inImplementation scope).apply line = line := by
  have hshared : ∀ space ∈ ["outputs", "inputs", "enums"], space ∈ sharedNamespaces := by decide
  have hrules : ∀ rule ∈ (Rules.inImplementation scope).toList, rule.apply line = line := by
    rw [inImplementation_toList]
    intro rule hrule
    obtain ⟨space, hspace, rfl⟩ := List.mem_map.1 hrule
    refine apply_of_absent fun hinfix => h ((dotted_shared (hshared space hspace)).mono (.trans ?_ hinfix))
    exact ⟨[], scope.qualification.toList, by simp⟩
  unfold Rules.apply
  generalize (Rules.inImplementation scope).toList = rules at hrules
  induction rules with
  | nil => rfl
  | cons rule rules ih =>
    obtain ⟨hrule, hrest⟩ := List.forall_mem_cons.1 hrules
    rw [List.foldl_cons, hrule, ih hrest]

end Reexports

end Unbundle.Implementation
