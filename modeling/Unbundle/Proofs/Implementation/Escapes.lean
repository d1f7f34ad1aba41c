import Unbundle.Proofs.Declaration.Openers
import Unbundle.Proofs.Files.Route
import Unbundle.Proofs.Implementation.Adapted
import Unbundle.Proofs.Reference.Reworded

/-! Imports that lead out of a file's directory. Rewording the references of a line changes names in
the path of an import at most, so that the path goes up and down as it did before. In an adapted
file there is then one that leads out if and only if such a one was kept, and none is kept that goes
up at once and then on. -/

namespace Unbundle.Implementation
open Unbundle.Text Unbundle.Reference

/-- What stands between two slashes of a path, whatever its name is. -/
inductive Component where
  | none
  | here
  | up
  | into
deriving DecidableEq, Repr

def Component.ofPiece (piece : List Char) : Component :=
  if piece = [] then .none
  else if piece = ['.'] then .here
  else if piece = ['.', '.'] then .up
  else .into

def componentsIn (s : List Char) : List Component := (Files.Path.pieces s).map .ofPiece

def components (path : String) : List Component := componentsIn path.toList

/-- Goes through components from so many directories below the first. Does it get above that one? -/
def leaves : Nat → List Component → Bool
  | _, [] => false
  | depth, .into :: rest => leaves (depth + 1) rest
  | 0, .up :: _ => true
  | depth + 1, .up :: rest => leaves depth rest
  | depth, .none :: rest | depth, .here :: rest => leaves depth rest

def isRelative : List Component → Bool
  | .here :: _ | .up :: _ => true
  | _ => false

/-- A relative path that gets above the directory it starts in. -/
def climbsOut (path : String) : Bool :=
  isRelative (components path) && leaves 0 (components path)

/-- An import by a path that gets above the directory of the file. -/
def escapes (line : String) : Bool := (importPath? line).any climbsOut

/-- An import by a path of such components. -/
def ImportsBy (P : List Component → Prop) (line : String) : Prop :=
  ∃ path, importPath? line = some path ∧ P (components path)

section Components
variable {s t : List Char} {path : String}

theorem ofPiece_eq_up : Component.ofPiece s = .up ↔ s = ['.', '.'] := by
  unfold Component.ofPiece
  split
  · simp_all
  · split <;> simp_all

theorem ofPiece_eq_here : Component.ofPiece s = .here ↔ s = ['.'] := by
  unfold Component.ofPiece
  split
  · simp_all
  · split
    · simp_all
    · split <;> simp_all

theorem ofPiece_eq_into (h : ∃ c ∈ s, c ≠ '.') : Component.ofPiece s = .into := by
  obtain ⟨c, hc, hdot⟩ := h
  unfold Component.ofPiece
  rw [if_neg (List.ne_nil_of_mem hc), if_neg, if_neg]
  · rintro rfl
    simp [hdot] at hc
  · rintro rfl
    simp [hdot] at hc

theorem componentsIn_append_slash :
    componentsIn (s ++ '/' :: t) = componentsIn s ++ componentsIn t := by
  rw [componentsIn, Files.Path.pieces_append_slash, List.map_append]
  rfl

theorem componentsIn_of_notMem (h : '/' ∉ s) : componentsIn s = [.ofPiece s] := by
  rw [componentsIn, Files.Path.pieces_of_notMem h]
  rfl

theorem componentsIn_ne_nil : componentsIn s ≠ [] := by
  simpa [componentsIn] using Files.Path.pieces_ne_nil

/-- Rewording a path leaves every component what it was. -/
theorem componentsIn_of_reworded (h : Reworded s t) : componentsIn t = componentsIn s := by
  induction hlength : s.length using Nat.strong_induction_on generalizing s t with
  | _ n ih =>
    have hslash : '/' ∈ borders := by decide
    by_cases hs : '/' ∈ s
    · obtain ⟨first, rest, rfl⟩ := List.append_of_mem hs
      obtain ⟨first', rest', rfl, hfirst, hrest⟩ := h.split hslash
      rw [List.length_append, List.length_cons] at hlength
      rw [componentsIn_append_slash, componentsIn_append_slash, ih _ (by omega) hfirst rfl,
        ih _ (by omega) hrest rfl]
    · have ht : '/' ∉ t := mt (h.border_mem hslash) hs
      rw [componentsIn_of_notMem hs, componentsIn_of_notMem ht]
      rcases h.eq_or_named with rfl | ⟨hs, ht⟩
      · rfl
      · rw [ofPiece_eq_into hs, ofPiece_eq_into ht]

theorem componentsIn_cases (s : List Char) : componentsIn s = [.ofPiece s] ∨ ∃ first rest,
    s = first ++ '/' :: rest ∧ componentsIn s = .ofPiece first :: componentsIn rest := by
  by_cases hs : '/' ∈ s
  · obtain ⟨first, rest, rfl, hfirst⟩ := List.eq_append_cons_of_mem hs
    exact .inr ⟨first, rest, rfl, by
      rw [componentsIn_append_slash, componentsIn_of_notMem hfirst, List.singleton_append]⟩
  · exact .inl (componentsIn_of_notMem hs)

theorem climb_prefix_iff : "../".toList <+: path.toList ↔
    ∃ second rest, components path = .up :: second :: rest := by
  constructor
  · rintro ⟨rest, hrest⟩
    have htext : path.toList = ['.', '.'] ++ '/' :: rest := hrest.symm
    obtain ⟨second, more, hmore⟩ := List.exists_cons_of_ne_nil (@componentsIn_ne_nil rest)
    refine ⟨second, more, ?_⟩
    rw [components, htext, componentsIn_append_slash, hmore]
    rfl
  · rintro ⟨second, more, hpath⟩
    rcases componentsIn_cases path.toList with hone | ⟨first, rest, htext, hmany⟩
    · cases (List.cons.inj (hone.symm.trans hpath)).2
    · obtain ⟨hup, -⟩ := List.cons.inj (hmany.symm.trans hpath)
      rw [htext, ofPiece_eq_up.1 hup]
      exact ⟨rest, rfl⟩

/-- A path that gets out in another way goes up and ends there, or begins where it is. -/
theorem eq_or_prefix_of_climbsOut (h : climbsOut path = true)
    (hclimb : ¬ "../".toList <+: path.toList) : path = ".." ∨ "./".toList <+: path.toList := by
  obtain ⟨hrelative, hleaves⟩ := (Bool.and_eq_true _ _).mp h
  rcases componentsIn_cases path.toList with hone | ⟨first, rest, htext, hmany⟩
  · rw [components, hone] at hrelative hleaves
    cases hpiece : Component.ofPiece path.toList with
    | none => simp [hpiece, isRelative] at hrelative
    | into => simp [hpiece, isRelative] at hrelative
    | here => simp [hpiece, leaves] at hleaves
    | up => exact .inl (String.toList_injective (ofPiece_eq_up.1 hpiece))
  · rw [components, hmany] at hrelative
    cases hpiece : Component.ofPiece first with
    | none => simp [hpiece, isRelative] at hrelative
    | into => simp [hpiece, isRelative] at hrelative
    | here =>
      rw [htext, ofPiece_eq_here.1 hpiece]
      exact .inr ⟨rest, rfl⟩
    | up =>
      rw [htext, ofPiece_eq_up.1 hpiece] at hclimb
      exact absurd ⟨rest, rfl⟩ hclimb

end Components

section Imports
variable {imports : Imports} {context : Context} {content line line' path : String}
  {s rest name : List Char}

theorem dot_notMem_of_isIdentifier (h : Declaration.IsIdentifier name) : '.' ∉ name := by
  cases name with
  | nil => simp
  | cons c name =>
    have hc : '.' ≠ c := by
      rintro rfl
      exact absurd h.1 (by decide)
    simpa [hc] using dot_notMem h.2

theorem ne_nil_of_many1? {p : Char → Bool} (h : many1? p s = some (name, rest)) : name ≠ [] := by
  unfold many1? spanChars at h
  simp only at h
  split at h
  · cases h
  · next hne =>
    cases h
    simpa using hne

theorem importPath?_eq_some : importPath? line = some path ↔
    path.toList ≠ [] ∧ '"' ∉ path.toList ∧ ∃ name blanks, Declaration.IsIdentifier name ∧
      allBlank blanks = true ∧ line.toList = ("import * as ".toList ++ name ++ " from ".toList) ++
        '"' :: (path.toList ++ '"' :: ';' :: blanks) := by
  have hquote : ∀ c, (c != '"') = true ↔ '"' ≠ c := fun _ => bne_iff_ne.trans ne_comm
  unfold importPath?
  simp only [Option.bind_eq_bind, Option.bind_eq_some_iff]
  constructor
  · rintro ⟨rest₁, hstart, ⟨name, rest₂⟩, hname, rest₃, hfrom, ⟨path', rest₄⟩, hpath, blanks, hend,
      h⟩
    split at h
    · next hblanks =>
      cases h
      rw [after?_eq_some] at hstart hfrom hend
      simp only at hfrom hend
      obtain ⟨hname, hidentifier, -⟩ := Declaration.identifier?_eq_some.1 hname
      have hne := ne_nil_of_many1? hpath
      obtain ⟨hpath, hchars⟩ := of_many1? hpath
      refine ⟨by simpa using hne, ?_, name, blanks, hidentifier, hblanks, ?_⟩
      · rw [String.toList_ofList]
        exact fun hmem => (hquote _).1 (hchars _ hmem) rfl
      · rw [hstart, hname, hfrom, hpath, hend]
        simp
    · cases h
  · rintro ⟨hne, hclean, name, blanks, hname, hblanks, hline⟩
    have hchars : ∀ c ∈ path.toList, (c != '"') = true := by
      intro c hc
      rw [hquote]
      rintro rfl
      exact hclean hc
    refine ⟨name ++ (" from \"".toList ++ (path.toList ++ ("\";".toList ++ blanks))),
      after?_eq_some.2 (by rw [hline]; simp), (name, _), Declaration.identifier?_eq_some.2
        ⟨rfl, hname, ?_⟩, _, after?_append, (path.toList, _), many1?_append hne hchars ?_, blanks,
      after?_append, ?_⟩
    · intro c hc
      obtain rfl : ' ' = c := by simpa using hc
      decide
    · intro c hc
      obtain rfl : '"' = c := by simpa using hc
      decide
    · rw [if_pos hblanks, String.ofList_toList]

theorem exists_importPath?_of_reworded (h : Reworded line.toList line'.toList)
    (himport : importPath? line = some path) :
    ∃ path', importPath? line' = some path' ∧ components path' = components path := by
  obtain ⟨hne, hclean, name, blanks, hname, hblanks, hline⟩ := importPath?_eq_some.1 himport
  have hquote : '"' ∈ borders := by decide
  have hblanksDot := dot_notMem_of_allBlank hblanks
  have hstart : '.' ∉ "import * as ".toList ++ name ++ " from ".toList := by
    have hfixed : '.' ∉ "import * as ".toList ∧ '.' ∉ " from ".toList := by decide
    simp only [List.mem_append, hfixed.1, hfixed.2, dot_notMem_of_isIdentifier hname, or_self,
      not_false_iff]
  rw [hline] at h
  obtain ⟨start, behind, hline', hfirst, h⟩ := h.split hquote
  obtain ⟨path', last, rfl, hpath, h⟩ := h.split hquote
  obtain rfl := hfirst.eq_of_not_dotted hstart
  obtain rfl := h.eq_of_not_dotted (by simpa using hblanksDot)
  obtain ⟨path', rfl⟩ : ∃ text : String, text.toList = path' :=
    ⟨String.ofList path', String.toList_ofList⟩
  refine ⟨path', importPath?_eq_some.2 ⟨?_, ?_, name, blanks, hname, hblanks, hline'⟩,
    componentsIn_of_reworded hpath⟩
  · intro hnil
    rw [hnil] at hpath
    exact hne (hpath.symm.eq_of_not_dotted (by simp))
  · exact mt (hpath.border_mem hquote) hclean

theorem components_importPath?_of_reworded (h : Reworded line.toList line'.toList) :
    (importPath? line').map components = (importPath? line).map components := by
  cases himport : importPath? line with
  | some path =>
    obtain ⟨path', himport', hsame⟩ := exists_importPath?_of_reworded h himport
    rw [himport', Option.map_some, Option.map_some, hsame]
  | none =>
    cases himport' : importPath? line' with
    | none => rfl
    | some path' =>
      obtain ⟨path, hsome, -⟩ := exists_importPath?_of_reworded h.symm himport'
      cases himport.symm.trans hsome

theorem importPath?_return : importPath? (line ++ "\r") = importPath? line := by
  refine Option.ext fun path => ?_
  rw [importPath?_eq_some, importPath?_eq_some]
  have hreturn : isBlank '\r' = true := by decide
  refine and_congr_right fun _ => and_congr_right fun _ => ⟨?_, ?_⟩
  · rintro ⟨name, blanks, hname, hblanks, hline⟩
    rw [String.toList_append] at hline
    rcases List.eq_nil_or_concat' blanks with rfl | ⟨blanks, c, rfl⟩
    · obtain ⟨-, hend⟩ : line.toList = ("import * as ".toList ++ name ++ " from ".toList) ++
          '"' :: (path.toList ++ ['"']) ∧ ['\r'] = [';'] :=
        List.append_inj' (by simpa using hline) rfl
      exact absurd hend (by decide)
    · obtain ⟨hline, -⟩ : line.toList = ("import * as ".toList ++ name ++ " from ".toList) ++
          '"' :: (path.toList ++ '"' :: ';' :: blanks) ∧ ['\r'] = [c] :=
        List.append_inj' (by simpa using hline) rfl
      rw [allBlank, List.all_append, Bool.and_eq_true] at hblanks
      exact ⟨name, blanks, hname, hblanks.1, hline⟩
  · rintro ⟨name, blanks, hname, hblanks, hline⟩
    refine ⟨name, blanks ++ ['\r'], hname, ?_, by simp [hline]⟩
    simpa [allBlank, hreturn] using hblanks

theorem importPath?_eq_none (h : line.toList.head? ≠ some 'i') : importPath? line = none := by
  cases himport : importPath? line with
  | none => rfl
  | some path =>
    obtain ⟨-, -, name, blanks, -, -, hline⟩ := importPath?_eq_some.1 himport
    exact absurd (by rw [hline]; rfl) h

theorem keeps_of_importPath? (h : importPath? line = some path) :
    imports.keeps line = !imports.drops path := by
  have hbanner : isBanner line = false := by
    obtain ⟨-, -, name, blanks, -, -, hline⟩ := importPath?_eq_some.1 h
    unfold isBanner
    rw [hline]
    rfl
  simp [Imports.keeps, h, hbanner]

theorem redirect_import (hpath : '\n' ∉ context.typesPath.toList) (hline : '\n' ∉ line.toList) :
    importPath? (context.redirect line) = importPath? line ∧
      '\n' ∉ (context.redirect line).toList := by
  unfold Context.redirect
  cases hshared : sharedEnums? line with
  | none => exact ⟨rfl, hline⟩
  | some found =>
    obtain ⟨module, version⟩ := found
    simp only
    split
    · obtain ⟨climbs, blanks, -, -, hversion, hspelled⟩ := of_sharedEnums? hshared
      have hnewline : isIdentifierPart '\n' = false := by decide
      have henums : '\n' ∉ (context.enumsPath version).toList :=
        newline_notMem_enumsPath hpath fun v hv hmem => by
          simp [hversion v hv _ hmem] at hnewline
      constructor
      · rw [importPath?_eq_none (by simp), importPath?_eq_none (by rw [hspelled]; simp [climb])]
      · simp [henums]
    · exact ⟨rfl, hline⟩

theorem apply_import (hscope : ∀ c ∈ borders, c ∉ context.scope.name.toList)
    (hline : '\n' ∉ line.toList) :
    (importPath? ((Rules.inImplementation context.scope).apply line)).map components =
        (importPath? line).map components ∧
      '\n' ∉ ((Rules.inImplementation context.scope).apply line).toList := by
  have hrules : ∀ rule ∈ (Rules.inImplementation context.scope).toList, ∀ line,
      Reworded line.toList (rule.apply line).toList :=
    fun rule hrule => reworded_of_mem_inImplementation hscope hrule
  unfold Rules.apply
  generalize (Rules.inImplementation context.scope).toList = rules at hrules
  induction rules generalizing line with
  | nil => exact ⟨rfl, hline⟩
  | cons rule rules ih =>
    obtain ⟨hrule, hrules⟩ := List.forall_mem_cons.1 hrules
    have hreworded := hrule line
    have hnewline : '\n' ∈ borders := by decide
    obtain ⟨hsame, hclean⟩ := ih (mt (hreworded.border_mem hnewline) hline) hrules
    exact ⟨hsame.trans (components_importPath?_of_reworded hreworded), hclean⟩

theorem adapt_import (hscope : ∀ c ∈ borders, c ∉ context.scope.name.toList)
    (hpath : '\n' ∉ context.typesPath.toList) (hline : '\n' ∉ line.toList) :
    (importPath? (context.adapt line)).map components = (importPath? line).map components ∧
      '\n' ∉ (context.adapt line).toList := by
  obtain ⟨hsame, hclean⟩ := apply_import hscope hline
  unfold Context.adapt
  simp only
  split
  · obtain ⟨hredirect, hclean⟩ := redirect_import hpath hclean
    exact ⟨(congrArg (Option.map components) hredirect).trans hsame, hclean⟩
  · exact ⟨hsame, hclean⟩

theorem importsBy_congr {P : List Component → Prop}
    (h : (importPath? line').map components = (importPath? line).map components) :
    ImportsBy P line' ↔ ImportsBy P line := by
  have hmap : ∀ line, ImportsBy P line ↔
      ∃ found, (importPath? line).map components = some found ∧ P found := by
    intro line
    simp [ImportsBy]
  rw [hmap, hmap, h]

/-- The body has an import by a path of such components if and only if one was kept. -/
theorem exists_importsBy_body {P : List Component → Prop}
    (hscope : ∀ c ∈ borders, c ∉ context.scope.name.toList)
    (hpath : '\n' ∉ context.typesPath.toList) :
    (∃ line ∈ lines (body imports context content), ImportsBy P line) ↔
      ∃ line ∈ lines content, imports.keeps line = true ∧ ImportsBy P line := by
  obtain ⟨behind, hbehind, hbody⟩ := @exists_body_eq imports context content
  have hclean : ∀ line ∈ lines content, '\n' ∉ line.toList := by
    intro line hline
    obtain ⟨chars, hchars, rfl⟩ := List.mem_map.1 hline
    rw [String.toList_ofList]
    exact newline_notMem_of_mem_cutLines hchars
  have hadapted : ∀ line ∈ ((lines content).filter imports.keeps).map context.adapt,
      '\n' ∉ line.toList := by
    intro _ hmem
    obtain ⟨line, hfiltered, rfl⟩ := List.mem_map.1 hmem
    exact (adapt_import hscope hpath (hclean line (List.mem_filter.1 hfiltered).1)).2
  have hempty : ¬ ImportsBy P "" := by
    rintro ⟨path, himport, -⟩
    cases himport
  have hreturn : ∀ line, ImportsBy P (line ++ "\r") ↔ ImportsBy P line := fun line =>
    importsBy_congr (congrArg (Option.map components) importPath?_return)
  rw [hbody, exists_mem_lines_joinLines hempty hreturn hadapted hbehind]
  constructor
  · rintro ⟨_, hmem, himports⟩
    obtain ⟨line, hfiltered, rfl⟩ := List.mem_map.1 hmem
    obtain ⟨hline, hkept⟩ := List.mem_filter.1 hfiltered
    have hsame := (adapt_import hscope hpath (hclean line hline)).1
    exact ⟨line, hline, hkept, (importsBy_congr hsame).1 himports⟩
  · rintro ⟨line, hline, hkept, himports⟩
    have hsame := (adapt_import hscope hpath (hclean line hline)).1
    exact ⟨_, List.mem_map_of_mem (List.mem_filter.2 ⟨hline, hkept⟩),
      (importsBy_congr hsame).2 himports⟩

theorem keeps_iff (h : importPath? line = some path) : imports.keeps line = true ↔
    ¬ "../".toList <+: path.toList ∧ importPath? imports.framework ≠ some path := by
  rw [keeps_of_importPath? h, Imports.drops, ← List.isPrefixOf_iff_prefix, Bool.not_eq_true',
    Bool.or_eq_false_iff, Bool.not_eq_true, beq_eq_false_iff_ne]

end Imports

/-- An import that gets above the directory of an adapted file goes up and ends there, or begins
where it is. There is one if and only if some import of the source gets above its directory by a
path that does not go up at once and then on, and is not that of the framework. -/
theorem escapes_body (imports : Imports) (context : Context) (content : String)
    (hscope : ∀ c ∈ borders, c ∉ context.scope.name.toList)
    (hpath : '\n' ∉ context.typesPath.toList) :
    (∀ line ∈ lines (body imports context content), ∀ path, importPath? line = some path →
      climbsOut path = true → path = ".." ∨ "./".toList <+: path.toList) ∧
    ((∃ line ∈ lines (body imports context content), escapes line = true) ↔
      ∃ line ∈ lines content, ∃ path, importPath? line = some path ∧ climbsOut path = true ∧
        ¬ "../".toList <+: path.toList ∧ importPath? imports.framework ≠ some path) := by
  constructor
  · intro line hline path himport hout
    refine eq_or_prefix_of_climbsOut hout fun hclimb => ?_
    have hbody : ∃ line ∈ lines (body imports context content),
        ImportsBy (fun found => ∃ second rest, found = .up :: second :: rest) line :=
      ⟨line, hline, path, himport, climb_prefix_iff.1 hclimb⟩
    obtain ⟨source, -, hkept, other, hsource, hup⟩ := (exists_importsBy_body hscope hpath).1 hbody
    exact ((keeps_iff hsource).1 hkept).1 (climb_prefix_iff.2 hup)
  · have hescapes : ∀ line, escapes line = true ↔
        ImportsBy (fun found => (isRelative found && leaves 0 found) = true) line := by
      intro line
      unfold escapes ImportsBy
      rw [Option.any_eq_true]
      rfl
    simp only [hescapes, exists_importsBy_body hscope hpath]
    refine exists_congr fun line => and_congr_right fun _ => ⟨?_, ?_⟩
    · rintro ⟨hkept, path, himport, hout⟩
      exact ⟨path, himport, hout, (keeps_iff himport).1 hkept⟩
    · rintro ⟨path, himport, hout, hstays⟩
      exact ⟨(keeps_iff himport).2 hstays, path, himport, hout⟩

def webContext : Context where
  scope := ⟨"web", some "v1"⟩
  version := some "v1"
  isEntry := false
  typesPath := "./types"

/-- Of three imports one is dropped, and the others stay below the directory of the file. -/
theorem escapes_body_web : let imports : Imports := ⟨defaultFrameworkImport, "@split/"⟩
    let content := "import * as other from \"../other\";\n" ++
      "import * as own from \"./inputs.web.v1.page/../own\";\nimport * as here from \".\";\n"
    (∀ c ∈ borders, c ∉ webContext.scope.name.toList) ∧ '\n' ∉ webContext.typesPath.toList ∧
    body imports webContext content =
      "import * as own from \"./types.inputs.page/../own\";\nimport * as here from \".\";\n" ∧
    ¬ ∃ line ∈ lines (body imports webContext content), escapes line = true := by
  intro imports content
  have hscope : ∀ c ∈ borders, c ∉ webContext.scope.name.toList := by
    simp [borders, webContext, Scope.name]
  have hpath : '\n' ∉ webContext.typesPath.toList := by decide
  refine ⟨hscope, hpath, by decide +kernel, ?_⟩
  rw [(escapes_body imports webContext content hscope hpath).2]
  rintro ⟨line, hline, path, himport, hout, hstays⟩
  have hall : ∀ line ∈ lines content, (importPath? line).all fun path =>
      "../".toList.isPrefixOf path.toList || !climbsOut path := by decide +kernel
  have hline := hall line hline
  rw [himport, Option.all_some, hout, Bool.not_true, Bool.or_false,
    List.isPrefixOf_iff_prefix] at hline
  exact hstays.1 hline

/-- An import that begins where it is and one that only goes up are kept, though they get above. -/
theorem escaping_kept_web : let imports : Imports := ⟨defaultFrameworkImport, "@split/"⟩
    let content := "import * as up from \"./../utilities\";\nimport * as parent from \"..\";\n"
    body imports webContext content = content ∧
    (lines (body imports webContext content)).map escapes = [true, true] := by
  decide +kernel

end Unbundle.Implementation
