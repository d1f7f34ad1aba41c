import Unbundle.Proofs.Files.Filled
import Unbundle.Proofs.Reference.Runwise
import Unbundle.Proofs.Text.Lines
import Unbundle.Types.Directory

/-! The index of a directory of enums. Versions are added to the module's own enums one by one, and
whether one is imported already is asked of the text as it has grown by then. What was added is
found only by asking for the very version, so that the answer is that of the module's own enums. -/

namespace Unbundle.Types
open Std (ExtTreeMap)
open Unbundle.Files Unbundle.Text
open Unbundle.Reference (IsPlainName)

def fromClause (version : String) : String := "from \"./" ++ version ++ "\""

/-- The versions that a module's own enums do not import. -/
def missing (own : String) (versions : List String) : List String :=
  versions.filter fun version => !contains (fromClause version) own

/-- A module's own enums and behind them, on lines of their own, the missing versions. -/
def completed (own : String) (versions : List String) : String :=
  own ++ (if own ≠ "" ∧ own.toList.getLast? ≠ some '\n' ∧ missing own versions ≠ [] then "\n" else "") ++
    String.join ((missing own versions).map fun version =>
      "import * as " ++ version ++ " from \"./" ++ version ++ "\";\nexport \x7b " ++ version ++ " \x7d;\n")

section Clause
variable {version other own index : String} {versions : List String}

theorem notMem_of_isPlainName (h : IsPlainName version) {c : Char}
    (hc : (c.isAlphanum || c == '_' || c == '$') = false) : c ∉ version.toList := by
  intro hmem
  rw [h.2 c hmem] at hc
  cases hc

theorem toList_fromClause :
    (fromClause version).toList = "from ".toList ++ '"' :: ("./".toList ++ version.toList ++ ['"']) := by
  simp [fromClause]

theorem fromClause_ne_nil : (fromClause version).toList ≠ [] := by
  simp [toList_fromClause]

theorem newline_notMem_fromClause (h : IsPlainName version) : '\n' ∉ (fromClause version).toList := by
  have hname := notMem_of_isPlainName h (c := '\n') (by decide)
  simp [toList_fromClause, hname]

theorem eq_of_append_cons {a b c d : List Char} {q : Char} (ha : q ∉ a) (hc : q ∉ c)
    (h : a ++ q :: b = c ++ q :: d) : a = c ∧ b = d := by
  rcases List.append_eq_append_iff.1 h with ⟨rest, rfl, hrest⟩ | ⟨rest, rfl, hrest⟩
  · cases rest with
    | nil => exact ⟨(List.append_nil a).symm, (List.cons.inj hrest).2⟩
    | cons e rest =>
      obtain rfl := (List.cons.inj hrest).1
      simp at hc
  · cases rest with
    | nil => exact ⟨List.append_nil c, (List.cons.inj hrest).2.symm⟩
    | cons e rest =>
      obtain rfl := (List.cons.inj hrest).1
      simp at ha

theorem fromClause_infix_import (hversion : IsPlainName version) (hother : IsPlainName other)
    (h : (fromClause version).toList <:+:
      ("import * as " ++ other ++ " from \"./" ++ other ++ "\";").toList) : version = other := by
  have hquote := notMem_of_isPlainName hversion (c := '"') (by decide)
  have hquote' := notMem_of_isPlainName hother (c := '"') (by decide)
  have hline : ("import * as " ++ other ++ " from \"./" ++ other ++ "\";").toList =
      ("import * as ".toList ++ other.toList ++ " from ".toList) ++
        '"' :: ("./".toList ++ other.toList ++ '"' :: [';']) := by
    simp
  obtain ⟨before, after, htext⟩ := h
  rw [hline, toList_fromClause] at htext
  -- both quotes of the line are those of the clause
  have hbefore : '"' ∉ before := by
    have hcount := congrArg (List.count '"') htext
    have hnone := List.count_eq_zero.2 hquote
    have hnone' := List.count_eq_zero.2 hquote'
    simp [hnone, hnone'] at hcount
    exact List.count_eq_zero.1 (by omega)
  have hfirst : '"' ∉ before ++ "from ".toList := by simp [hbefore]
  have hstart : '"' ∉ "import * as ".toList ++ other.toList ++ " from ".toList := by simp [hquote']
  have hbehind := (eq_of_append_cons hfirst hstart (by simpa using htext)).2
  have hnames : version.toList ++ '"' :: after = other.toList ++ '"' :: [';'] := by
    simpa using hbehind
  exact String.toList_injective (eq_of_append_cons hquote hquote' hnames).1

theorem toList_versionExport : (versionExport version).toList =
    ("import * as " ++ version ++ " from \"./" ++ version ++ "\";").toList ++
      '\n' :: (("export \x7b " ++ version ++ " \x7d;").toList ++ ['\n']) := by
  have himport : "\";\n".toList = "\";".toList ++ ['\n'] := by decide
  have hexport : " \x7d;\n".toList = " \x7d;".toList ++ ['\n'] := by decide
  unfold versionExport
  simp only [String.toList_append, himport, hexport, List.append_assoc, List.cons_append,
    List.nil_append]

theorem fromClause_infix_versionExport (hversion : IsPlainName version)
    (hother : IsPlainName other) :
    (fromClause version).toList <:+: (versionExport other).toList ↔ version = other := by
  have hquote := notMem_of_isPlainName hother (c := '"') (by decide)
  have hexport : ¬ (fromClause version).toList <:+: ("export \x7b " ++ other ++ " \x7d;").toList := by
    intro h
    have hmem : '"' ∈ ("export \x7b " ++ other ++ " \x7d;").toList :=
      h.subset (by simp [toList_fromClause])
    simp [hquote] at hmem
  have hnewline := newline_notMem_fromClause hversion
  rw [toList_versionExport, infix_append_cons hnewline, infix_append_cons hnewline, List.infix_nil,
    or_iff_left fromClause_ne_nil, or_iff_left hexport]
  constructor
  · exact fromClause_infix_import hversion hother
  · rintro rfl
    exact ⟨("import * as " ++ version ++ " ").toList, [';'], by simp [fromClause]⟩

end Clause

section Index
variable {version other own index : String} {versions : List String}

def lineBreak (text : String) : String :=
  if text ≠ "" ∧ text.toList.getLast? ≠ some '\n' then "\n" else ""

theorem addVersion_eq : addVersion index version =
    if contains (fromClause version) index then index
    else index ++ lineBreak index ++ versionExport version := by
  unfold addVersion lineBreak fromClause
  split
  · rfl
  · by_cases hempty : index = ""
    · simp [hempty]
    · by_cases hlast : index.toList.getLast? = some '\n'
      · simp [hlast]
      · simp [hempty, hlast]

theorem exists_lineBreak (hne : index ≠ "") : ∃ line, (index ++ lineBreak index).toList =
    line ++ ['\n'] ∧ (index.toList = line ∨ index.toList = line ++ ['\n']) := by
  unfold lineBreak
  by_cases hlast : index.toList.getLast? = some '\n'
  · obtain ⟨line, hline⟩ := List.getLast?_eq_some_iff.1 hlast
    exact ⟨line, by simp [hline], .inr hline⟩
  · exact ⟨index.toList, by simp [hne, hlast], .inl rfl⟩

theorem contains_append_versionExport (hversion : IsPlainName version)
    (hother : IsPlainName other) :
    contains (fromClause version) (index ++ lineBreak index ++ versionExport other) =
      (contains (fromClause version) index || decide (version = other)) := by
  have hnewline := newline_notMem_fromClause hversion
  have hiff : (fromClause version).toList <:+:
      (index ++ lineBreak index ++ versionExport other).toList ↔
      (fromClause version).toList <:+: index.toList ∨ version = other := by
    rw [String.toList_append, ← fromClause_infix_versionExport hversion hother]
    by_cases hempty : index = ""
    · have hnone : ¬ (fromClause version).toList <:+: [] := by
        rw [List.infix_nil]
        exact fromClause_ne_nil
      simp only [hempty, lineBreak, ne_eq, not_true_eq_false, false_and, if_false,
        String.empty_append, String.toList_empty, List.nil_append, hnone, false_or]
    · obtain ⟨line, hline, hindex⟩ := exists_lineBreak hempty
      rw [hline, List.append_assoc, List.singleton_append, infix_append_cons hnewline]
      rcases hindex with hindex | hindex
      · rw [hindex]
      · rw [hindex, infix_append_cons hnewline, List.infix_nil, or_iff_left fromClause_ne_nil]
  unfold contains
  rw [Bool.eq_iff_iff, Bool.or_eq_true, occurs_iff, occurs_iff, decide_eq_true_iff, hiff]

theorem contains_addVersion (hversion : IsPlainName version) (hother : IsPlainName other) :
    contains (fromClause version) (addVersion index other) =
      (contains (fromClause version) index || decide (version = other)) := by
  rw [addVersion_eq]
  split
  · next hcontains =>
    by_cases heq : version = other
    · simp [heq, hcontains]
    · simp [heq]
  · exact contains_append_versionExport hversion hother

/-- A version is imported by what the versions so far were added to if the own enums import it, or
if it is one of them. -/
theorem contains_foldl_addVersion (hversion : IsPlainName version)
    (hversions : ∀ other ∈ versions, IsPlainName other) :
    contains (fromClause version) (versions.foldl addVersion own) =
      (contains (fromClause version) own || decide (version ∈ versions)) := by
  induction versions generalizing own with
  | nil => simp
  | cons other versions ih =>
    obtain ⟨hother, hversions⟩ := List.forall_mem_cons.1 hversions
    rw [List.foldl_cons, ih hversions, contains_addVersion hversion hother, Bool.or_assoc]
    simp [List.mem_cons, Bool.decide_or]

theorem completed_eq : completed own versions = own ++
    (if missing own versions ≠ [] then lineBreak own else "") ++
      String.join ((missing own versions).map versionExport) := by
  have hexport : ∀ version, versionExport version = "import * as " ++ version ++ " from \"./" ++
      version ++ "\";\nexport \x7b " ++ version ++ " \x7d;\n" := by
    intro version
    have hjoined : "\";\nexport \x7b " = "\";\n" ++ "export \x7b " := by decide
    unfold versionExport
    simp only [hjoined, String.append_assoc]
  unfold completed lineBreak
  rw [List.map_congr_left fun version _ => hexport version]
  by_cases hnone : missing own versions = []
  · simp [hnone]
  · simp [hnone]

/-- Versions are added one behind the other, those that the own enums do not import. -/
theorem foldl_addVersion_eq (hversions : ∀ version ∈ versions, IsPlainName version)
    (hnodup : versions.Nodup) : versions.foldl addVersion own = completed own versions := by
  rw [completed_eq]
  induction versions generalizing own with
  | nil => simp [missing]
  | cons version versions ih =>
    obtain ⟨hversion, hversions⟩ := List.forall_mem_cons.1 hversions
    obtain ⟨hfresh, hnodup⟩ := List.nodup_cons.1 hnodup
    rw [List.foldl_cons, ih hversions hnodup]
    cases hcontains : contains (fromClause version) own with
    | true =>
      have hsame : missing own (version :: versions) = missing own versions := by
        simp [missing, hcontains]
      rw [addVersion_eq, if_pos hcontains, hsame]
    | false =>
      have hadded : addVersion own version = own ++ lineBreak own ++ versionExport version := by
        rw [addVersion_eq, if_neg (by simp [hcontains])]
      -- what was added is the import of no other version
      have hrest : missing (addVersion own version) versions = missing own versions := by
        refine List.filter_congr fun other hother => ?_
        have hne : other ≠ version := fun heq => hfresh (heq ▸ hother)
        rw [contains_addVersion (hversions other hother) hversion, decide_eq_false hne,
          Bool.or_false]
      have hends : lineBreak (addVersion own version) = "" := by
        have hlast : (addVersion own version).toList.getLast? = some '\n' := by
          rw [hadded, String.toList_append, toList_versionExport, ← List.cons_append,
            ← List.append_assoc, ← List.append_assoc, List.getLast?_concat]
        simp [lineBreak, hlast]
      have hcons : missing own (version :: versions) = version :: missing own versions := by
        simp [missing, hcontains]
      rw [hrest, hends, hcons, hadded]
      simp [String.append_assoc]

end Index

theorem pairwise_keys {map : ExtTreeMap String String} : map.keys.Pairwise (· < ·) := by
  have hkeys : map.keys.Pairwise fun a b => compare a b = .lt := ExtTreeMap.ordered_keys
  exact hkeys.imp fun h => compareOfLessAndEq_eq_lt.1 h

theorem ScopeTypes.exists_of_run_writeEnumsDirectory {types : ScopeTypes} {directory : Files.Path}
    {extension : String} {disk disk' : Disk} (hhome : disk.Homed)
    (hrun : (types.writeEnumsDirectory directory extension).run.run disk = (.ok (), disk')) :
    ∃ opened loc, Filled opened disk disk' ∧ loc ∈ opened ∧
      disk'.entry ((directory.join "enums").join (fileName "index" extension)) =
        .ok (loc, .file (enumsIndex types.enums types.versionEnums.keys).toUTF8) := by
  unfold writeEnumsDirectory at hrun
  obtain ⟨_, made, hmake, hrun⟩ := exists_of_run_bind hrun
  obtain ⟨_, middle, hfiles, hwrite⟩ := exists_of_run_bind hrun
  obtain ⟨_, hmade⟩ := fills_makeDirectories.exists_filled hhome hmake
  have hhome₁ := hmade.homed hhome
  obtain ⟨_, hmiddle⟩ := (Fills.forM fun _ => fills_writeText).exists_filled hhome₁ hfiles
  obtain ⟨loc, hindex, hentry⟩ := run_writeText (hmiddle.homed hhome₁) hwrite
  exact ⟨_, loc, (hmade.trans hmiddle).trans hindex, by simp, hentry⟩

/-- The index of an enums directory is the module's own enums and behind them, in the order of their
names, an import and an export of each version that those do not import; it is what the index file
holds when the directory was written. So the index imports every version. At a version's turn it has
an import of this version only if the own enums have, whatever was added before. -/
theorem ScopeTypes.writeEnumsDirectory_completed (types : ScopeTypes)
    (hnames : ∀ version ∈ types.versionEnums, IsPlainName version) :
    enumsIndex types.enums types.versionEnums.keys =
      completed (types.enums.getD "") types.versionEnums.keys ∧
    (∀ directory extension disk disk', disk.Homed →
      (types.writeEnumsDirectory directory extension).run.run disk = (.ok (), disk') →
      disk'.readText ((directory.join "enums").join (fileName "index" extension)) =
        .ok (completed (types.enums.getD "") types.versionEnums.keys)) ∧
    types.versionEnums.keys.Pairwise (· < ·) ∧
    (∀ version ∈ types.versionEnums, contains (fromClause version)
      (completed (types.enums.getD "") types.versionEnums.keys) = true) ∧
    ∀ earlier version later, types.versionEnums.keys = earlier ++ version :: later →
      contains (fromClause version) (enumsIndex types.enums earlier) =
        contains (fromClause version) (types.enums.getD "") := by
  have hkeys : ∀ version ∈ types.versionEnums.keys, IsPlainName version :=
    fun version hversion => hnames version (ExtTreeMap.mem_keys.1 hversion)
  have hnodup : types.versionEnums.keys.Nodup := pairwise_keys.imp String.ne_of_lt
  have hindex : enumsIndex types.enums types.versionEnums.keys =
      completed (types.enums.getD "") types.versionEnums.keys := foldl_addVersion_eq hkeys hnodup
  refine ⟨hindex, fun directory extension disk disk' hhome hrun => ?_, pairwise_keys,
    fun version hversion => ?_, fun earlier version later hsplit => ?_⟩
  · obtain ⟨_, _, -, -, hentry⟩ := exists_of_run_writeEnumsDirectory hhome hrun
    rw [← hindex]
    exact Disk.readText_of_entry hentry
  · rw [← hindex]
    exact (contains_foldl_addVersion (hnames version hversion) hkeys).trans
      (by simp [ExtTreeMap.mem_keys.2 hversion])
  · rw [hsplit] at hkeys hnodup
    have hfresh : version ∉ earlier := fun hmem =>
      (List.nodup_append.1 hnodup).2.2 version hmem version List.mem_cons_self rfl
    have hearlier : ∀ other ∈ earlier, IsPlainName other :=
      fun other hother => hkeys other (List.mem_append_left _ hother)
    exact (contains_foldl_addVersion (hkeys version (by simp)) hearlier).trans (by simp [hfresh])

def versionedTypes : ScopeTypes where
  enums := some "import * as v10 from \"./v10\";"
  versionEnums := ExtTreeMap.ofList
    [("v10", "export const A = 1;"), ("v1", "export const B = 1;"), ("v2", "export const C = 1;")]

theorem ScopeTypes.writeEnumsDirectory_completed_versioned :
    (∀ version ∈ versionedTypes.versionEnums, IsPlainName version) ∧
    ∃ disk', (versionedTypes.writeEnumsDirectory ⟨"types"⟩ "ts").run.run
        { home := [], tree := .empty } = (.ok (), disk') ∧
      disk'.readText ⟨"types/enums/index.ts"⟩ = .ok ("import * as v10 from \"./v10\";\n" ++
        "import * as v1 from \"./v1\";\nexport \x7b v1 \x7d;\n" ++
        "import * as v2 from \"./v2\";\nexport \x7b v2 \x7d;\n") := by
  have hkeys : versionedTypes.versionEnums.keys = ["v1", "v10", "v2"] := by decide +kernel
  have hplain : ∀ version ∈ ["v1", "v10", "v2"], version ≠ "" ∧
      version.toList.all fun c => c.isAlphanum || c == '_' || c == '$' := by decide
  have hnames : ∀ version ∈ versionedTypes.versionEnums, IsPlainName version := by
    intro version hversion
    obtain ⟨hne, hall⟩ := hplain version (hkeys ▸ ExtTreeMap.mem_keys.2 hversion)
    exact ⟨hne, List.all_eq_true.1 hall⟩
  have hhome : Disk.Homed { home := [], tree := .empty } := FileTree.empty.root
  have hresult : ((versionedTypes.writeEnumsDirectory ⟨"types"⟩ "ts").run.run
      { home := [], tree := .empty }).1 = .ok () := by decide +kernel
  refine ⟨hnames, ?_⟩
  revert hresult
  rcases hrun : (versionedTypes.writeEnumsDirectory ⟨"types"⟩ "ts").run.run
    { home := [], tree := .empty } with ⟨result, disk'⟩
  rintro rfl
  have hread := (versionedTypes.writeEnumsDirectory_completed hnames).2.1 _ _ _ _ hhome hrun
  refine ⟨disk', rfl, hread.trans ?_⟩
  decide +kernel

end Unbundle.Types
