import Unbundle.Proofs.Files.Trees

/-! Directories made one below the other in a tree. What comes of it depends on no more than where
the way is open, that is where there is a directory or nothing, so that trees which are open at the
same locations come out alike. -/

namespace Unbundle.Files

namespace FileTree

/-- Makes directories one below the other. What is made before a fault stays. -/
def pave (tree : FileTree) (dir : Location) : List String → Except Fault Unit × FileTree
  | [] => (.ok (), tree)
  | name :: names =>
    if maxNameBytes < name.utf8ByteSize then (.error .nameTooLong, tree)
    else
      match tree.find? (name :: dir) with
      | some .directory => tree.pave (name :: dir) names
      | some _ => (.error (if names.isEmpty then .alreadyExists else .notDirectory), tree)
      | none =>
        match tree.put? (name :: dir) .directory with
        | some made => made.pave (name :: dir) names
        | none => (.error .notFound, tree)

/-- Goes down through directories that are there. -/
def reach (tree : FileTree) (dir : Location) (names : List String) : Except Fault Location :=
  tree.walk .target 0 dir (names.map .into ++ [.slash])

def Bare (tree : FileTree) (dir : Location) : Prop := ∀ name, tree.find? (name :: dir) = none

section Pave
variable {tree : FileTree} {dir loc : Location} {names : List String} {name : String}
  {fault : Fault}

theorem bare_of_ne_directory (h : tree.find? dir ≠ some .directory) : tree.Bare dir := by
  intro name
  cases hfind : tree.find? (name :: dir) with
  | none => rfl
  | some entry => exact absurd (find?_dir hfind) h

theorem bare_put {made : FileTree} (h : tree.put? dir .directory = some made) : made.Bare dir := by
  intro name
  have hne : ¬ dir = name :: dir := (List.cons_ne_self name dir).symm
  rw [find?_put? h, if_neg hne]
  exact bare_of_ne_directory (find?_ne_directory_of_put? h) name

theorem reach_cons : tree.reach dir (name :: names) =
    if maxNameBytes < name.utf8ByteSize then .error .nameTooLong
    else
      match tree.find? (name :: dir) with
      | none => .error .notFound
      | some (.file _) => .error .notDirectory
      | some .directory => tree.reach (name :: dir) names
      | some (.link _) => .error .linkLoop := by
  rw [reach, List.map_cons, List.cons_append, walk_into, if_neg (by simp)]
  split
  · rfl
  · cases tree.find? (name :: dir) with
    | none => simp [enter]
    | some entry => cases entry <;> simp [enter, goOn, reach]

theorem find?_of_reach_ok (hdir : tree.find? dir = some .directory)
    (h : tree.reach dir names = .ok loc) :
    tree.find? (names.reverse ++ dir) = some .directory := by
  induction names generalizing dir with
  | nil => exact hdir
  | cons name names ih =>
    rw [reach_cons] at h
    split at h
    · cases h
    · split at h
      · cases h
      · cases h
      · next hfind => simpa using ih hfind h
      · cases h

theorem exists_put? (entry : Entry) (hdir : tree.find? dir = some .directory)
    (hfree : tree.find? (name :: dir) ≠ some .directory) (hname : isFileName name = true) :
    ∃ result, tree.put? (name :: dir) entry = some result := by
  simp [put?, hdir, hfree, hname]

theorem pave_of_reach_ok (h : tree.reach dir names = .ok loc) :
    tree.pave dir names = (.ok (), tree) := by
  induction names generalizing dir with
  | nil => rfl
  | cons name names ih =>
    rw [reach_cons] at h
    rw [pave]
    split at h
    · cases h
    · next hsize =>
      rw [if_neg hsize]
      split at h
      · cases h
      · cases h
      · next hfind => rw [hfind]; exact ih h
      · cases h

/-- Making directories ends where going down through them ends, unless one is missing. -/
theorem pave_of_reach_error (h : tree.reach dir names = .error fault) (hfault : fault ≠ .notFound)
    (hlinks : Along tree.NoLink dir names) :
    tree.pave dir (names ++ [name]) = (.error fault, tree) := by
  induction names generalizing dir with
  | nil => simp [reach, walk_slash, walk_nil] at h
  | cons other names ih =>
    rw [reach_cons] at h
    rw [List.cons_append, pave]
    split at h
    · next hsize => cases h; rw [if_pos hsize]
    · next hsize =>
      rw [if_neg hsize]
      split at h
      · cases h; exact absurd rfl hfault
      · next hfind => cases h; simp [hfind]
      · next hfind => rw [hfind]; exact ih h hlinks.2
      · next target hfind => exact absurd hfind (hlinks.1 target)

theorem pave_ne_alreadyExists_of_bare (h : tree.Bare dir) :
    (tree.pave dir names).1 ≠ .error .alreadyExists := by
  induction names generalizing tree dir with
  | nil => simp [pave]
  | cons name names ih =>
    rw [pave, h name]
    split
    · simp
    · simp only
      split
      · next made hmade => exact ih (bare_put hmade)
      · simp

theorem pave_ne_alreadyExists (h : tree.reach dir names = .error .notFound) :
    (tree.pave dir names).1 ≠ .error .alreadyExists := by
  induction names generalizing dir with
  | nil => simp [pave]
  | cons name names ih =>
    rw [reach_cons] at h
    rw [pave]
    split at h
    · cases h
    · next hsize =>
      rw [if_neg hsize]
      split at h
      · next hfind =>
        simp only [hfind]
        split
        · next made hmade => exact pave_ne_alreadyExists_of_bare (bare_put hmade)
        · simp
      · cases h
      · next hfind => rw [hfind]; exact ih h
      · cases h

theorem pave_concat : tree.pave dir (names ++ [name]) =
    match tree.pave dir names with
    | (.ok (), made) => made.pave (names.reverse ++ dir) [name]
    | (.error fault, made) =>
      (.error (if fault = .alreadyExists then .notDirectory else fault), made) := by
  induction names generalizing tree dir with
  | nil => simp [pave]
  | cons other names ih =>
    have hend : ∀ made : FileTree, made.pave (names.reverse ++ other :: dir) [name] =
        made.pave ((other :: names).reverse ++ dir) [name] := by simp
    rw [List.cons_append, pave, pave]
    split
    · simp
    · split
      · rw [ih]
        simp only [hend]
      · by_cases hnil : names = []
        · simp [hnil]
        · simp [hnil]
      · split
        · rw [ih]
          simp only [hend]
        · simp

theorem reach_of_find? (h : tree.find? (names.reverse ++ dir) = some .directory) :
    tree.reach dir names = .ok (names.reverse ++ dir) := by
  have hwalk : tree.walk .target 0 dir (names.map .into ++ [.slash]) =
      tree.walk .target 0 (names.reverse ++ dir) [.slash] := (way_of_directory h).walk (Or.inl rfl)
  rwa [walk_slash, walk_nil] at hwalk

theorem pave_of_file {content : ByteArray}
    (h : tree.find? (name :: (names.reverse ++ dir)) = some (.file content)) :
    tree.pave dir (names ++ [name]) = (.error .alreadyExists, tree) := by
  have hreach := @reach_of_find? tree dir names (find?_dir h)
  rw [pave_concat, pave_of_reach_ok hreach]
  simp only
  rw [pave, if_neg (Nat.not_lt.2 (size_le_of_find? h)), h]
  rfl

end Pave

/-- One of the locations that names lead to, one after another. -/
def Passed (dir : Location) (names : List String) (loc : Location) : Prop :=
  ∃ first, first ≠ [] ∧ first <+: names ∧ loc = first.reverse ++ dir

/-- A directory is there or can be made. -/
def Open (tree : FileTree) (loc : Location) : Prop :=
  tree.find? loc = none ∨ tree.find? loc = some .directory

/-- What making directories comes to on two trees at one location: nothing changes on either, or
names lead there and both have a directory there. -/
def PavedAt (dir : Location) (names : List String) (t u t' u' : FileTree) (loc : Location) : Prop :=
  (t'.find? loc = t.find? loc ∧ u'.find? loc = u.find? loc) ∨
    (Passed dir names loc ∧ t.Open loc ∧ u.Open loc ∧
      t'.find? loc = some .directory ∧ u'.find? loc = some .directory)

section Abreast
variable {t u : FileTree} {dir loc : Location} {names : List String} {name : String}

theorem passed_cons : Passed dir (name :: names) loc ↔
    loc = name :: dir ∨ Passed (name :: dir) names loc := by
  constructor
  · rintro ⟨first, hne, hfirst, rfl⟩
    obtain ⟨other, more, rfl⟩ := List.exists_cons_of_ne_nil hne
    obtain ⟨rfl, hmore⟩ := List.cons_prefix_cons.1 hfirst
    by_cases hnil : more = []
    · exact Or.inl (by simp [hnil])
    · exact Or.inr ⟨more, hnil, hmore, by simp⟩
  · rintro (rfl | ⟨first, -, hfirst, rfl⟩)
    · exact ⟨[name], by simp, by simp, rfl⟩
    · exact ⟨name :: first, by simp, List.cons_prefix_cons.2 ⟨rfl, hfirst⟩, by simp⟩

theorem pave_of_open (hdir : t.find? dir = some .directory) (hopen : t.Open (name :: dir))
    (hname : isFileName name = true) : ∃ made : FileTree,
    t.pave dir (name :: names) = made.pave (name :: dir) names ∧
    ∀ loc, made.find? loc = if name :: dir = loc then some .directory else t.find? loc := by
  have hsize : ¬ maxNameBytes < name.utf8ByteSize := by
    simp only [isFileName, Bool.and_eq_true, decide_eq_true_eq] at hname
    exact Nat.not_lt.2 hname.2
  rcases hopen with hnone | hfound
  · obtain ⟨made, hmade⟩ := exists_put? .directory hdir (by simp [hnone]) hname
    refine ⟨made, ?_, find?_put? hmade⟩
    simp [pave, hsize, hnone, hmade]
  · refine ⟨t, by simp [pave, hsize, hfound], fun loc => ?_⟩
    split
    · next heq => exact heq ▸ hfound
    · rfl

theorem pave_concat_of_open (hdir : t.find? (names.reverse ++ dir) = some .directory)
    (hopen : t.Open (name :: (names.reverse ++ dir))) (hname : isFileName name = true) :
    ∃ made : FileTree, t.pave dir (names ++ [name]) = (.ok (), made) ∧
      ∀ loc, made.find? loc =
        if name :: (names.reverse ++ dir) = loc then some .directory else t.find? loc := by
  obtain ⟨made, hpave, hfind⟩ := @pave_of_open t _ [] name hdir hopen hname
  refine ⟨made, ?_, hfind⟩
  rw [pave_concat, pave_of_reach_ok (reach_of_find? hdir)]
  exact hpave

theorem pave_of_not_isFileName (hname : isFileName name = false) (hopen : t.Open (name :: dir)) :
    t.pave dir (name :: names) =
      (.error (if maxNameBytes < name.utf8ByteSize then .nameTooLong else .notFound), t) := by
  have hnone : t.find? (name :: dir) = none := by
    refine hopen.resolve_right fun hfound => ?_
    have hnamed := isFileName_of_find? hfound
    simp [hname] at hnamed
  have hput : t.put? (name :: dir) .directory = none := by simp [put?, hname]
  rw [pave]
  split
  · rfl
  · simp [hnone, hput]

theorem pave_of_not_open (hopen : ¬ t.Open (name :: dir)) :
    t.pave dir (name :: names) =
      (.error (if maxNameBytes < name.utf8ByteSize then .nameTooLong
        else if names.isEmpty then .alreadyExists else .notDirectory), t) := by
  rw [pave]
  split
  · rfl
  · cases hfind : t.find? (name :: dir) with
    | none => exact absurd (Or.inl hfind) hopen
    | some entry =>
      cases entry with
      | directory => exact absurd (Or.inr hfind) hopen
      | file content => rfl
      | link target => rfl

/-- Directories are made alike on two trees that are open at the same locations on the way. -/
theorem pave_congr (ht : t.find? dir = some .directory) (hu : u.find? dir = some .directory)
    (hopen : ∀ loc, Passed dir names loc → (t.Open loc ↔ u.Open loc)) :
    (t.pave dir names).1 = (u.pave dir names).1 ∧
    ∀ loc, PavedAt dir names t u (t.pave dir names).2 (u.pave dir names).2 loc := by
  induction names generalizing t u dir with
  | nil => exact ⟨rfl, fun loc => .inl ⟨rfl, rfl⟩⟩
  | cons name names ih =>
    have hfirst := hopen (name :: dir) (passed_cons.2 (Or.inl rfl))
    by_cases hopened : t.Open (name :: dir)
    · have hopened' := hfirst.1 hopened
      cases hname : isFileName name with
      | false =>
        rw [pave_of_not_isFileName hname hopened, pave_of_not_isFileName hname hopened']
        exact ⟨rfl, fun loc => .inl ⟨rfl, rfl⟩⟩
      | true =>
        obtain ⟨t₁, hpave, hfind⟩ := @pave_of_open t dir names name ht hopened hname
        obtain ⟨u₁, hpave', hfind'⟩ := @pave_of_open u dir names name hu hopened' hname
        rw [hpave, hpave']
        have hmore : ∀ loc, Passed (name :: dir) names loc → (t₁.Open loc ↔ u₁.Open loc) := by
          intro loc hpassed
          have hloc := hopen loc (passed_cons.2 (Or.inr hpassed))
          simp only [Open, hfind, hfind'] at hloc ⊢
          split
          · simp
          · exact hloc
        obtain ⟨hresult, hpaved⟩ := ih (by simp [hfind]) (by simp [hfind']) hmore
        refine ⟨hresult, fun loc => ?_⟩
        by_cases heq : name :: dir = loc
        · subst heq
          refine .inr ⟨passed_cons.2 (Or.inl rfl), hopened, hopened', ?_⟩
          rcases hpaved (name :: dir) with ⟨hsame, hsame'⟩ | ⟨-, -, -, hboth⟩
          · exact ⟨by simp [hsame, hfind], by simp [hsame', hfind']⟩
          · exact hboth
        · have hpaved := hpaved loc
          simp only [PavedAt, Open, hfind, hfind', if_neg heq] at hpaved
          exact hpaved.imp_right (And.imp_left fun hpassed => passed_cons.2 (Or.inr hpassed))
    · rw [pave_of_not_open hopened, pave_of_not_open (hfirst.not.1 hopened)]
      exact ⟨rfl, fun loc => .inl ⟨rfl, rfl⟩⟩

theorem find?_pave (names : List String) (ht : t.find? dir = some .directory) (loc : Location) :
    (t.pave dir names).2.find? loc = t.find? loc ∨
      (Passed dir names loc ∧ t.find? loc = none ∧
        (t.pave dir names).2.find? loc = some .directory) := by
  rcases (pave_congr ht ht fun _ _ => Iff.rfl).2 loc with ⟨hsame, -⟩ | ⟨hpassed, hopen, -, hmade, -⟩
  · exact .inl hsame
  · rcases hopen with hnone | hfound
    · exact .inr ⟨hpassed, hnone, hmade⟩
    · exact .inl (hmade.trans hfound.symm)

theorem find?_pave_beneath (ht : t.find? dir = some .directory)
    (hloc : Beneath (names.reverse ++ dir) loc) : (t.pave dir names).2.find? loc = t.find? loc := by
  rcases find?_pave names ht loc with hsame | ⟨hpassed, -, -⟩
  · exact hsame
  · obtain ⟨first, -, hfirst, rfl⟩ := hpassed
    have hlength := (reverse_append_suffix.2 hfirst : first.reverse ++ dir <:+ _).length_le
    exact absurd (hloc.1.eq_of_length_le hlength).symm hloc.2

theorem find?_pave_of_some {entry : Entry} (ht : t.find? dir = some .directory)
    (h : t.find? loc = some entry) : (t.pave dir names).2.find? loc = some entry := by
  rcases find?_pave names ht loc with hsame | ⟨-, hnone, -⟩
  · exact hsame.trans h
  · rw [hnone] at h
    cases h

theorem keeps_pave (ht : t.find? dir = some .directory) : (t.pave dir names).2.Keeps t :=
  fun _ => ⟨find?_pave_of_some ht, fun _ => find?_pave_of_some ht⟩

theorem find?_pave_ok (ht : t.find? dir = some .directory) (h : (t.pave dir names).1 = .ok ()) :
    (t.pave dir names).2.find? (names.reverse ++ dir) = some .directory := by
  induction names generalizing t dir with
  | nil => exact ht
  | cons name names ih =>
    rw [List.reverse_cons, List.append_assoc, List.singleton_append]
    by_cases hopen : t.Open (name :: dir)
    · cases hname : isFileName name with
      | false =>
        rw [pave_of_not_isFileName hname hopen] at h
        cases h
      | true =>
        obtain ⟨made, hpave, hfind⟩ := @pave_of_open t dir names name ht hopen hname
        rw [hpave] at h ⊢
        exact ih (by simp [hfind]) h
    · rw [pave_of_not_open hopen] at h
      cases h

end Abreast

end FileTree

end Unbundle.Files
