import Unbundle.Files.Walk
import Unbundle.Proofs.Files.Route

/-! Ways to a directory. Where a walk follows steps to a directory, further steps are taken from
there, and the same in every tree that has the directories and links met on the way. Below that
directory names alone, none of them the name of a link, lead to where they say. -/

namespace Unbundle.Files

namespace FileTree

/-- How a walk goes on behind a link. -/
def goOn (tree : FileTree) (purpose : Purpose) : Nat → Location → List Step → Except Fault Location
  | 0 => fun _ _ => .error .linkLoop
  | links + 1 => tree.walk purpose links

/-- How a walk goes on behind a name, by what the name is that of. -/
def enter (tree : FileTree) (purpose : Purpose) (n : Nat) (dir : Location) (name : String)
    (rest : List Step) : Option Entry → Except Fault Location
  | none => if rest.isEmpty then .ok (name :: dir) else .error .notFound
  | some (.file _) => if rest.isEmpty then .ok (name :: dir) else .error .notDirectory
  | some .directory => tree.walk purpose n (name :: dir) rest
  | some (.link target) =>
    if rest.isEmpty && purpose = .entry then .ok (name :: dir)
    else tree.goOn purpose n (if target.isAbsolute then [] else dir) (target.route ++ rest)

/-- The steps lead from one directory to another and leave some of the links that may be passed. -/
inductive Way (tree : FileTree) : Nat → Location → List Step → Nat → Location → Prop where
  | stop {n dir} : Way tree n dir [] n dir
  | here {n dir rest left base} (more : Way tree n dir rest left base) :
      Way tree n dir (.here :: rest) left base
  | slash {n dir rest left base} (more : Way tree n dir rest left base) :
      Way tree n dir (.slash :: rest) left base
  | up {n dir rest left base} (more : Way tree n dir.tail rest left base) :
      Way tree n dir (.up :: rest) left base
  | into {n dir name rest left base} (size : name.utf8ByteSize ≤ maxNameBytes)
      (found : tree.find? (name :: dir) = some .directory)
      (more : Way tree n (name :: dir) rest left base) :
      Way tree n dir (.into name :: rest) left base
  | link {n dir name target rest left base} (size : name.utf8ByteSize ≤ maxNameBytes)
      (found : tree.find? (name :: dir) = some (.link target))
      (more : Way tree n (if target.isAbsolute then [] else dir) (target.route ++ rest) left base) :
      Way tree (n + 1) dir (.into name :: rest) left base

/-- The tree has every directory and every link of another one. -/
def Keeps (tree small : FileTree) : Prop :=
  ∀ loc, (small.find? loc = some .directory → tree.find? loc = some .directory) ∧
    ∀ target, small.find? loc = some (.link target) → tree.find? loc = some (.link target)

/-- Steps that are left where a walk may stop, for any purpose: there are some, and not just the one
that asks for a directory. -/
def GoesOn (purpose : Purpose) (rest : List Step) : Prop :=
  purpose = .target ∨ rest ≠ [] ∧ rest ≠ [.slash]

section Walk
variable {tree : FileTree} {purpose : Purpose} {n left : Nat} {dir base : Location}
  {steps rest : List Step}

theorem walk_eq : tree.walk purpose n = tree.walkWith purpose (tree.goOn purpose n) := by
  cases n <;> rfl

theorem walk_nil : tree.walk purpose n dir [] = .ok dir := by
  rw [walk_eq, walkWith]

theorem walk_here : tree.walk purpose n dir (.here :: rest) = tree.walk purpose n dir rest := by
  rw [walk_eq, walkWith]

theorem walk_slash : tree.walk purpose n dir (.slash :: rest) = tree.walk purpose n dir rest := by
  rw [walk_eq, walkWith]

theorem walk_up : tree.walk purpose n dir (.up :: rest) = tree.walk purpose n dir.tail rest := by
  rw [walk_eq, walkWith]

theorem walk_into {name : String} : tree.walk purpose n dir (.into name :: rest) =
    if purpose = .writing ∧ rest = [.slash] then .error .isDirectory
    else if maxNameBytes < name.utf8ByteSize then .error .nameTooLong
    else tree.enter purpose n dir name rest (tree.find? (name :: dir)) := by
  have hwalk : tree.walkWith purpose (tree.goOn purpose n) = tree.walk purpose n := walk_eq.symm
  rw [walk_eq, walkWith, hwalk]
  cases tree.find? (name :: dir) with
  | none => rfl
  | some entry => cases entry <;> rfl

/-- A walk that takes a name stops there, or goes on in a directory or behind a link. It stops at a
link only to find the link itself. -/
theorem walk_into_cases {name : String} {loc : Location}
    (h : tree.walk purpose n dir (.into name :: rest) = .ok loc) :
    name.utf8ByteSize ≤ maxNameBytes ∧
    ((rest = [] ∧ loc = name :: dir ∧ tree.find? (name :: dir) ≠ some .directory ∧
        (purpose ≠ .entry → ∀ target, tree.find? (name :: dir) ≠ some (.link target))) ∨
      (tree.find? (name :: dir) = some .directory ∧
        tree.walk purpose n (name :: dir) rest = .ok loc) ∨
      ∃ target, tree.find? (name :: dir) = some (.link target) ∧
        tree.goOn purpose n (if target.isAbsolute then [] else dir) (target.route ++ rest) =
          .ok loc) := by
  rw [walk_into] at h
  split at h
  · cases h
  split at h
  · cases h
  next hsize =>
    refine ⟨Nat.not_lt.1 hsize, ?_⟩
    have hstop : ∀ {fault : Fault},
        (if rest.isEmpty then .ok (name :: dir) else .error fault) = Except.ok loc →
          rest = [] ∧ loc = name :: dir := by
      intro fault hok
      split at hok
      · next hempty => exact ⟨List.isEmpty_iff.1 hempty, (Except.ok.inj hok).symm⟩
      · cases hok
    cases hfind : tree.find? (name :: dir) with
    | none =>
      obtain ⟨hrest, hloc⟩ := hstop (hfind ▸ h)
      exact .inl ⟨hrest, hloc, by simp, by simp⟩
    | some entry =>
      rw [hfind] at h
      cases entry with
      | file content =>
        obtain ⟨hrest, hloc⟩ := hstop h
        exact .inl ⟨hrest, hloc, by simp, by simp⟩
      | directory => exact .inr (.inl ⟨rfl, h⟩)
      | link target =>
        simp only [enter] at h
        split at h
        · next hends =>
          obtain ⟨hempty, hentry⟩ := Bool.and_eq_true_iff.1 hends
          exact .inl ⟨List.isEmpty_iff.1 hempty, (Except.ok.inj h).symm, by simp,
            fun hpurpose => absurd (of_decide_eq_true hentry) hpurpose⟩
        · exact .inr (.inr ⟨target, rfl, h⟩)

theorem GoesOn.append (h : GoesOn purpose rest) :
    ¬ (purpose = .writing ∧ steps ++ rest = [.slash]) ∧
      ((steps ++ rest).isEmpty && purpose = .entry) = false := by
  rcases h with rfl | ⟨hnil, hslash⟩
  · simp
  · constructor
    · rintro ⟨-, happend⟩
      rcases List.append_eq_singleton_iff.1 happend with ⟨-, h⟩ | ⟨-, h⟩
      · exact hslash h
      · exact hnil h
    · simp [hnil]

theorem Way.walk (h : tree.Way n dir steps left base) (hrest : GoesOn purpose rest) :
    tree.walk purpose n dir (steps ++ rest) = tree.walk purpose left base rest := by
  induction h with
  | stop => rfl
  | here _ ih => rw [List.cons_append, walk_here, ih]
  | slash _ ih => rw [List.cons_append, walk_slash, ih]
  | up _ ih => rw [List.cons_append, walk_up, ih]
  | into size found _ ih =>
    rw [List.cons_append, walk_into, if_neg hrest.append.1, if_neg (Nat.not_lt.2 size), found]
    exact ih
  | link size found _ ih =>
    rw [List.cons_append, walk_into, if_neg hrest.append.1, if_neg (Nat.not_lt.2 size), found]
    simp only [enter, hrest.append.2, Bool.false_eq_true, if_false, goOn]
    rw [← List.append_assoc]
    exact ih

theorem Way.mono {small : FileTree} (h : small.Way n dir steps left base) (hk : tree.Keeps small) :
    tree.Way n dir steps left base := by
  induction h with
  | stop => exact .stop
  | here _ ih => exact .here ih
  | slash _ ih => exact .slash ih
  | up _ ih => exact .up ih
  | into size found _ ih => exact .into size ((hk _).1 found) ih
  | link size found _ ih => exact .link size ((hk _).2 _ found) ih

/-- Between two links the steps are taken one by one. -/
theorem way_of_goOn (hgo : ∀ dir steps, tree.goOn .target n dir steps = .ok base →
      ∃ m left, n = m + 1 ∧ tree.Way m dir steps left base)
    (hbase : tree.find? base = some .directory) (h : tree.walk .target n dir steps = .ok base) :
    ∃ left, tree.Way n dir steps left base := by
  induction steps generalizing dir with
  | nil =>
    rw [walk_nil] at h
    cases h
    exact ⟨n, .stop⟩
  | cons step steps ih =>
    cases step with
    | here =>
      obtain ⟨left, hway⟩ := ih (walk_here ▸ h)
      exact ⟨left, .here hway⟩
    | slash =>
      obtain ⟨left, hway⟩ := ih (walk_slash ▸ h)
      exact ⟨left, .slash hway⟩
    | up =>
      obtain ⟨left, hway⟩ := ih (walk_up ▸ h)
      exact ⟨left, .up hway⟩
    | into name =>
      obtain ⟨hsize, ⟨-, rfl, hother, -⟩ | ⟨hfound, hmore⟩ | ⟨target, hfound, hmore⟩⟩ :=
        walk_into_cases h
      · exact absurd hbase hother
      · obtain ⟨left, hway⟩ := ih hmore
        exact ⟨left, .into hsize hfound hway⟩
      · obtain ⟨m, left, rfl, hway⟩ := hgo _ _ hmore
        exact ⟨left, .link hsize hfound hway⟩

theorem way_of_walk (hbase : tree.find? base = some .directory)
    (h : tree.walk .target n dir steps = .ok base) : ∃ left, tree.Way n dir steps left base := by
  induction n generalizing dir steps with
  | zero => exact way_of_goOn (fun _ _ h => nomatch h) hbase h
  | succ n ih =>
    refine way_of_goOn (fun dir steps h => ?_) hbase h
    obtain ⟨left, hway⟩ := ih h
    exact ⟨n, left, rfl, hway⟩

theorem Way.split {first : List Step} (h : tree.Way n dir (first ++ rest) left base) :
    ∃ m mid, tree.Way n dir first m mid ∧ tree.Way m mid rest left base := by
  generalize hsteps : first ++ rest = steps at h
  induction h generalizing first with
  | @stop n dir =>
    obtain ⟨rfl, rfl⟩ := List.append_eq_nil_iff.1 hsteps
    exact ⟨n, dir, .stop, .stop⟩
  | @here n dir tail left base more ih =>
    rcases List.append_eq_cons_iff.1 hsteps with ⟨rfl, rfl⟩ | ⟨first, rfl, htail⟩
    · exact ⟨n, dir, .stop, .here more⟩
    · obtain ⟨m, mid, hfirst, hrest⟩ := ih htail.symm
      exact ⟨m, mid, .here hfirst, hrest⟩
  | @slash n dir tail left base more ih =>
    rcases List.append_eq_cons_iff.1 hsteps with ⟨rfl, rfl⟩ | ⟨first, rfl, htail⟩
    · exact ⟨n, dir, .stop, .slash more⟩
    · obtain ⟨m, mid, hfirst, hrest⟩ := ih htail.symm
      exact ⟨m, mid, .slash hfirst, hrest⟩
  | @up n dir tail left base more ih =>
    rcases List.append_eq_cons_iff.1 hsteps with ⟨rfl, rfl⟩ | ⟨first, rfl, htail⟩
    · exact ⟨n, dir, .stop, .up more⟩
    · obtain ⟨m, mid, hfirst, hrest⟩ := ih htail.symm
      exact ⟨m, mid, .up hfirst, hrest⟩
  | @into n dir name tail left base size found more ih =>
    rcases List.append_eq_cons_iff.1 hsteps with ⟨rfl, rfl⟩ | ⟨first, rfl, htail⟩
    · exact ⟨n, dir, .stop, .into size found more⟩
    · obtain ⟨m, mid, hfirst, hrest⟩ := ih htail.symm
      exact ⟨m, mid, .into size found hfirst, hrest⟩
  | @link n dir name target tail left base size found more ih =>
    rcases List.append_eq_cons_iff.1 hsteps with ⟨rfl, rfl⟩ | ⟨first, rfl, rfl⟩
    · exact ⟨n + 1, dir, .stop, .link size found more⟩
    · -- what the link stands for goes in front of the first steps
      obtain ⟨m, mid, hfirst, hrest⟩ := ih (List.append_assoc target.route first rest)
      exact ⟨m, mid, .link size found hfirst, hrest⟩

theorem Way.eq_of_slashes (h : tree.Way n dir steps left base)
    (hslashes : ∀ step ∈ steps, step = .slash) : base = dir := by
  induction h with
  | stop => rfl
  | slash _ ih => exact ih fun step hstep => hslashes step (List.mem_cons_of_mem _ hstep)
  | here => exact absurd (hslashes _ List.mem_cons_self) (by simp)
  | up => exact absurd (hslashes _ List.mem_cons_self) (by simp)
  | into => exact absurd (hslashes _ List.mem_cons_self) (by simp)
  | link => exact absurd (hslashes _ List.mem_cons_self) (by simp)

/-- Steps that stay where they are can be left out of a way. -/
theorem Way.filter {first : List Step} (h : tree.Way n dir (first ++ rest) left base) :
    tree.Way n dir (first ++ rest.filter (· != .here)) left base := by
  generalize hsteps : first ++ rest = steps at h
  induction h generalizing first rest with
  | stop =>
    obtain ⟨rfl, rfl⟩ := List.append_eq_nil_iff.1 hsteps
    exact .stop
  | @here n dir tail left base more ih =>
    rcases List.append_eq_cons_iff.1 hsteps with ⟨rfl, rfl⟩ | ⟨first, rfl, htail⟩
    · exact @ih tail [] rfl
    · exact .here (ih htail.symm)
  | @slash n dir tail left base more ih =>
    rcases List.append_eq_cons_iff.1 hsteps with ⟨rfl, rfl⟩ | ⟨first, rfl, htail⟩
    · exact .slash (@ih tail [] rfl)
    · exact .slash (ih htail.symm)
  | @up n dir tail left base more ih =>
    rcases List.append_eq_cons_iff.1 hsteps with ⟨rfl, rfl⟩ | ⟨first, rfl, htail⟩
    · exact .up (@ih tail [] rfl)
    · exact .up (ih htail.symm)
  | @into n dir name tail left base size found more ih =>
    rcases List.append_eq_cons_iff.1 hsteps with ⟨rfl, rfl⟩ | ⟨first, rfl, htail⟩
    · exact .into size found (@ih tail [] rfl)
    · exact .into size found (ih htail.symm)
  | @link n dir name target tail left base size found more ih =>
    rcases List.append_eq_cons_iff.1 hsteps with ⟨rfl, rfl⟩ | ⟨first, rfl, rfl⟩
    · exact .link size found (@ih tail target.route rfl)
    · have hway := ih (List.append_assoc target.route first rest)
      rw [List.append_assoc] at hway
      exact .link size found hway

theorem Way.plain {absolute : Bool} (h : tree.Way n dir steps left base) :
    tree.Way n dir (Path.plain absolute steps) left base := by
  cases steps with
  | nil => exact h
  | cons first rest =>
    have hfiltered : tree.Way n dir (first :: rest.filter (· != .here)) left base :=
      @Way.filter _ _ _ _ _ rest [first] h
    rw [Path.plain]
    split
    · next hfirst =>
      obtain rfl : first = .here := by simpa using (Bool.and_eq_true_iff.1 hfirst).2
      cases hfiltered with
      | here more => exact more
    · exact hfiltered

end Walk

/-- Every location that some names lead to, one after another, from a directory. -/
def Along (A : Location → Prop) : Location → List String → Prop
  | _, [] => True
  | dir, name :: names => A (name :: dir) ∧ Along A (name :: dir) names

def NoLink (tree : FileTree) (loc : Location) : Prop :=
  ∀ target, tree.find? loc ≠ some (.link target)

section Names
variable {tree other : FileTree} {purpose : Purpose} {m n : Nat} {dir loc : Location}
  {names more : List String} {slashes : List Step} {A B : Location → Prop}

theorem Along.imp (h : Along A dir names) (hAB : ∀ loc, A loc → B loc) : Along B dir names := by
  induction names generalizing dir with
  | nil => trivial
  | cons name names ih => exact ⟨hAB _ h.1, ih h.2⟩

theorem along_append : Along A dir (names ++ more) ↔
    Along A dir names ∧ Along A (names.reverse ++ dir) more := by
  induction names generalizing dir with
  | nil => simp [Along]
  | cons name names ih => simp [Along, ih, and_assoc]

theorem Along.last {name : String} (h : Along A dir (names ++ [name])) :
    A (name :: (names.reverse ++ dir)) :=
  (along_append.1 h).2.1

theorem walk_last {name : String} (hlink : tree.NoLink (name :: dir)) :
    tree.walk purpose n dir [.into name] =
      if maxNameBytes < name.utf8ByteSize then .error .nameTooLong else .ok (name :: dir) := by
  have henter : tree.enter purpose n dir name [] (tree.find? (name :: dir)) = .ok (name :: dir) := by
    cases hfind : tree.find? (name :: dir) with
    | none => rfl
    | some entry =>
      cases entry with
      | file content => rfl
      | directory => exact walk_nil
      | link target => exact absurd hfind (hlink target)
  rw [walk_into, if_neg (by simp), henter]

/-- Names that are no links lead to the same place in two trees that agree about them. -/
theorem walk_names_congr (hslashes : ∀ step ∈ slashes, step = .slash)
    (h : Along (fun loc => tree.find? loc = other.find? loc ∧ tree.NoLink loc) dir names) :
    tree.walk purpose m dir (names.map .into ++ slashes) =
      other.walk purpose n dir (names.map .into ++ slashes) := by
  induction names generalizing dir with
  | nil =>
    simp only [List.map_nil, List.nil_append]
    induction slashes with
    | nil => rw [walk_nil, walk_nil]
    | cons step slashes ih =>
      obtain ⟨rfl, hmore⟩ := List.forall_mem_cons.1 hslashes
      rw [walk_slash, walk_slash, ih hmore]
  | cons name names ih =>
    obtain ⟨⟨heq, hlink⟩, hmore⟩ := h
    rw [List.map_cons, List.cons_append, walk_into, walk_into, ← heq]
    cases hfind : tree.find? (name :: dir) with
    | none => rfl
    | some entry =>
      cases entry with
      | file content => rfl
      | directory => simp only [enter, ih hmore]
      | link target => exact absurd hfind (hlink target)

theorem walk_names_eq (hslashes : ∀ step ∈ slashes, step = .slash)
    (hlinks : Along tree.NoLink dir names)
    (h : tree.walk purpose n dir (names.map .into ++ slashes) = .ok loc) :
    loc = names.reverse ++ dir := by
  induction names generalizing dir with
  | nil =>
    simp only [List.map_nil, List.nil_append, List.reverse_nil] at h ⊢
    induction slashes with
    | nil =>
      rw [walk_nil] at h
      cases h
      rfl
    | cons step slashes ih =>
      obtain ⟨rfl, hmore⟩ := List.forall_mem_cons.1 hslashes
      rw [walk_slash] at h
      exact ih hmore h
  | cons name names ih =>
    obtain ⟨hlink, hmore⟩ := hlinks
    rw [List.map_cons, List.cons_append] at h
    obtain ⟨-, ⟨hrest, rfl, -⟩ | ⟨-, hwalk⟩ | ⟨target, hfound, -⟩⟩ := walk_into_cases h
    · obtain rfl := List.map_eq_nil_iff.1 (List.append_eq_nil_iff.1 hrest).1
      rfl
    · simp [ih hmore hwalk]
    · exact absurd hfound (hlink target)

end Names

end FileTree

end Unbundle.Files
