import Unbundle.Proofs.Build.TypesDeeds

/-! The types of a module and of its versions go by scripts: the enums are read and then the types
are written, whatever was found. -/

namespace Unbundle.Build
open Std (ExtTreeMap)
open Unbundle.Files Unbundle.Declaration Unbundle.Types

/-- What a disk reads at a path, or nothing where nothing is. -/
def Reads? (d : Disk) (path : Files.Path) : Option String → Prop
  | some text => d.readText path = .ok text
  | none => d.readText path = .error .notFound

/-- What a disk lists at a path, or nothing where nothing is. -/
def Lists? (d : Disk) (path : Files.Path) (entries : List (String × Entry)) : Prop :=
  d.list path = .ok entries ∨ d.list path = .error .notFound ∧ entries = []

/-- The enum sources of all versions of a module that have one, as they are on a disk. -/
def Gathers (sdk : SdkLayout) (module : String) (d : Disk) (texts : ExtTreeMap String String) :
    Prop :=
  ∃ entries, Lists? d (sdk.enums.join module) entries ∧
    (∀ version ∉ directoryNames entries, texts[version]? = none) ∧
    ∀ version ∈ directoryNames entries, ∃ text, Reads? d (sdk.versionEnums module version) text ∧
      texts[version]? = text.map fromFirstConstant

section Enums
variable {sdk : SdkLayout} {module version : String} {d d' : Disk} {path : Files.Path}
  {text other : Option String} {texts found : ExtTreeMap String String} {versions : List String}

theorem Reads?.unique (h : Reads? d path text) (hother : Reads? d path other) : text = other := by
  cases text with
  | none =>
    cases other with
    | none => rfl
    | some _ => cases h.symm.trans hother
  | some _ =>
    cases other with
    | none => cases h.symm.trans hother
    | some _ => exact congrArg some (Except.ok.inj (h.symm.trans hother))

theorem reads?_of_run (h : (Work.readText? path).run.run d = (.ok text, d')) :
    d' = d ∧ Reads? d path text := by
  rw [run_readText?] at h
  cases hread : d.readText path with
  | ok found =>
    rw [hread] at h
    cases h
    exact ⟨rfl, hread⟩
  | error fault =>
    rw [hread] at h
    cases fault
    case notFound =>
      cases h
      exact ⟨rfl, hread⟩
    all_goals cases h

theorem run_addVersionEnums
    (h : (addVersionEnums sdk module texts version).run.run d = (.ok found, d')) :
    d' = d ∧ ∃ text, Reads? d (sdk.versionEnums module version) text ∧
      found[version]? = (text.map fromFirstConstant <|> texts[version]?) ∧
      ∀ other, other ≠ version → found[other]? = texts[other]? := by
  unfold addVersionEnums versionEnums? at h
  rw [run_bind, run_bind] at h
  rcases hread : (Work.readText? (sdk.versionEnums module version)).run.run d with ⟨result, d₁⟩
  rw [hread] at h
  cases result with
  | error failure => cases h
  | ok text =>
    obtain ⟨rfl, hreads⟩ := reads?_of_run hread
    cases text with
    | none =>
      cases h
      exact ⟨rfl, none, hreads, rfl, fun _ _ => rfl⟩
    | some text =>
      cases h
      refine ⟨rfl, some text, hreads, by simp, fun other hother => ?_⟩
      rw [ExtTreeMap.getElem?_insert]
      simp [Ne.symm hother]

theorem run_foldlM_addVersionEnums
    (h : (versions.foldlM (addVersionEnums sdk module) texts).run.run d = (.ok found, d')) :
    d' = d ∧ (∀ version ∉ versions, found[version]? = texts[version]?) ∧
      ∀ version ∈ versions, ∃ text, Reads? d (sdk.versionEnums module version) text ∧
        found[version]? = (text.map fromFirstConstant <|> texts[version]?) := by
  induction versions generalizing texts with
  | nil =>
    cases h
    exact ⟨rfl, fun _ _ => rfl, nofun⟩
  | cons first versions ih =>
    rw [List.foldlM_cons, run_bind] at h
    rcases hfirst : (addVersionEnums sdk module texts first).run.run d with ⟨result, d₁⟩
    rw [hfirst] at h
    cases result with
    | error failure => cases h
    | ok more =>
      obtain ⟨rfl, text, htext, hmore, hothers⟩ := run_addVersionEnums hfirst
      obtain ⟨heq, hrest, hfound⟩ := ih h
      refine ⟨heq, fun version hversion => ?_, fun version hversion => ?_⟩
      · obtain ⟨hne, hmem⟩ := not_or.1 (mt List.mem_cons.2 hversion)
        rw [hrest version hmem, hothers version hne]
      · by_cases hmem : version ∈ versions
        · obtain ⟨again, hagain, hget⟩ := hfound version hmem
          refine ⟨again, hagain, ?_⟩
          rw [hget]
          by_cases heq : version = first
          · subst heq
            obtain rfl := hagain.unique htext
            rw [hmore]
            cases again <;> rfl
          · rw [hothers version heq]
        · obtain rfl := (List.mem_cons.1 hversion).resolve_right hmem
          exact ⟨text, htext, (hrest _ hmem).trans hmore⟩

theorem run_allVersionEnums (h : (allVersionEnums sdk module).run.run d = (.ok found, d')) :
    d' = d ∧ Gathers sdk module d found := by
  unfold allVersionEnums at h
  rw [run_bind, run_listIfPresent] at h
  have hgather : ∀ entries, Lists? d (sdk.enums.join module) entries →
      ((directoryNames entries).foldlM (addVersionEnums sdk module) ∅).run.run d = (.ok found, d') →
      d' = d ∧ Gathers sdk module d found := by
    intro entries hlist h
    obtain ⟨heq, hrest, hfound⟩ := run_foldlM_addVersionEnums h
    refine ⟨heq, entries, hlist, fun version hversion => ?_, fun version hversion => ?_⟩
    · rw [hrest version hversion, ExtTreeMap.getElem?_empty]
    · obtain ⟨text, htext, hget⟩ := hfound version hversion
      refine ⟨text, htext, ?_⟩
      rw [hget, ExtTreeMap.getElem?_empty]
      cases text <;> rfl
  cases hlist : d.list (sdk.enums.join module) with
  | ok entries =>
    rw [hlist] at h
    exact hgather entries (.inl hlist) h
  | error fault =>
    rw [hlist] at h
    cases fault
    case notFound => exact hgather [] (.inr ⟨hlist, rfl⟩) h
    all_goals cases h

end Enums

namespace Workplace

/-- What a path reads while the units are run. -/
def Finds (w : Workplace) (path : Files.Path) (found : Option String) : Prop :=
  ∃ d, w.Underway d ∧ Reads? d path found

/-- The types of a module, put together from the streams and from the enums in the source. -/
structure OfModule (w : Workplace) (streams : Streams) (module : String) (types : ScopeTypes) :
    Prop where
  inputs : types.inputs = streams.inputs.modules[module]?.map (·.own)
  outputs : types.outputs = streams.outputs.modules[module]?.map (·.own)
  keyed : Keyed types.versionEnums
  enums : w.Finds (w.setup.settings.sdk.moduleEnums module) types.enums
  split : w.setup.settings.splitVersions = true → types.versionEnums = ∅
  inline : w.setup.settings.splitVersions = false →
    ∃ d, w.Underway d ∧ Gathers w.setup.settings.sdk module d types.versionEnums

/-- The types of a version that has a directory of its own. -/
structure OfVersion (w : Workplace) (streams : Streams) (module version : String)
    (types : ScopeTypes) : Prop where
  inputs : types.inputs = streams.inputs.modules[module]?.bind (·.versions[version]?)
  outputs : types.outputs = streams.outputs.modules[module]?.bind (·.versions[version]?)
  versionEnums : types.versionEnums = ∅
  enums : ∃ source, w.Finds (w.setup.settings.sdk.versionEnums module version) source ∧
    types.enums = source.map fromFirstConstant

section Types
variable {w : Workplace} {made : List (List String)} {among : Disk → Prop} {d e : Disk}
  {streams : Streams} {module version : String} {names scope : List String} {types : ScopeTypes}

theorem Steady.readText? (h : w.Steady made among) (hd : among d) (he : among e)
    (hnames : ∀ name ∈ names, IsName name) :
    InStep (fun x y => x = d ∧ y = e)
      (Work.readText? (sourcePath w.setup.settings names)) fun text x =>
        Reads? x (sourcePath w.setup.settings names) text := by
  have hstep : InStep (fun x y => x = d ∧ y = e)
      (Work.readText? (sourcePath w.setup.settings names)) fun _ _ => True :=
    InStep.readText? fun x y ⟨hx, hy⟩ => hx ▸ hy ▸ h.entry hd he hnames
  intro x y hxy
  obtain ⟨hresult, hend, -⟩ := hstep x y hxy
  refine ⟨hresult, hend, fun text htext => ?_⟩
  rcases hrun : (Work.readText? (sourcePath w.setup.settings names)).run.run x with ⟨result, z⟩
  rw [hrun] at htext
  subst htext
  obtain ⟨rfl, hreads⟩ := reads?_of_run hrun
  exact hreads

theorem isName_of_mem_enums {rest : List String} (hmodule : IsName module)
    (hrest : ∀ name ∈ rest, IsName name) :
    ∀ name ∈ typesName :: enumsName :: module :: rest, IsName name :=
  List.forall_mem_cons.2 ⟨isName_typesName, List.forall_mem_cons.2 ⟨isName_enumsName,
    List.forall_mem_cons.2 ⟨hmodule, hrest⟩⟩⟩

theorem Scripted.readText? {kind : Deed → Prop} (hnames : ∀ name ∈ names, IsName name) :
    w.Scripted made kind (Work.readText? (sourcePath w.setup.settings names)) fun text deeds =>
      deeds = [] ∧ w.Finds (sourcePath w.setup.settings names) text := by
  exact .look (fun hsteady hd he => hsteady.readText? hd he hnames) fun hd hfound =>
    ⟨rfl, _, hd, hfound⟩

theorem Scripted.moduleEnums? {kind : Deed → Prop} (hmodule : IsName module)
    (hextension : '/' ∉ w.setup.settings.extension.toList) :
    w.Scripted made kind (moduleEnums? w.setup.settings.sdk module) fun enums deeds =>
      deeds = [] ∧ w.Finds (w.setup.settings.sdk.moduleEnums module) enums := by
  have hpath : w.setup.settings.sdk.moduleEnums module = sourcePath w.setup.settings
      [typesName, enumsName, module, fileName indexStem w.setup.settings.extension] := rfl
  unfold Types.moduleEnums?
  rw [hpath]
  exact .readText? (isName_of_mem_enums hmodule
    (List.forall_mem_singleton.2 (isName_fileName (by decide) hextension)))

theorem versionEnums_eq : w.setup.settings.sdk.versionEnums module version =
    sourcePath w.setup.settings
      [typesName, enumsName, module, version, fileName indexStem w.setup.settings.extension] := rfl

theorem isName_versionEnums (hmodule : IsName module) (hversion : IsName version)
    (hextension : '/' ∉ w.setup.settings.extension.toList) : ∀ name ∈ [typesName, enumsName, module,
      version, fileName indexStem w.setup.settings.extension], IsName name :=
  isName_of_mem_enums hmodule (List.forall_mem_cons.2 ⟨hversion,
    List.forall_mem_singleton.2 (isName_fileName (by decide) hextension)⟩)

theorem Scripted.versionEnums? {kind : Deed → Prop} (hmodule : IsName module)
    (hversion : IsName version) (hextension : '/' ∉ w.setup.settings.extension.toList) :
    w.Scripted made kind (versionEnums? w.setup.settings.sdk module version) fun enums deeds =>
      deeds = [] ∧ ∃ source, w.Finds (w.setup.settings.sdk.versionEnums module version) source ∧
        enums = source.map fromFirstConstant := by
  unfold Types.versionEnums?
  rw [versionEnums_eq]
  exact .bind (.readText? (isName_versionEnums hmodule hversion hextension))
    fun source deeds _ ⟨hdeeds, hsource⟩ _ _ => .pure ⟨by simp [hdeeds], source, hsource, rfl⟩

theorem Steady.allVersionEnums (h : w.Steady made among) (hd : among d) (he : among e)
    (hmodule : IsName module) (hextension : '/' ∉ w.setup.settings.extension.toList) :
    InStep (fun x y => x = d ∧ y = e) (allVersionEnums w.setup.settings.sdk module)
      fun _ _ => True := by
  have hnames : ∀ name ∈ [typesName, enumsName, module], IsName name :=
    isName_of_mem_enums hmodule (by simp)
  have hpath : w.setup.settings.sdk.enums.join module =
      sourcePath w.setup.settings [typesName, enumsName, module] := rfl
  unfold Types.allVersionEnums
  rw [hpath]
  refine .bind (InStep.listIfPresent fun x y ⟨hx, hy⟩ => hx ▸ hy ▸ h.list hd he hnames)
    fun entries _ hlisted => .foldlM (I := fun _ => True) trivial fun texts version hversion _ => ?_
  have hread := h.readText? hd he (isName_versionEnums hmodule
    (isName_of_mem_directoryNames hlisted hversion) hextension)
  unfold addVersionEnums Types.versionEnums?
  rw [versionEnums_eq]
  refine .bind (Q := fun _ _ => True) (.bind (hread.imp fun _ _ _ => trivial)
    fun _ _ _ => .pure fun _ => trivial) fun text _ _ => ?_
  cases text with
  | some text => exact .pure fun _ => trivial
  | none => exact .pure fun _ => trivial

theorem Underway.list_of_fresh (h : w.Underway d) (hfresh : w.Fresh) {path : Files.Path}
    {entries : List (String × Entry)} (hlist : w.ready.list path = .ok entries) :
    ∃ found, d.list path = .ok found ∧
      ∀ name, (name, .directory) ∈ entries → (name, .directory) ∈ found := by
  unfold Disk.list at hlist ⊢
  cases hentry : w.ready.entry path with
  | error fault => simp [hentry, bind, Except.bind] at hlist
  | ok place =>
    obtain ⟨loc, entry⟩ := place
    rw [h.entry_of_fresh hfresh hentry]
    rw [hentry] at hlist
    simp only [bind, Except.bind] at hlist ⊢
    split at hlist
    · next hdirectory =>
      cases hlist
      rw [if_pos hdirectory]
      exact ⟨_, rfl, fun name hmem => FileTree.mem_children.2
        (h.find?_of_fresh hfresh (FileTree.mem_children.1 hmem))⟩
    · cases hlist

theorem mem_directoryNames {entries : List (String × Entry)} :
    version ∈ directoryNames entries ↔ (version, .directory) ∈ entries := by
  unfold directoryNames
  rw [List.mem_map]
  constructor
  · rintro ⟨⟨name, entry⟩, hmem, rfl⟩
    obtain ⟨hmem, hdirectory⟩ := List.mem_filter.1 hmem
    have hentry : entry = .directory := by simpa [Entry.isDirectory] using hdirectory
    exact hentry ▸ hmem
  · intro hmem
    exact ⟨(version, .directory), List.mem_filter.2 ⟨hmem, by simp [Entry.isDirectory]⟩, rfl⟩

theorem Finds.of_fresh {path : Files.Path} {found : Option String} {loc : Location} {entry : Entry}
    (h : w.Finds path found) (hfresh : w.Fresh) (hentry : w.ready.entry path = .ok (loc, entry)) :
    ∃ text, w.ready.readText path = .ok text ∧ found = some text := by
  obtain ⟨d, hd, hreads⟩ := h
  cases found with
  | some text => exact ⟨text, (hd.readText_of_fresh hfresh hentry).symm.trans hreads, rfl⟩
  | none =>
    have hmissing : d.readText path = .error .notFound := hreads
    unfold Disk.readText Disk.readBytes at hmissing
    rw [hd.entry_of_fresh hfresh hentry] at hmissing
    cases entry with
    | file content =>
      simp only [bind, Except.bind] at hmissing
      split at hmissing <;> cases hmissing
    | directory => cases hmissing
    | link target => cases hmissing

theorem finds_of_gathers {texts : ExtTreeMap String String} {entries : List (String × Entry)}
    (h : ∃ d, w.Underway d ∧ Gathers w.setup.settings.sdk module d texts) (hfresh : w.Fresh)
    (hlist : w.ready.list (w.setup.settings.sdk.enums.join module) = .ok entries)
    (hversion : (version, .directory) ∈ entries) :
    ∃ source, w.Finds (w.setup.settings.sdk.versionEnums module version) source ∧
      texts[version]? = source.map fromFirstConstant := by
  obtain ⟨d, hd, listed, hlisted, -, htexts⟩ := h
  obtain ⟨found, hfound, hkept⟩ := hd.list_of_fresh hfresh hlist
  rcases hlisted with hlisted | ⟨hmissing, -⟩
  · obtain rfl : found = listed := Except.ok.inj (hfound.symm.trans hlisted)
    obtain ⟨source, hreads, hget⟩ := htexts version (mem_directoryNames.2 (hkept version hversion))
    exact ⟨source, ⟨d, hd, hreads⟩, hget⟩
  · rw [hfound] at hmissing
    cases hmissing

theorem Scripted.allVersionEnums {kind : Deed → Prop} (hmodule : IsName module)
    (hextension : '/' ∉ w.setup.settings.extension.toList) :
    w.Scripted made kind (allVersionEnums w.setup.settings.sdk module) fun texts deeds =>
      deeds = [] ∧ Keyed texts ∧
        ∃ d, w.Underway d ∧ Gathers w.setup.settings.sdk module d texts := by
  have hlook : ∀ {among d e}, w.Steady made among → among d → among e →
      InStep (fun x y => x = d ∧ y = e) (Types.allVersionEnums w.setup.settings.sdk module)
        fun texts d => Gathers w.setup.settings.sdk module d texts := by
    intro among d e hsteady hd he x y hxy
    obtain ⟨hresult, hend, -⟩ := hsteady.allVersionEnums hd he hmodule hextension x y hxy
    refine ⟨hresult, hend, fun texts htexts => ?_⟩
    rcases hrun : (Types.allVersionEnums w.setup.settings.sdk module).run.run x with ⟨result, z⟩
    rw [hrun] at htexts
    subst htexts
    obtain ⟨rfl, hfound⟩ := run_allVersionEnums hrun
    exact hfound
  refine .look hlook fun {d texts} hd hgathers => ⟨rfl, ?_, d, hd, hgathers⟩
  obtain ⟨entries, hlist, hrest, -⟩ := hgathers
  intro version hversion
  by_cases hmem : version ∈ directoryNames entries
  · rcases hlist with hlist | ⟨-, rfl⟩
    · exact isName_of_mem_directoryNames
        (fun _ hentry => Disk.isName_of_mem_list hlist hentry) hmem
    · cases hmem
  · rw [ExtTreeMap.mem_iff_isSome_getElem?, hrest version hmem] at hversion
    cases hversion

theorem Scripted.writeTypes (hscope : ∀ name ∈ scope, IsName name)
    (hextension : '/' ∉ w.setup.settings.extension.toList) (htexts : Keyed types.versionEnums) :
    w.Scripted made
      (ScopeTypes.IsDeed w.setup.settings.outputRoot scope w.setup.settings.extension)
      (types.write (w.setup.settings.outputRoot.joins scope) w.setup.settings.extension)
      fun _ deeds =>
        deeds = types.deeds w.setup.settings.outputRoot scope w.setup.settings.extension := by
  rw [ScopeTypes.write_eq]
  refine .bind (.perform (fun deed hdeed => ?_) ScopeTypes.founded_deeds)
    fun _ deeds _ hdeeds _ _ => .pure (by simpa using hdeeds)
  have hkind := ScopeTypes.isDeed_of_mem_deeds htexts hdeed
  exact ⟨hkind.named hscope hextension, hkind⟩

theorem Scripted.writeModuleTypes (hmodule : IsName module)
    (hextension : '/' ∉ w.setup.settings.extension.toList) :
    w.Scripted made
      (ScopeTypes.IsDeed w.setup.settings.outputRoot [module] w.setup.settings.extension)
      (w.setup.writeModuleTypes streams module) fun _ deeds =>
        ∃ types, w.OfModule streams module types ∧
          deeds = types.deeds w.setup.settings.outputRoot [module] w.setup.settings.extension := by
  have hscope : ∀ name ∈ [module], IsName name := List.forall_mem_singleton.2 hmodule
  unfold Setup.writeModuleTypes
  refine .bind (.moduleEnums? hmodule hextension) fun enums deeds _ ⟨hdeeds, henums⟩ _ _ => ?_
  subst hdeeds
  simp only
  split
  · next hsplit =>
    refine .bind (.pure (Q := fun texts deeds => deeds = [] ∧ texts = ∅) ⟨rfl, rfl⟩)
      fun texts deeds _ ⟨hdeeds, htexts⟩ _ _ => ?_
    subst hdeeds htexts
    refine (Scripted.writeTypes hscope hextension .empty).imp fun _ deeds hdeeds => ?_
    exact ⟨_, ⟨rfl, rfl, .empty, henums, fun _ => rfl, fun hinline => by simp [hsplit] at hinline⟩,
      by simpa using hdeeds⟩
  · next hinline =>
    refine .bind (.allVersionEnums hmodule hextension)
      fun texts deeds _ ⟨hdeeds, hkeyed, htexts⟩ _ _ => ?_
    subst hdeeds
    refine (Scripted.writeTypes hscope hextension hkeyed).imp fun _ deeds hdeeds => ?_
    exact ⟨_, ⟨rfl, rfl, hkeyed, henums, fun hsplit => absurd hsplit hinline, fun _ => htexts⟩,
      by simpa using hdeeds⟩

theorem Scripted.writeVersionTypes (hmodule : IsName module) (hversion : IsName version)
    (hextension : '/' ∉ w.setup.settings.extension.toList) :
    w.Scripted made
      (ScopeTypes.IsDeed w.setup.settings.outputRoot [module, version] w.setup.settings.extension)
      (w.setup.writeVersionTypes streams module version) fun _ deeds =>
        ∃ types, w.OfVersion streams module version types ∧
          deeds = types.deeds w.setup.settings.outputRoot [module, version]
            w.setup.settings.extension := by
  have hscope : ∀ name ∈ [module, version], IsName name :=
    List.forall_mem_cons.2 ⟨hmodule, List.forall_mem_singleton.2 hversion⟩
  unfold Setup.writeVersionTypes
  refine .bind (.versionEnums? hmodule hversion hextension)
    fun enums deeds _ ⟨hdeeds, henums⟩ _ _ => ?_
  subst hdeeds
  refine (Scripted.writeTypes hscope hextension .empty).imp fun _ deeds hdeeds => ?_
  exact ⟨_, ⟨rfl, rfl, rfl, henums⟩, by simpa using hdeeds⟩

end Types

end Workplace

end Unbundle.Build
