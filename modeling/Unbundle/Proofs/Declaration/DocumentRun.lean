import Unbundle.Proofs.Declaration.Document
import Unbundle.Proofs.Declaration.Steps

/-! Reading the text of a document. A capture that begins a block of the text comes out of it with
what the block says and has noted nothing, so from the start it reads a whole document, or one up to
the middle of a block, as the document says. -/

namespace Unbundle.Declaration
open Std (ExtTreeMap)

variable {split : Bool}

theorem notMem_insert {β : Type} {map : ExtTreeMap String β} {key : String} {names : List String}
    (hkey : key ∉ names) (hnames : ∀ name ∈ names, name ∉ map) (value : β) :
    ∀ name ∈ names, name ∉ map.insert key value := by
  intro name hname hmem
  rcases ExtTreeMap.mem_insert.1 hmem with heq | hmem
  · rw [Std.LawfulEqOrd.compare_eq_iff_eq] at heq
    exact hkey (heq ▸ hname)
  · exact hnames name hname hmem

namespace Capture

/-- The same capture at another place, some lines further on. -/
def goes (capture : Capture) (place : Place) (lines : Nat) : Capture :=
  { capture with place, line := capture.line + lines }

@[simp] theorem goes_goes (capture : Capture) (place place' : Place) (n m : Nat) :
    (capture.goes place n).goes place' m = capture.goes place' (n + m) := by
  simp [goes, Nat.add_assoc]

theorem goes_zero {capture : Capture} {place : Place} (hp : capture.place = place) :
    capture.goes place 0 = capture := by
  subst hp; rfl

theorem takeAll_body {capture : Capture} {block : ModuleBlock} {version : VersionBlock}
    {body : List String} (hp : capture.place = .inside block (.version version))
    (hbody : ∀ line ∈ body, StaysInModule line ∧ line ≠ versionClose) :
    capture.takeAll body =
      capture.goes (.inside block (.version ⟨version.name, ⟨version.slice.lines ++ body.map
        (Reference.localize ⟨block.name, some version.name⟩ capture.direction)⟩⟩)) body.length := by
  induction body generalizing capture version with
  | nil => simpa using (goes_zero hp).symm
  | cons line body ih =>
    obtain ⟨hstays, hclose⟩ := hbody line (by simp)
    have htake : capture.take line =
        capture.goes (.inside block (.version (version.push
          (Reference.localize ⟨block.name, some version.name⟩ capture.direction line)))) 1 := by
      rw [take_inside hp (endsModule_eq_false_iff.2 hstays)]
      simp [within, hclose, counted, goes]
    rw [takeAll_cons, htake, ih rfl fun l hl => hbody l (by simp [hl]), goes_goes]
    simp [goes, VersionBlock.push, Slice.push, Nat.add_comm 1]

theorem takeAll_versionHead {capture : Capture} {block : ModuleBlock} {text : VersionText}
    (hp : capture.place = .inside block .body) (hsplit : capture.options.splitVersions = true)
    (hnew : text.name ∉ block.slices.versions) :
    capture.takeAll text.head =
      capture.goes (.inside block (.version
        ⟨text.name, text.slice capture.direction capture.options.header block.name⟩))
        text.head.length := by
  have hopens := versionOpened?_eq_some.2 text.opens
  have htake : capture.take text.opener =
      capture.goes (.inside block (.version ⟨text.name, .ofHeader capture.options.header⟩)) 1 := by
    have hends : endsModule text.opener = false := endsModule_eq_false.2
      ⟨ne_moduleClose_of_versionOpened? hopens, moduleOpened?_of_versionOpened? hopens⟩
    have hopened : capture.counted.opensVersion? text.opener = some text.name :=
      opensVersion?_of_split hsplit hopens
    rw [take_inside hp hends, within_body_of_opensVersion? block hopened,
      enterVersion_of_notMem hnew]
    rfl
  rw [VersionText.head, takeAll_cons, htake, takeAll_body rfl text.inside, goes_goes]
  simp [goes, VersionText.slice, Slice.ofHeader, Nat.add_comm 1]

theorem take_versionClose {capture : Capture} {block : ModuleBlock} {version : VersionBlock}
    (hp : capture.place = .inside block (.version version)) :
    capture.take versionClose = capture.goes (.inside (block.keep version) .body) 1 := by
  have hends : endsModule versionClose = false :=
    endsModule_eq_false.2 ⟨by decide, moduleOpened?_versionClose⟩
  rw [take_inside hp hends]
  simp [within, counted, goes]

theorem take_plain {capture : Capture} {block : ModuleBlock} {line : String}
    (hp : capture.place = .inside block .body) (hstays : StaysInModule line)
    (hnone : capture.options.splitVersions = true → ∀ name, ¬ OpensVersion line name) :
    capture.take line = capture.goes (.inside (block.push
      (Reference.localize ⟨block.name, none⟩ capture.direction line)) .body) 1 := by
  have hopens : capture.counted.opensVersion? line = none := by
    unfold opensVersion? counted
    split
    · next hsplit =>
      refine Option.eq_none_iff_forall_ne_some.2 fun name hname => ?_
      exact hnone hsplit name (versionOpened?_eq_some.1 hname)
    · rfl
  rw [take_inside hp (endsModule_eq_false_iff.2 hstays)]
  simp only [within, hopens]
  rfl

theorem takeAll_items (capture : Capture) (block : ModuleBlock) {items : List (Item split)}
    (hp : capture.place = .inside block .body) (hsplit : capture.options.splitVersions = split)
    (hnew : ∀ name ∈ versionNames items, name ∉ block.slices.versions)
    (hdistinct : (versionNames items).Nodup) :
    capture.takeAll (items.flatMap Item.lines) =
      capture.goes
        (.inside (block.absorb capture.direction capture.options.header items) .body)
        (items.flatMap Item.lines).length := by
  induction items generalizing capture block with
  | nil => simpa [ModuleBlock.absorb] using (goes_zero hp).symm
  | cons item items ih =>
    cases item with
    | plain line hstays hnone =>
      have htake := take_plain hp hstays (fun h => hnone (hsplit ▸ h))
      have hrest := fun next => ih (capture.goes (.inside next .body) 1) next rfl hsplit
      rw [List.flatMap_cons, Item.lines, List.singleton_append, takeAll_cons, htake,
        hrest (block.push _) hnew hdistinct, goes_goes]
      simp [absorb_plain, goes, Nat.add_comm 1]
    | version text hs =>
      simp only [versionNames, List.filterMap_cons, Item.version?, List.map_cons,
        List.nodup_cons, List.mem_cons, forall_eq_or_imp] at hnew hdistinct
      have hhead := takeAll_versionHead hp (hsplit.trans hs) hnew.1
      have hrest := fun n => ih
        (capture.goes (.inside (block.keep ⟨text.name,
          text.slice capture.direction capture.options.header block.name⟩) .body) n) _ rfl hsplit
        (notMem_insert hdistinct.1 hnew.2 _) hdistinct.2
      rw [List.flatMap_cons, Item.lines, VersionText.lines, takeAll_append, takeAll_append, hhead,
        takeAll_cons, takeAll_nil, take_versionClose rfl, goes_goes,
        hrest, goes_goes]
      simp [absorb_version, goes, Nat.add_assoc, Nat.add_comm 1]

theorem takeAll_moduleHead {capture : Capture} {text : ModuleText split}
    (hp : capture.place = .outside) (hsplit : capture.options.splitVersions = split)
    (hnew : text.name ∉ capture.modules) :
    capture.takeAll text.head =
      capture.goes (.inside
        ⟨text.name, text.slices capture.direction capture.options.header⟩ .body)
        text.head.length := by
  let block : ModuleBlock := ⟨text.name, { own := .ofHeader capture.options.header }⟩
  have htake : capture.take text.opener = capture.goes (.inside block .body) 1 := by
    rw [take_of_moduleOpened? capture (moduleOpened?_eq_some.2 text.opens)]
    simp [settled, counted, enterModule_of_notMem, hp, hnew, goes, block]
  have hempty : ∀ name ∈ versionNames text.items, name ∉ block.slices.versions := by
    intro name _
    exact ExtTreeMap.not_mem_empty
  rw [ModuleText.head, takeAll_cons, htake,
    takeAll_items (capture.goes (.inside block .body) 1) block rfl hsplit hempty text.distinct,
    goes_goes]
  simp [goes, ModuleText.slices, ModuleBlock.absorb, block, Nat.add_comm 1]

theorem take_junk {capture : Capture} {line : String} (hp : capture.place = .outside)
    (hnone : ∀ name, ¬ OpensModule line name) : capture.take line = capture.counted := by
  have hopens : moduleOpened? line = none := Option.eq_none_iff_forall_ne_some.2 fun name h =>
    hnone name (moduleOpened?_eq_some.1 h)
  simp [take, step, counted, hp, hopens]

theorem takeAll_parts (capture : Capture) {parts : List (Part split)}
    (hp : capture.place = .outside) (hsplit : capture.options.splitVersions = split)
    (hnew : ∀ name ∈ moduleNames parts, name ∉ capture.modules)
    (hdistinct : (moduleNames parts).Nodup) :
    capture.takeAll (parts.flatMap Part.lines) =
      { capture with
        modules := capture.modules.insertMany
          (entries capture.direction capture.options.header parts)
        line := capture.line + (parts.flatMap Part.lines).length } := by
  induction parts generalizing capture with
  | nil => simp [entries]
  | cons part parts ih =>
    cases part with
    | junk line hnone =>
      have hrest := ih capture.counted hp hsplit hnew hdistinct
      rw [List.flatMap_cons, Part.lines, List.singleton_append, takeAll_cons, take_junk hp hnone,
        hrest]
      simp [entries, List.filterMap_cons, Part.module?, counted, Nat.add_assoc, Nat.add_comm 1]
    | module text =>
      simp only [moduleNames, List.filterMap_cons, Part.module?, List.map_cons,
        List.nodup_cons, List.mem_cons, forall_eq_or_imp] at hnew hdistinct
      let slices := text.slices capture.direction capture.options.header
      let next := { capture with
        modules := capture.modules.insert text.name slices
        line := capture.line + text.head.length + 1 }
      have hclose : (capture.takeAll text.head).take moduleClose = next := by
        rw [takeAll_moduleHead hp hsplit hnew.1, take_moduleClose]
        simp [closed, counted, goes, abandon, keepModule, next, slices, hp]
      have hnew' := notMem_insert hdistinct.1 hnew.2 slices
      rw [List.flatMap_cons, Part.lines, ModuleText.lines, takeAll_append, takeAll_append,
        takeAll_cons, takeAll_nil, hclose, ih next hp hsplit hnew' hdistinct.2]
      simp [entries, Part.module?, next, slices, ExtTreeMap.insertMany_cons, Nat.add_assoc,
        Nat.add_comm 1]

end Capture

section Reading
variable (direction : Direction) (options : Options)

theorem takeAll_document (doc : Document options.splitVersions) :
    (Capture.initial direction options).takeAll doc.lines =
      { Capture.initial direction options with
        modules := .ofList (entries direction options.header doc.parts)
        line := doc.lines.length } := by
  have hnew : ∀ name ∈ moduleNames doc.parts, name ∉ (Capture.initial direction options).modules :=
    fun _ _ => ExtTreeMap.not_mem_empty
  have h := Capture.takeAll_parts (Capture.initial direction options) rfl rfl hnew doc.distinct
  simpa [Document.lines, Capture.initial, ExtTreeMap.ofList_eq_insertMany_empty] using h

theorem takeAll_inModule {doc : Document options.splitVersions}
    {text : ModuleText options.splitVersions} (isNew : text.name ∉ moduleNames doc.parts) :
    (Capture.initial direction options).takeAll (doc.lines ++ text.head) =
      ((Capture.initial direction options).takeAll doc.lines).goes
        (.inside ⟨text.name, text.slices direction options.header⟩ .body) text.head.length := by
  rw [Capture.takeAll_append, takeAll_document]
  exact Capture.takeAll_moduleHead rfl rfl fun h => isNew ((mem_entries direction options.header).1 h)

theorem takeAll_inVersion {doc : Document options.splitVersions}
    {text : ModuleText options.splitVersions} (isNew : text.name ∉ moduleNames doc.parts)
    {version : VersionText} (isSplit : options.splitVersions = true)
    (isNewVersion : version.name ∉ versionNames text.items) :
    (Capture.initial direction options).takeAll (doc.lines ++ text.head ++ version.head) =
      ((Capture.initial direction options).takeAll (doc.lines ++ text.head)).goes
        (.inside ⟨text.name, text.slices direction options.header⟩
          (.version ⟨version.name, version.slice direction options.header text.name⟩))
        version.head.length := by
  rw [Capture.takeAll_append, takeAll_inModule direction options isNew, takeAll_document]
  exact Capture.takeAll_versionHead rfl isSplit fun h =>
    isNewVersion ((mem_slices_versions direction options.header).1 h)

end Reading

end Unbundle.Declaration
