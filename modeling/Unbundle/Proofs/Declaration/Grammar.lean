import Mathlib.Data.List.Induction
import Unbundle.Proofs.Declaration.Damage
import Unbundle.Proofs.Declaration.DocumentRun

/-! The grammar of undamaged streams. A stream is read without an issue exactly when it is the text
of a document, and what is read is then what the document says. A capture that has noted nothing has
read a document up to some place in it: between two blocks, in a module, or in a version. -/

namespace Unbundle.Declaration
open Std (ExtTreeMap)

variable {split : Bool}

/-- The beginnings of documents. -/
inductive Begun (split : Bool) : List String → Prop where
  | between (doc : Document split) : Begun split doc.lines
  | inModule (doc : Document split) (text : ModuleText split)
      (isNew : text.name ∉ moduleNames doc.parts) : Begun split (doc.lines ++ text.head)
  | inVersion (doc : Document split) (text : ModuleText split)
      (isNew : text.name ∉ moduleNames doc.parts) (version : VersionText) (isSplit : split = true)
      (isNewVersion : version.name ∉ versionNames text.items) :
      Begun split (doc.lines ++ text.head ++ version.head)

theorem nodup_snoc {names : List String} {name : String} (h : names.Nodup) (hname : name ∉ names) :
    (names ++ [name]).Nodup :=
  List.nodup_append.2 ⟨h, by simp, fun a ha b hb => by
    rintro rfl
    exact hname (List.mem_singleton.1 hb ▸ ha)⟩

namespace Begun

theorem snocJunk {doc : Document split} {line : String}
    (hnone : ∀ name, ¬ OpensModule line name) : Begun split (doc.lines ++ [line]) := by
  have hdistinct : (moduleNames (doc.parts ++ [.junk line hnone])).Nodup := by
    simpa [moduleNames, Part.module?, List.filterMap_cons] using doc.distinct
  have h := between ⟨doc.parts ++ [.junk line hnone], hdistinct⟩
  simpa [Document.lines, Part.lines, List.flatMap_append] using h

theorem closeModule {doc : Document split} {text : ModuleText split}
    (isNew : text.name ∉ moduleNames doc.parts) :
    Begun split (doc.lines ++ text.head ++ [moduleClose]) := by
  have hdistinct : (moduleNames (doc.parts ++ [.module text])).Nodup := by
    simpa [moduleNames, Part.module?] using nodup_snoc doc.distinct isNew
  have h := between ⟨doc.parts ++ [.module text], hdistinct⟩
  simpa [Document.lines, Part.lines, ModuleText.lines, List.flatMap_append] using h

theorem snocPlain {doc : Document split} {text : ModuleText split}
    (isNew : text.name ∉ moduleNames doc.parts) {line : String} (hstays : StaysInModule line)
    (hnone : split = true → ∀ name, ¬ OpensVersion line name) :
    Begun split (doc.lines ++ text.head ++ [line]) := by
  have hdistinct : (versionNames (text.items ++ [.plain line hstays hnone])).Nodup := by
    simpa [versionNames, Item.version?, List.filterMap_cons] using text.distinct
  have h := inModule doc
    ⟨text.name, text.opener, text.items ++ [.plain line hstays hnone], text.opens, hdistinct⟩ isNew
  simpa [ModuleText.head, Item.lines, List.flatMap_append] using h

theorem closeVersion {doc : Document split} {text : ModuleText split}
    (isNew : text.name ∉ moduleNames doc.parts) {version : VersionText} (isSplit : split = true)
    (isNewVersion : version.name ∉ versionNames text.items) :
    Begun split (doc.lines ++ text.head ++ version.head ++ [versionClose]) := by
  have hdistinct : (versionNames (text.items ++ [.version version isSplit])).Nodup := by
    simpa [versionNames, Item.version?] using nodup_snoc text.distinct isNewVersion
  have h := inModule doc
    ⟨text.name, text.opener, text.items ++ [.version version isSplit], text.opens, hdistinct⟩ isNew
  simpa [ModuleText.head, Item.lines, VersionText.lines, List.flatMap_append] using h

theorem snocBody {doc : Document split} {text : ModuleText split}
    (isNew : text.name ∉ moduleNames doc.parts) {version : VersionText} (isSplit : split = true)
    (isNewVersion : version.name ∉ versionNames text.items) {line : String}
    (hstays : StaysInModule line) (hclose : line ≠ versionClose) :
    Begun split (doc.lines ++ text.head ++ version.head ++ [line]) := by
  have hinside : ∀ l ∈ version.body ++ [line], StaysInModule l ∧ l ≠ versionClose := by
    intro l hl
    rcases List.mem_append.1 hl with hl | hl
    · exact version.inside l hl
    · exact List.mem_singleton.1 hl ▸ ⟨hstays, hclose⟩
  have h := inVersion doc text isNew
    ⟨version.name, version.opener, version.body ++ [line], version.opens, hinside⟩ isSplit
    isNewVersion
  simpa [VersionText.head] using h

end Begun

section Reading
variable {direction : Direction} {options : Options}

theorem Document.begun_take (doc : Document options.splitVersions) {line : String}
    (hclean : (((Capture.initial direction options).takeAll doc.lines).take line).issues = []) :
    Begun options.splitVersions (doc.lines ++ [line]) := by
  cases hopens : moduleOpened? line with
  | none =>
    refine Begun.snocJunk fun name h => ?_
    rw [moduleOpened?_eq_some.2 h] at hopens
    cases hopens
  | some name =>
    by_cases hnew : name ∈ moduleNames doc.parts
    · have hmem : name ∈ ((Capture.initial direction options).takeAll doc.lines).modules := by
        rw [takeAll_document]
        exact (mem_entries direction options.header).2 hnew
      exact absurd hclean (Capture.reports_take_of_mem hmem hopens).issues_ne_nil
    · have h := Begun.inModule doc
        ⟨name, line, [], moduleOpened?_eq_some.1 hopens, by simp [versionNames]⟩ hnew
      simpa [ModuleText.head] using h

theorem ModuleText.begun_take {doc : Document options.splitVersions}
    {text : ModuleText options.splitVersions} (isNew : text.name ∉ moduleNames doc.parts)
    {line : String}
    (hclean : (((Capture.initial direction options).takeAll (doc.lines ++ text.head)).take
      line).issues = []) :
    Begun options.splitVersions (doc.lines ++ text.head ++ [line]) := by
  have hp := congrArg Capture.place (takeAll_inModule direction options isNew)
  cases hends : endsModule line with
  | true =>
    rcases endsModule_iff.1 hends with rfl | ⟨name, hopens⟩
    · exact Begun.closeModule isNew
    · exact absurd hclean (Capture.reports_take_of_inside hp hopens).issues_ne_nil
  | false =>
    have hstays := endsModule_eq_false_iff.1 hends
    by_cases hv : options.splitVersions = true ∧ ∃ name, OpensVersion line name
    · obtain ⟨isSplit, name, hv⟩ := hv
      by_cases hnew : name ∈ versionNames text.items
      · have hsplit : ((Capture.initial direction options).takeAll
            (doc.lines ++ text.head)).options.splitVersions = true := by
          rw [(Capture.grows_takeAll _ _).options]
          exact isSplit
        have hopens := Capture.opensVersion?_of_split hsplit (versionOpened?_eq_some.2 hv)
        have hmem := (mem_slices_versions direction options.header).2 hnew
        exact absurd hclean
          (Capture.reports_take_of_version_mem hp hends hopens hmem).issues_ne_nil
      · have h := Begun.inVersion doc text isNew ⟨name, line, [], hv, by simp⟩ isSplit hnew
        simpa [VersionText.head] using h
    · exact Begun.snocPlain isNew hstays fun isSplit name h => hv ⟨isSplit, name, h⟩

theorem VersionText.begun_take {doc : Document options.splitVersions}
    {text : ModuleText options.splitVersions} (isNew : text.name ∉ moduleNames doc.parts)
    {version : VersionText} (isSplit : options.splitVersions = true)
    (isNewVersion : version.name ∉ versionNames text.items) {line : String}
    (hclean : (((Capture.initial direction options).takeAll
      (doc.lines ++ text.head ++ version.head)).take line).issues = []) :
    Begun options.splitVersions (doc.lines ++ text.head ++ version.head ++ [line]) := by
  have hp := congrArg Capture.place (takeAll_inVersion direction options isNew isSplit isNewVersion)
  cases hends : endsModule line with
  | true =>
    rcases endsModule_iff.1 hends with rfl | ⟨name, hopens⟩
    · exact absurd hclean (Capture.reports_take_moduleClose hp).issues_ne_nil
    · exact absurd hclean (Capture.reports_take_of_inside hp hopens).issues_ne_nil
  | false =>
    have hstays := endsModule_eq_false_iff.1 hends
    by_cases hclose : line = versionClose
    · exact hclose ▸ Begun.closeVersion isNew isSplit isNewVersion
    · exact Begun.snocBody isNew isSplit isNewVersion hstays hclose

/-- As long as nothing is noted, every line goes on with a document. -/
theorem Begun.take {lines : List String} {line : String} (h : Begun options.splitVersions lines)
    (hclean : ((Capture.initial direction options).takeAll (lines ++ [line])).issues = []) :
    Begun options.splitVersions (lines ++ [line]) := by
  rw [Capture.takeAll_append, Capture.takeAll_cons, Capture.takeAll_nil] at hclean
  cases h with
  | between doc => exact doc.begun_take hclean
  | inModule doc text isNew => exact ModuleText.begun_take isNew hclean
  | inVersion doc text isNew version isSplit isNewVersion =>
    exact VersionText.begun_take isNew isSplit isNewVersion hclean

theorem begun_of_clean {lines : List String}
    (h : ((Capture.initial direction options).takeAll lines).issues = []) :
    Begun options.splitVersions lines := by
  induction lines using List.reverseRecOn with
  | nil => exact .between ⟨[], List.nodup_nil⟩
  | append_singleton lines line ih =>
    have hgrows := Capture.grows_take ((Capture.initial direction options).takeAll lines) line
    have hbefore := h
    rw [Capture.takeAll_append, Capture.takeAll_cons, Capture.takeAll_nil] at hbefore
    exact (ih (List.prefix_nil.1 (hbefore ▸ hgrows.issues))).take h

theorem exists_document_of_clean {lines : List String}
    (h : (Stream.ofLines direction options lines).issues = []) :
    ∃ doc : Document options.splitVersions, doc.lines = lines := by
  have hsettled : ((Capture.initial direction options).takeAll lines).settled.issues = [] := by
    rw [Stream.ofLines, Capture.stream_eq] at h
    exact h
  have hgrows := Capture.grows_settled ((Capture.initial direction options).takeAll lines)
  cases begun_of_clean (List.prefix_nil.1 (hsettled ▸ hgrows.issues)) with
  | between doc => exact ⟨doc, rfl⟩
  | inModule doc text isNew =>
    have hp := congrArg Capture.place (takeAll_inModule direction options isNew)
    exact absurd hsettled (Capture.reports_settled hp).issues_ne_nil
  | inVersion doc text isNew version isSplit isNewVersion =>
    have hp := congrArg Capture.place (takeAll_inVersion direction options isNew isSplit isNewVersion)
    exact absurd hsettled (Capture.reports_settled hp).issues_ne_nil

theorem ofLines_document (doc : Document options.splitVersions) :
    Stream.ofLines direction options doc.lines =
      ⟨direction, .ofList (entries direction options.header doc.parts), []⟩ := by
  change ((Capture.initial direction options).takeAll doc.lines).stream = _
  rw [takeAll_document, Capture.stream_eq]
  rfl

end Reading

/-- Streams without an issue are the texts of documents, and reading one gives what it says. -/
theorem isClean_iff_document (direction : Direction) (options : Options) (lines : List String) :
    ((Stream.ofLines direction options lines).isClean = true ↔
      ∃ doc : Document options.splitVersions, doc.lines = lines) ∧
    ∀ doc : Document options.splitVersions, doc.lines = lines →
      (∀ name, name ∈ (Stream.ofLines direction options lines).modules ↔
        ∃ text ∈ doc.modules, text.name = name) ∧
      ∀ text ∈ doc.modules, ∃ slices,
        (Stream.ofLines direction options lines).modules[text.name]? = some slices ∧
        slices.own.lines = options.header ::
          text.plainLines.map (Reference.localize ⟨text.name, none⟩ direction) ∧
        (∀ name, name ∈ slices.versions ↔ ∃ version ∈ text.versions, version.name = name) ∧
        ∀ version ∈ text.versions, slices.versions[version.name]? = some ⟨options.header ::
          version.body.map (Reference.localize ⟨text.name, some version.name⟩ direction)⟩ := by
  constructor
  · rw [Stream.isClean, List.isEmpty_iff]
    constructor
    · exact exists_document_of_clean
    · rintro ⟨doc, rfl⟩
      rw [ofLines_document]
  · rintro doc rfl
    rw [ofLines_document]
    refine ⟨fun name => ?_, fun text htext => ?_⟩
    · rw [mem_entries, moduleNames, List.mem_map]
      rfl
    · refine ⟨_, getElem?_entries direction options.header doc htext,
        slices_own direction options.header text, fun name => ?_, fun version hversion => ?_⟩
      · rw [mem_slices_versions direction options.header, versionNames, List.mem_map]
        rfl
      · exact getElem?_slices_versions direction options.header hversion

/-- A module with a line of its own and a version, behind a line that belongs to none. -/
def Document.twoScopes : Document true where
  parts :=
    [.junk "import" (fun _ h => nomatch moduleOpened?_eq_some.2 h),
     .module
      { name := "Foo"
        opener := "export namespace Foo \x7b"
        items :=
          [.plain "    a: outputs.Foo.A;" (endsModule_eq_false_iff.1 (by decide))
            (fun _ _ h => nomatch versionOpened?_eq_some.2 h),
           .version
            { name := "v1"
              opener := "    export namespace v1 \x7b"
              body := ["        outputs.Foo.v1.B"]
              opens := versionOpened?_eq_some.1 (by decide)
              inside := by
                intro line hline
                obtain rfl := List.mem_singleton.1 hline
                exact ⟨endsModule_eq_false_iff.1 (by decide), by decide⟩ } rfl]
        opens := moduleOpened?_eq_some.1 (by decide)
        distinct := by decide }]
  distinct := by decide

theorem isClean_twoScopes :
    (Stream.ofLines .outputs ⟨"header", true⟩ Document.twoScopes.lines).isClean = true ∧
    ∃ slices, (Stream.ofLines .outputs ⟨"header", true⟩ Document.twoScopes.lines).modules["Foo"]? =
        some slices ∧
      slices.own.lines = ["header", "a: A;"] ∧
      slices.versions["v1"]? = some ⟨["header", "    B"]⟩ := by
  have h := isClean_iff_document .outputs ⟨"header", true⟩ Document.twoScopes.lines
  obtain ⟨hkeys, hcontents⟩ := h.2 Document.twoScopes rfl
  obtain ⟨slices, hslices, hown, -, hversions⟩ := hcontents _ (List.mem_singleton.2 rfl)
  refine ⟨h.1.2 ⟨_, rfl⟩, slices, hslices, hown.trans (by decide +kernel), ?_⟩
  exact (hversions _ (List.mem_singleton.2 rfl)).trans (by decide +kernel)

end Unbundle.Declaration
