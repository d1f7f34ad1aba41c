import Unbundle.Proofs.Declaration.Positions

/-! When damage to a module is noted. What has been noted stays, so one line that finds a module
still open, or captured before, settles that the module has an issue at the end of the stream. And a
line notes nothing else: an issue is about the module that was left open, or about the scope that
the line opens again. -/

namespace Unbundle.Declaration

namespace Capture

/-- Some damage to a module has been noted. -/
def Reports (name : String) (capture : Capture) : Prop :=
  ∃ issue ∈ capture.issues, issue.scope.module = name

section Reports
variable {capture : Capture} {name line : String}

theorem Reports.mono {later : Capture} (h : Reports name capture) (hgrows : Grows capture later) :
    Reports name later := by
  obtain ⟨issue, hmem, hname⟩ := h
  exact ⟨issue, hgrows.issues.subset hmem, hname⟩

theorem Reports.issues_ne_nil (h : Reports name capture) : capture.issues ≠ [] := by
  obtain ⟨issue, hmem, -⟩ := h
  exact List.ne_nil_of_mem hmem

theorem reports_note (capture : Capture) (scope : Scope) (kind : IssueKind) :
    Reports scope.module (capture.note scope kind) :=
  ⟨⟨scope, capture.direction, kind⟩, by simp [note], rfl⟩

theorem reports_settled {block : ModuleBlock} {inner : Inner}
    (hp : capture.place = .inside block inner) : Reports block.name capture.settled := by
  unfold settled
  rw [hp]
  exact reports_note _ ⟨block.name, none⟩ .unclosed

theorem reports_take_of_inside {block : ModuleBlock} {inner : Inner} {opened : String}
    (hp : capture.place = .inside block inner) (hopens : moduleOpened? line = some opened) :
    Reports block.name (capture.take line) := by
  have hcounted : capture.counted.place = .inside block inner := hp
  rw [take_of_moduleOpened? capture hopens]
  exact (reports_settled hcounted).mono (grows_enterModule _ _)

theorem reports_take_of_mem (hmem : name ∈ capture.modules)
    (hopens : moduleOpened? line = some name) : Reports name (capture.take line) := by
  have hmem' : name ∈ capture.counted.settled.modules := by simpa using hmem
  rw [take_of_moduleOpened? capture hopens, enterModule_of_mem hmem']
  exact reports_note _ ⟨name, none⟩ (.reopened _)

theorem reports_take_of_version_mem {block : ModuleBlock} {version : String}
    (hp : capture.place = .inside block .body) (hends : endsModule line = false)
    (hopens : capture.opensVersion? line = some version)
    (hmem : version ∈ block.slices.versions) : Reports block.name (capture.take line) := by
  have hcounted : capture.counted.opensVersion? line = some version := hopens
  rw [take_inside hp hends, within_body_of_opensVersion? block hcounted, enterVersion_of_mem hmem]
  exact reports_note _ ⟨block.name, some version⟩ (.reopened _)

/-- A version that is open when its module is closed is damaged, though the module is kept. -/
theorem reports_take_moduleClose {block : ModuleBlock} {version : VersionBlock}
    (hp : capture.place = .inside block (.version version)) :
    Reports block.name (capture.take moduleClose) := by
  rw [take_moduleClose, closed, place_counted, hp]
  exact reports_note _ ⟨block.name, some version.name⟩ .unclosed

end Reports

/-- An issue about a block that is open, be it of a module or of a version in it. -/
def LeftOpen (capture : Capture) (issue : Issue) : Prop :=
  issue.kind = .unclosed ∧
    ∃ block inner, capture.place = .inside block inner ∧ issue.scope.module = block.name

/-- The line opens a scope again that has been captured. -/
inductive Reopens (capture : Capture) (line : String) : Scope → Prop where
  | module (name : String) (opens : OpensModule line name) (kept : name ∈ capture.modules) :
      Reopens capture line ⟨name, none⟩
  | version (block : ModuleBlock) (name : String)
      (inside : capture.place = .inside block .body) (opens : OpensVersion line name)
      (kept : name ∈ block.slices.versions) : Reopens capture line ⟨block.name, some name⟩

section Noted
variable {capture : Capture} {line : String} {issue : Issue} {scope : Scope} {block : ModuleBlock}
  {inner : Inner}

theorem Reopens.module_eq (h : capture.Reopens line scope) : OpensModule line scope.module ∨
    ∃ block inner, capture.place = .inside block inner ∧ scope.module = block.name := by
  cases h with
  | module name opens => exact .inl opens
  | version block name inside => exact .inr ⟨block, .body, inside, rfl⟩

theorem mem_issues_note {kind : IssueKind} : issue ∈ (capture.note scope kind).issues ↔
    issue ∈ capture.issues ∨ issue = ⟨scope, capture.direction, kind⟩ := by
  simp [note]

theorem mem_issues_abandon (h : issue ∈ (capture.abandon block inner).issues) :
    issue ∈ capture.issues ∨ issue.kind = .unclosed ∧ issue.scope.module = block.name := by
  cases inner with
  | version version =>
    rcases mem_issues_note.1 h with h | rfl
    · exact .inl h
    · exact .inr ⟨rfl, rfl⟩
  | body => exact .inl h
  | repeated => exact .inl h

theorem mem_issues_settled (h : issue ∈ capture.settled.issues) :
    issue ∈ capture.issues ∨ capture.LeftOpen issue := by
  unfold settled at h
  split at h
  · next block inner hp =>
    rcases mem_issues_note.1 h with h | rfl
    · exact (mem_issues_abandon h).imp_right fun ⟨hkind, hname⟩ => ⟨hkind, block, inner, hp, hname⟩
    · exact .inr ⟨rfl, block, inner, hp, rfl⟩
  · exact .inl h
  · exact .inl h

theorem mem_issues_closed (h : issue ∈ capture.closed.issues) :
    issue ∈ capture.issues ∨ capture.LeftOpen issue := by
  unfold closed at h
  split at h
  · next block inner hp =>
    exact (mem_issues_abandon h).imp_right fun ⟨hkind, hname⟩ => ⟨hkind, block, inner, hp, hname⟩
  · exact .inl h
  · exact .inl h

theorem mem_issues_enterModule {name : String} (h : issue ∈ (capture.enterModule name).issues) :
    issue ∈ capture.issues ∨
      (name ∈ capture.modules ∧ issue.scope = ⟨name, none⟩ ∧
        issue.kind = .reopened capture.line) := by
  by_cases hmem : name ∈ capture.modules
  · rw [enterModule_of_mem hmem] at h
    rcases mem_issues_note.1 h with h | rfl
    · exact .inl h
    · exact .inr ⟨hmem, rfl, rfl⟩
  · rw [enterModule_of_notMem hmem] at h
    exact .inl h

theorem mem_issues_within (h : issue ∈ (capture.within block inner line).issues) :
    issue ∈ capture.issues ∨
      ∃ name ∈ block.slices.versions, inner = .body ∧ capture.opensVersion? line = some name ∧
        issue.scope = ⟨block.name, some name⟩ ∧ issue.kind = .reopened capture.line := by
  cases inner with
  | body =>
    simp only [within] at h
    split at h
    · next name hopens =>
      by_cases hmem : name ∈ block.slices.versions
      · rw [enterVersion_of_mem hmem] at h
        rcases mem_issues_note.1 h with h | rfl
        · exact .inl h
        · exact .inr ⟨name, hmem, rfl, hopens, rfl, rfl⟩
      · rw [enterVersion_of_notMem hmem] at h
        exact .inl h
    · exact .inl h
  | version version =>
    simp only [within] at h
    split at h <;> exact .inl h
  | repeated =>
    simp only [within] at h
    split at h <;> exact .inl h

/-- An issue that a line adds is about a block left open, or the line reopens its scope and is the
one that it names. -/
theorem mem_issues_take (h : issue ∈ (capture.take line).issues) :
    issue ∈ capture.issues ∨ capture.LeftOpen issue ∨
      (issue.kind = .reopened (capture.line + 1) ∧ capture.Reopens line issue.scope) := by
  rcases take_cases capture line with
    ⟨name, hopens, ht⟩ | ⟨rfl, ht⟩ | ⟨block, inner, hp, -, ht⟩ | ⟨-, -, ht⟩
  · rw [ht] at h
    rcases mem_issues_enterModule h with h | ⟨hmem, hscope, hkind⟩
    · exact (mem_issues_settled h).imp_right .inl
    · rw [modules_settled] at hmem
      rw [line_settled] at hkind
      exact .inr (.inr ⟨hkind, hscope ▸ .module name (moduleOpened?_eq_some.1 hopens) hmem⟩)
  · rw [ht] at h
    exact (mem_issues_closed h).imp_right .inl
  · rw [ht] at h
    rcases mem_issues_within h with h | ⟨name, hmem, rfl, hopens, hscope, hkind⟩
    · exact .inl h
    · have hopens : capture.opensVersion? line = some name := hopens
      exact .inr (.inr ⟨hkind, hscope ▸
        .version block name hp (opensVersion_of_opensVersion? hopens) hmem⟩)
  · rw [ht] at h
    exact .inl h

end Noted

end Capture

namespace Source
variable {source : Source} {n : Nat} {issue : Issue}

theorem line_upTo (hn : n ≤ source.lines.length) : (source.upTo n).line = n := by
  rw [upTo, Capture.line_takeAll, List.length_take_of_le hn]
  exact Nat.zero_add n

/-- Every issue was noted at a position, about a block that is left open there or about the scope
that the line there opens again. -/
theorem exists_of_mem_issues (hn : n ≤ source.lines.length)
    (h : issue ∈ (source.upTo n).issues) : ∃ p line, p < n ∧ source.lines[p]? = some line ∧
      ((source.upTo p).LeftOpen issue ∨
        issue.kind = .reopened (p + 1) ∧ (source.upTo p).Reopens line issue.scope) := by
  induction n with
  | zero => cases h
  | succ n ih =>
    have hline := List.getElem?_eq_getElem hn
    rw [upTo_succ hline] at h
    rcases Capture.mem_issues_take h with h | hnoted
    · obtain ⟨p, line, hp, hrest⟩ := ih (Nat.le_of_succ_le hn) h
      exact ⟨p, line, Nat.lt_succ_of_lt hp, hrest⟩
    · rw [line_upTo (Nat.le_of_succ_le hn)] at hnoted
      exact ⟨n, _, Nat.lt_succ_self n, hline, hnoted⟩

end Source

end Unbundle.Declaration
