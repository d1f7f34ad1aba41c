import Unbundle.Proofs.Declaration.Balance

/-! Where issues about reopened blocks point. Such an issue is noted by one line, with the number of
that line, and the block that it opens again lies further up: a module's block was closed and kept,
and a version's block was closed inside the module block that is open. -/

namespace Unbundle.Declaration
open Std (ExtTreeMap)

namespace Source

/-- The line at a position opens a module whose block lies further up, and the line that closes that
block is the one that kept the module. -/
def ReopensModule (source : Source) (p : Nat) (name : String) : Prop :=
  (∃ line, source.lines[p]? = some line ∧ OpensModule line name) ∧
  ∃ first last, last < p ∧ ModuleSpan source.lines name first last ∧
    name ∉ (source.upTo last).modules ∧ name ∈ (source.upTo (last + 1)).modules

/-- The line at a position opens a version inside a module that is open, in whose block a block of
that version has been closed. -/
def ReopensVersion (source : Source) (p : Nat) (module name : String) : Prop :=
  (∃ line, source.lines[p]? = some line ∧ OpensVersion line name) ∧
  ∃ first slices, source.BlockFrom first p module ∧
    (source.upTo p).place = .inside ⟨module, slices⟩ .body ∧ name ∈ slices.versions ∧
    ∃ k l, first < k ∧ l < p ∧ VersionSpan source.lines name k l

def Reopens (source : Source) (p : Nat) (scope : Scope) : Prop :=
  match scope.version with
  | none => source.ReopensModule p scope.module
  | some version => source.ReopensVersion p scope.module version

section Run
variable {source : Source} {n p : Nat} {line name : String} {issue : Issue}

theorem exists_kept (hn : n ≤ source.lines.length) (h : name ∈ (source.upTo n).modules) :
    ∃ first last, last < n ∧ ModuleSpan source.lines name first last ∧
      name ∉ (source.upTo last).modules ∧ name ∈ (source.upTo (last + 1)).modules := by
  induction n with
  | zero => simp [upTo_zero, Capture.initial] at h
  | succ n ih =>
    have hline := List.getElem?_eq_getElem hn
    by_cases hmem : name ∈ (source.upTo n).modules
    · obtain ⟨first, last, hlast, hkept⟩ := ih (Nat.le_of_succ_le hn) hmem
      exact ⟨first, last, Nat.lt_succ_of_lt hlast, hkept⟩
    · have h' := h
      rw [upTo_succ hline] at h'
      rcases Capture.modules_take (source.upTo n) source.lines[n] with
        hm | ⟨hclose, block, inner, hp, hm⟩
      · exact absurd (hm ▸ h') hmem
      · rw [hm, ExtTreeMap.mem_insert, Std.compare_eq_iff_eq] at h'
        obtain rfl := h'.resolve_right hmem
        obtain ⟨first, hreading⟩ := (traced (Nat.le_of_succ_le hn)).reading block inner hp
        exact ⟨first, n, Nat.lt_succ_self n, hreading.span (hclose ▸ hline), hmem, h⟩

theorem reopens_of_capture (hp : p ≤ source.lines.length) (hline : source.lines[p]? = some line)
    {scope : Scope} (h : (source.upTo p).Reopens line scope) : source.Reopens p scope := by
  cases h with
  | module name hopens hmem => exact ⟨⟨line, hline, hopens⟩, exists_kept hp hmem⟩
  | version block name hplace hopens hmem =>
    obtain ⟨first, hreading⟩ := (traced hp).reading block .body hplace
    obtain ⟨slice, hslice⟩ := Option.isSome_iff_exists.1 (ExtTreeMap.mem_iff_isSome_getElem?.1 hmem)
    obtain ⟨-, k, l, hk, hl, hspan, -⟩ := hreading.versions name slice hslice
    exact ⟨⟨line, hline, hopens⟩, first, block.slices, hreading.toBlockFrom, hplace, hmem,
      k, l, hk, hl, hspan⟩

theorem reopens_of_mem_issues (hn : n ≤ source.lines.length)
    (h : issue ∈ (source.upTo n).issues) {number : Nat} (hkind : issue.kind = .reopened number) :
    ∃ p, number = p + 1 ∧ source.Reopens p issue.scope := by
  obtain ⟨p, line, hp, hline, ⟨hleft, -⟩ | ⟨hkind', hreopens⟩⟩ := exists_of_mem_issues hn h
  · rw [hleft] at hkind
    cases hkind
  · rw [hkind'] at hkind
    cases hkind
    exact ⟨p, rfl, reopens_of_capture (Nat.le_of_lt (Nat.lt_of_lt_of_le hp hn)) hline hreopens⟩

end Run

end Source

namespace Stream

theorem accounted_ofLines (direction : Direction) (options : Options) (lines : List String)
    (name : String) :
    (lines.countP fun line => OpensModule line name) =
      (if name ∈ (ofLines direction options lines).modules then 1 else 0) +
        (ofLines direction options lines).issues.countP fun issue => issue.scope = ⟨name, none⟩ := by
  have h := @Capture.accounted_takeAll _ name (Capture.fresh_initial direction options) lines
  have hinitial : (Capture.initial direction options).accounted name = 0 := by
    simp [Capture.accounted, Capture.noted, Capture.opened?, Capture.initial]
  rw [hinitial, Nat.zero_add] at h
  rw [← h, Capture.accounted, Nat.add_assoc, ← Capture.noted_settled, Capture.ofLines_eq,
    Capture.stream_eq, Capture.modules_settled]
  rfl

theorem countP_scope (issues : List Issue) (scope : Scope) :
    (issues.countP fun issue => issue.scope = scope) =
      (issues.countP fun issue => issue.scope = scope ∧ issue.kind = .unclosed) +
      issues.countP fun issue => issue.scope = scope ∧ issue.kind.isReopened := by
  induction issues with
  | nil => rfl
  | cons issue issues ih =>
    obtain ⟨scope', direction, kind⟩ := issue
    simp only [List.countP_cons, ih]
    cases kind <;> simp [IssueKind.isReopened] <;> omega

end Stream

/-- The lines that open a module are as many as the captured modules of its name, one at most, and
the issues about blocks of it that were left open or opened again; and an issue about a reopened
block names the line that opens it again. -/
theorem opened_eq_captured_add_noted (direction : Direction) (options : Options)
    (lines : List String) (name : String) :
    ((lines.countP fun line => OpensModule line name) =
      (if name ∈ (Stream.ofLines direction options lines).modules then 1 else 0) +
      ((Stream.ofLines direction options lines).issues.countP fun issue =>
        issue.scope = ⟨name, none⟩ ∧ issue.kind = .unclosed) +
      ((Stream.ofLines direction options lines).issues.countP fun issue =>
        issue.scope = ⟨name, none⟩ ∧ issue.kind.isReopened)) ∧
    ∀ issue ∈ (Stream.ofLines direction options lines).issues, ∀ number,
      issue.kind = .reopened number →
        ∃ p, number = p + 1 ∧ Source.Reopens ⟨direction, options, lines⟩ p issue.scope := by
  constructor
  · rw [Stream.accounted_ofLines direction options, Stream.countP_scope, Nat.add_assoc]
  · intro issue hissue number hkind
    let source : Source := ⟨direction, options, lines⟩
    rw [Capture.ofLines_eq, Capture.stream_eq] at hissue
    rcases Capture.mem_issues_settled hissue with h | ⟨h, -⟩
    · have h : issue ∈ (source.upTo source.lines.length).issues := Source.upTo_length ▸ h
      exact Source.reopens_of_mem_issues (Nat.le_refl _) h hkind
    · rw [h] at hkind
      cases hkind

end Unbundle.Declaration
