import Unbundle.Proofs.Declaration.Independence
import Unbundle.Proofs.Declaration.Provenance

/-! No block of a module vanishes. Every line that opens a module is accounted for: the module is
captured, or one issue is noted for that line. A module that is open counts as the issue that it
would be if the stream ended there, and so the account grows by one with every opening line and with
no other. An issue about a reopened block names the line that reopens it. -/

namespace Unbundle.Declaration
open Std (ExtTreeMap)

instance (line name : String) : Decidable (OpensModule line name) :=
  decidable_of_iff _ moduleOpened?_eq_some

def IssueKind.isReopened : IssueKind → Bool
  | .unclosed => false
  | .reopened _ => true

namespace Capture

/-- The module that is open. -/
def opened? (capture : Capture) : Option String :=
  match capture.place with
  | .inside block _ => some block.name
  | .outside | .repeated => none

/-- The number of issues about a module itself and not about one of its versions. -/
def noted (capture : Capture) (name : String) : Nat :=
  capture.issues.countP fun issue => issue.scope = ⟨name, none⟩

def accounted (capture : Capture) (name : String) : Nat :=
  (if name ∈ capture.modules then 1 else 0) + capture.noted name +
    if capture.opened? = some name then 1 else 0

section Account
variable {capture : Capture} {name line : String}

theorem noted_note (scope : Scope) (kind : IssueKind) :
    (capture.note scope kind).noted name =
      capture.noted name + if scope = ⟨name, none⟩ then 1 else 0 := by
  simp [noted, note, List.countP_append, List.countP_singleton]

theorem noted_note_version (module version : String) (kind : IssueKind) :
    (capture.note ⟨module, some version⟩ kind).noted name = capture.noted name := by
  simp [noted_note]

theorem noted_abandon (block : ModuleBlock) (inner : Inner) :
    (capture.abandon block inner).noted name = capture.noted name := by
  cases inner with
  | version version => exact noted_note_version _ _ _
  | body => rfl
  | repeated => rfl

theorem noted_settled :
    capture.settled.noted name =
      capture.noted name + if capture.opened? = some name then 1 else 0 := by
  unfold settled opened?
  cases capture.place with
  | inside block inner => simp [abandonModule, noted_note, noted_abandon]
  | outside => rfl
  | repeated => rfl

theorem accounted_enterModule (opened : String) :
    (capture.enterModule opened).accounted name =
      (if name ∈ capture.modules then 1 else 0) + capture.noted name +
        if opened = name then 1 else 0 := by
  by_cases hmem : opened ∈ capture.modules
  · rw [enterModule_of_mem hmem]
    change (if name ∈ capture.modules then 1 else 0) +
      (capture.note ⟨opened, none⟩ (.reopened capture.line)).noted name +
        (if none = some name then 1 else 0) = _
    rw [noted_note]
    simp [Nat.add_assoc]
  · rw [enterModule_of_notMem hmem]
    simp [accounted, opened?, noted]

theorem noted_within (block : ModuleBlock) (inner : Inner) :
    (capture.within block inner line).noted name = capture.noted name := by
  cases inner with
  | body =>
    simp only [within]
    split
    · next version _ =>
      by_cases hmem : version ∈ block.slices.versions
      · rw [enterVersion_of_mem hmem]
        exact noted_note_version _ _ _
      · rw [enterVersion_of_notMem hmem]
        rfl
    · rfl
  | version version =>
    simp only [within]
    split <;> rfl
  | repeated =>
    simp only [within]
    split <;> rfl

theorem accounted_closed (hfresh : Fresh capture) :
    capture.closed.accounted name = capture.accounted name := by
  have hplace : capture.closed.opened? = none := by simp [opened?, place_closed]
  have hnoted : capture.closed.noted name = capture.noted name := by
    unfold closed
    split
    · next block inner _ => exact noted_abandon block inner
    · rfl
    · rfl
  simp only [accounted, hplace, hnoted, modules_closed]
  cases hp : capture.place with
  | outside => simp [opened?, hp]
  | repeated => simp [opened?, hp]
  | inside block inner =>
    by_cases hname : block.name = name
    · subst hname
      simp [opened?, hp, hfresh block inner hp, Nat.add_comm]
    · simp [opened?, hp, hname, ExtTreeMap.mem_insert]

theorem accounted_take (hfresh : Fresh capture) :
    (capture.take line).accounted name =
      capture.accounted name + if OpensModule line name then 1 else 0 := by
  rcases take_cases capture line with
    ⟨opened, hopens, h⟩ | ⟨rfl, h⟩ | ⟨block, inner, hp, hends, h⟩ | ⟨-, hends, h⟩
  · have hiff : OpensModule line name ↔ opened = name := by
      rw [← moduleOpened?_eq_some, hopens, Option.some.injEq]
    rw [h, accounted_enterModule, noted_settled, modules_settled, ← Nat.add_assoc]
    simp only [hiff]
    rfl
  · have hnone : ¬ OpensModule moduleClose name := fun hopens => by
      rw [← moduleOpened?_eq_some, moduleOpened?_moduleClose] at hopens
      cases hopens
    have hcounted : Fresh capture.counted := hfresh
    rw [h, accounted_closed hcounted, if_neg hnone]
    rfl
  · have hcounted : capture.counted.place = .inside block inner := hp
    obtain ⟨block', inner', hp', hname⟩ := exists_place_within hcounted line
    rw [h, if_neg ((endsModule_eq_false_iff.1 hends).2 name)]
    simp only [accounted, noted_within, modules_within, opened?, hp, hp', hname]
    rfl
  · rw [h, if_neg ((endsModule_eq_false_iff.1 hends).2 name)]
    rfl

theorem accounted_takeAll (hfresh : Fresh capture) (lines : List String) :
    (capture.takeAll lines).accounted name =
      capture.accounted name + lines.countP fun line => OpensModule line name := by
  induction lines generalizing capture with
  | nil => rfl
  | cons line lines ih =>
    rw [takeAll_cons, ih (hfresh.take line), accounted_take hfresh, List.countP_cons]
    simp only [decide_eq_true_eq]
    omega

end Account

end Capture

end Unbundle.Declaration
