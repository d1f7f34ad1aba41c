import Unbundle.Text.Lines

/-! Lines that stand in a text. A piece of a text between two newlines, or between one and an end of
the text, is one of the lines when it has none in it and no carriage return at its end. -/

namespace Unbundle.Text

section Cut
variable {α : Type} [DecidableEq α] {nl cr : α} {line before after : List α}

theorem cutLines_eq_singleton (hnl : nl ∉ line) (hne : line ≠ []) :
    cutLines nl cr line = [line] := by
  induction line with
  | nil => exact absurd rfl hne
  | cons c line ih =>
    obtain ⟨hc, hline⟩ := not_or.1 (mt List.mem_cons.2 hnl)
    have hhead : ¬ (c = cr ∧ line.head? = some nl) := fun h => hline (List.mem_of_head? h.2)
    rw [cutLines, if_neg (Ne.symm hc), if_neg hhead]
    cases line with
    | nil => rfl
    | cons d line => rw [ih hline (by simp)]

theorem cutLines_line (hnl : nl ∉ line) (hcr : line.getLast? ≠ some cr) :
    cutLines nl cr (line ++ nl :: after) = line :: cutLines nl cr after := by
  induction line with
  | nil => exact cutLines_newline nl cr after
  | cons c line ih =>
    obtain ⟨hc, hline⟩ := not_or.1 (mt List.mem_cons.2 hnl)
    have hhead : ¬ (c = cr ∧ (line ++ nl :: after).head? = some nl) := by
      rintro ⟨rfl, hhead⟩
      cases line with
      | nil => exact hcr rfl
      | cons d line =>
        obtain rfl : d = nl := by simpa using hhead
        exact hline List.mem_cons_self
    have hlast : line.getLast? ≠ some cr := by
      intro hlast
      refine hcr ?_
      cases line with
      | nil => cases hlast
      | cons d line => simpa using hlast
    rw [List.cons_append, cutLines, if_neg (Ne.symm hc), if_neg hhead, ih hline hlast]

theorem cutLines_return (hnl : nl ∉ line) (hcr : cr ≠ nl) :
    cutLines nl cr (line ++ cr :: nl :: after) = line :: cutLines nl cr after := by
  induction line with
  | nil => simp [cutLines, hcr]
  | cons c line ih =>
    obtain ⟨hc, hline⟩ := not_or.1 (mt List.mem_cons.2 hnl)
    have hhead : ¬ (c = cr ∧ (line ++ cr :: nl :: after).head? = some nl) := by
      rintro ⟨rfl, hhead⟩
      cases line with
      | nil => exact hc (Option.some.inj hhead).symm
      | cons d line =>
        obtain rfl : d = nl := by simpa using hhead
        exact hline List.mem_cons_self
    rw [List.cons_append, cutLines, if_neg (Ne.symm hc), if_neg hhead, ih hline]

theorem cutLines_append : cutLines nl cr (before ++ nl :: after) =
    cutLines nl cr (before ++ [nl]) ++ cutLines nl cr after := by
  induction before with
  | nil => simp [cutLines_newline, cutLines]
  | cons c before ih =>
    have hhead : (before ++ nl :: after).head? = (before ++ [nl]).head? := by
      cases before <;> rfl
    have hne : cutLines nl cr (before ++ [nl]) ≠ [] := by simp [cutLines_eq_nil]
    obtain ⟨first, more, hfirst⟩ := List.exists_cons_of_ne_nil hne
    rw [List.cons_append, List.cons_append, cutLines, cutLines, hhead, ih, hfirst]
    split
    · rfl
    · split
      · rfl
      · rfl

/-- Nothing, or something that ends with a newline. -/
def Closed (nl : α) (before : List α) : Prop := before = [] ∨ ∃ s, before = s ++ [nl]

/-- Nothing, or something that begins with a newline. -/
def Opens (nl : α) (after : List α) : Prop := after = [] ∨ ∃ s, after = nl :: s

omit [DecidableEq α] in
theorem Closed.below (h : Closed nl before) : Closed nl (line ++ nl :: before) := by
  rcases h with rfl | ⟨s, rfl⟩
  · exact .inr ⟨line, rfl⟩
  · exact .inr ⟨line ++ nl :: s, by simp⟩

omit [DecidableEq α] in
theorem Opens.above (h : Opens nl after) : Opens nl (after ++ nl :: line) := by
  rcases h with rfl | ⟨s, rfl⟩
  · exact .inr ⟨line, rfl⟩
  · exact .inr ⟨s ++ nl :: line, rfl⟩

theorem mem_cutLines (hbefore : Closed nl before) (hafter : Opens nl after) (hnl : nl ∉ line)
    (hcr : line.getLast? ≠ some cr) (hne : line ≠ []) :
    line ∈ cutLines nl cr (before ++ (line ++ after)) := by
  have hrest : line ∈ cutLines nl cr (line ++ after) := by
    rcases hafter with rfl | ⟨s, rfl⟩
    · rw [List.append_nil, cutLines_eq_singleton hnl hne]
      exact List.mem_singleton_self _
    · rw [cutLines_line hnl hcr]
      exact List.mem_cons_self
  rcases hbefore with rfl | ⟨s, rfl⟩
  · exact hrest
  · rw [List.append_assoc, List.singleton_append, cutLines_append]
    exact List.mem_append_right _ hrest

theorem prefix_of_cutLines {s : List α} {more : List (List α)}
    (h : cutLines nl cr s = line :: more) : line <+: s := by
  induction s generalizing line more with
  | nil => cases h
  | cons c s ih =>
    rw [cutLines] at h
    split at h
    · obtain rfl := (List.cons.inj h).1
      exact List.nil_prefix
    · split at h
      · next hc =>
        -- the return goes with the newline, so that nothing stands before either
        obtain ⟨d, rest, rfl⟩ : ∃ d rest, s = d :: rest := by
          cases s with
          | nil => simp at hc
          | cons d rest => exact ⟨d, rest, rfl⟩
        obtain rfl : d = nl := by simpa using hc.2
        rw [cutLines_newline] at h
        obtain rfl := (List.cons.inj h).1
        exact List.nil_prefix
      · split at h
        · obtain rfl := (List.cons.inj h).1
          exact ⟨s, rfl⟩
        · next first more' hfirst =>
          obtain rfl := (List.cons.inj h).1
          obtain ⟨rest, rfl⟩ := ih hfirst
          exact ⟨rest, rfl⟩

theorem exists_of_mem_more {s first : List α} {more : List (List α)}
    (h : cutLines nl cr s = first :: more) (hline : line ∈ more) :
    ∃ before after, s = before ++ nl :: (line ++ after) := by
  induction s generalizing first more with
  | nil => cases h
  | cons c s ih =>
    rw [cutLines] at h
    split at h
    · next hc =>
      obtain rfl := (List.cons.inj h).2
      obtain ⟨first', more', hmore⟩ := List.exists_cons_of_ne_nil (List.ne_nil_of_mem hline)
      rw [hmore] at hline
      rcases List.mem_cons.1 hline with rfl | hline
      · obtain ⟨after, rfl⟩ := prefix_of_cutLines hmore
        exact ⟨[], after, by rw [hc, List.nil_append]⟩
      · obtain ⟨before, after, rfl⟩ := ih hmore hline
        exact ⟨c :: before, after, rfl⟩
    · split at h
      · obtain ⟨before, after, rfl⟩ := ih h hline
        exact ⟨c :: before, after, rfl⟩
      · split at h
        · obtain rfl := (List.cons.inj h).2
          cases hline
        · next hmore =>
          obtain rfl := (List.cons.inj h).2
          obtain ⟨before, after, rfl⟩ := ih hmore hline
          exact ⟨c :: before, after, rfl⟩

theorem exists_of_mem_cutLines {s : List α} (h : line ∈ cutLines nl cr s) :
    line <+: s ∨ ∃ before after, s = before ++ nl :: (line ++ after) := by
  obtain ⟨first, more, hmore⟩ := List.exists_cons_of_ne_nil (List.ne_nil_of_mem h)
  rw [hmore] at h
  rcases List.mem_cons.1 h with rfl | h
  · exact .inl (prefix_of_cutLines hmore)
  · exact .inr (exists_of_mem_more hmore h)

omit [DecidableEq α] in
theorem infix_append_cons (hnl : nl ∉ line) :
    line <:+: before ++ nl :: after ↔ line <:+: before ∨ line <:+: after := by
  constructor
  · rintro ⟨s, t, htext⟩
    rw [List.append_assoc, List.append_eq_append_iff] at htext
    rcases htext with ⟨rest, rfl, hrest⟩ | ⟨rest, rfl, hrest⟩
    · rw [List.append_eq_append_iff] at hrest
      rcases hrest with ⟨more, rfl, -⟩ | ⟨more, hline, hmore⟩
      · exact .inl ⟨s, more, by simp⟩
      · cases more with
        | nil => exact .inl ⟨s, [], by simp [hline]⟩
        | cons c more =>
          obtain rfl := (List.cons.inj hmore).1
          exact absurd (hline ▸ by simp) hnl
    · cases rest with
      | nil =>
        cases line with
        | nil => exact .inl ⟨[], before, by simp⟩
        | cons c line =>
          obtain rfl : nl = c := (List.cons.inj hrest).1
          exact absurd List.mem_cons_self hnl
      | cons c rest =>
        obtain rfl := (List.cons.inj hrest).2
        exact .inr ⟨rest, t, by simp⟩
  · rintro (h | h)
    · exact h.trans (List.prefix_append _ _).isInfix
    · exact h.trans ⟨before ++ [nl], [], by simp⟩

end Cut

section Join
variable {line : String} {list : List String} {before after : List Char}

/-- A text that can stand as a line of its own. -/
structure IsLine (line : String) : Prop where
  nonempty : line ≠ ""
  noNewline : '\n' ∉ line.toList
  noReturn : line.toList.getLast? ≠ some '\r'

instance (line : String) : Decidable (IsLine line) :=
  decidable_of_iff (line ≠ "" ∧ '\n' ∉ line.toList ∧ line.toList.getLast? ≠ some '\r')
    ⟨fun h => ⟨h.1, h.2.1, h.2.2⟩, fun h => ⟨h.1, h.2, h.3⟩⟩

theorem IsLine.mem_lines (h : IsLine line) (hbefore : Closed '\n' before)
    (hafter : Opens '\n' after) {text : String}
    (htext : text.toList = before ++ (line.toList ++ after)) : line ∈ lines text := by
  refine List.mem_map.2 ⟨line.toList, ?_, String.ofList_toList⟩
  rw [htext]
  exact mem_cutLines hbefore hafter h.noNewline h.noReturn (by simpa using h.nonempty)

theorem joinLines_cons_cons (first second : String) (list : List String) :
    joinLines (first :: second :: list) = first ++ "\n" ++ joinLines (second :: list) :=
  String.intercalate_cons_cons

theorem exists_joinLines (h : line ∈ list) : ∃ before after, Closed '\n' before ∧
    Opens '\n' after ∧ (joinLines list).toList = before ++ (line.toList ++ after) := by
  induction list with
  | nil => cases h
  | cons first list ih =>
    cases list with
    | nil =>
      obtain rfl := List.mem_singleton.1 h
      exact ⟨[], [], .inl rfl, .inl rfl, by simp [joinLines]⟩
    | cons second list =>
      rw [joinLines_cons_cons]
      rcases List.mem_cons.1 h with rfl | h
      · exact ⟨[], '\n' :: (joinLines (second :: list)).toList, .inl rfl, .inr ⟨_, rfl⟩, by simp⟩
      · obtain ⟨before, after, hbefore, hafter, htext⟩ := ih h
        exact ⟨first.toList ++ '\n' :: before, after, hbefore.below, hafter, by simp [htext]⟩

theorem infix_joinLines {pattern : List Char} (hne : pattern ≠ []) (hnl : '\n' ∉ pattern) :
    pattern <:+: (joinLines list).toList ↔ ∃ line ∈ list, pattern <:+: line.toList := by
  induction list with
  | nil => simp [joinLines, hne]
  | cons first list ih =>
    cases list with
    | nil => simp [joinLines]
    | cons second list =>
      have htext : (first ++ "\n" ++ joinLines (second :: list)).toList =
          first.toList ++ '\n' :: (joinLines (second :: list)).toList := by simp
      rw [joinLines_cons_cons, htext, infix_append_cons hnl, ih]
      simp

theorem lines_append_newline (h : '\n' ∉ line.toList) (text : String) : ∃ first,
    lines (line ++ "\n" ++ text) = first :: lines text ∧ (line = first ∨ line = first ++ "\r") := by
  by_cases hlast : line.toList.getLast? = some '\r'
  · obtain ⟨first, hfirst⟩ := List.getLast?_eq_some_iff.1 hlast
    have hnl : '\n' ∉ first := fun hmem => h (by simp [hfirst, hmem])
    have hline : line = String.ofList first ++ "\r" := String.toList_injective (by simp [hfirst])
    refine ⟨String.ofList first, ?_, .inr hline⟩
    unfold lines
    simp [hfirst, cutLines_return hnl (by decide : '\r' ≠ '\n')]
  · refine ⟨line, ?_, .inl rfl⟩
    unfold lines
    simp [cutLines_line h hlast]

/-- What holds of a line whether or not a carriage return is behind it holds of one among those that
were joined, if of one among those that the text is cut into. -/
theorem exists_mem_lines_joinLines {P : String → Prop} {behind : String} (hempty : ¬ P "")
    (hreturn : ∀ line, P (line ++ "\r") ↔ P line) (hlist : ∀ line ∈ list, '\n' ∉ line.toList)
    (hbehind : behind = "" ∨ behind = "\n") :
    (∃ line ∈ lines (joinLines list ++ behind), P line) ↔ ∃ line ∈ list, P line := by
  have hfirst : ∀ {line first : String}, line = first ∨ line = first ++ "\r" →
      (P first ↔ P line) := by
    rintro line first (rfl | rfl)
    · rfl
    · exact (hreturn first).symm
  induction list with
  | nil => rcases hbehind with rfl | rfl <;> simp [joinLines, lines, cutLines, hempty]
  | cons line list ih =>
    obtain ⟨hline, hlist⟩ := List.forall_mem_cons.1 hlist
    cases list with
    | nil =>
      have hjoined : joinLines [line] = line := by simp [joinLines]
      rw [hjoined]
      rcases hbehind with rfl | rfl
      · by_cases hne : line = ""
        · subst hne
          simp [lines, cutLines, hempty]
        · have hcut : lines line = [line] := by
            simp [lines, cutLines_eq_singleton hline (by simpa using hne)]
          simp [hcut]
      · obtain ⟨first, hcut, heither⟩ := lines_append_newline hline ""
        have hnone : lines "" = [] := rfl
        rw [String.append_empty, hnone] at hcut
        simp [hcut, hfirst heither]
    | cons second list =>
      obtain ⟨first, hcut, heither⟩ := lines_append_newline hline
        (joinLines (second :: list) ++ behind)
      have hcons : ∀ (line : String) (list : List String),
          (∃ other ∈ line :: list, P other) ↔ P line ∨ ∃ other ∈ list, P other := by simp
      rw [joinLines_cons_cons, String.append_assoc, hcut, hcons, hcons, hfirst heither]
      exact or_congr_right (ih hlist)

end Join

end Unbundle.Text
