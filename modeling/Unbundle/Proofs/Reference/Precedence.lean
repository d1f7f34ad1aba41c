import Mathlib.Data.List.Nodup
import Unbundle.Proofs.Reference.Cut
import Unbundle.Reference.Rules

/-! Which rule comes first. Rules stand in the order of their lengths, so that the order in which
they are supplied does not matter when no two are of one length. When rules stay inside runs, the
first one to replace something in a run is that with the longest of the patterns which the run
begins with. -/

namespace Unbundle.Reference

def actOn (rules : List Rule) (run : List Char) : List Char :=
  rules.foldl (fun run rule => rule.onRun run) run

/-- Rules are applied to a line, and in one of its runs `first` is the first to replace something.
-/
structure ActsFirst (line : String) (segments : List Segment) (run : List Char)
    (earlier : List Rule) (first : Rule) : Prop where
  /-- At its turn a rule cuts the segments as those before it left them, each by itself. -/
  pieces : ∀ done rule, done ++ [rule] <+: earlier ++ [first] →
    rule.pieces (done.foldl (fun line rule => rule.apply line) line) =
      (segments.map (Segment.onRun (actOn done))).flatMap fun segment =>
        rule.pieces (String.ofList segment.chars)
  /-- What is left of the line at any turn, each run as the rules leave it by itself. -/
  text : ∀ done, done <+: earlier ++ [first] →
    (done.foldl (fun line rule => rule.apply line) line).toList =
      textOf (segments.map (Segment.onRun (actOn done)))
  untouched : ∀ done, done <+: earlier → actOn done run = run
  spared : ∀ rule ∈ earlier, .replaced ∉ rule.pieces (String.ofList run)
  replaced : first.pieces (String.ofList run) =
    .replaced :: (run.drop first.pattern.toList.length).map .kept
  exchanged : actOn (earlier ++ [first]) run =
    first.replacement.toList ++ run.drop first.pattern.toList.length

section Order
variable {rules order : List Rule} {rule first : Rule}

theorem Rule.precedes_iff {a b : Rule} :
    a.precedes b = true ↔ b.pattern.utf8ByteSize ≤ a.pattern.utf8ByteSize := decide_eq_true_iff

theorem Rule.precedes_total (a b : Rule) : a.precedes b = true ∨ b.precedes a = true := by
  simp only [precedes_iff]
  omega

theorem Rule.precedes_trans (a b c : Rule) (hab : a.precedes b = true)
    (hbc : b.precedes c = true) : a.precedes c = true := by
  rw [precedes_iff] at *
  omega

theorem Rules.ofList_perm : (Rules.ofList rules).toList.Perm rules := stableSort_perm rules

theorem Rules.pairwise_ofList : (Rules.ofList rules).toList.Pairwise fun a b =>
    b.pattern.utf8ByteSize ≤ a.pattern.utf8ByteSize :=
  (Rules.ofList rules).ordered.imp Rule.precedes_iff.1

theorem Rules.filter_ofList {p : Rule → Bool}
    (h : ∀ a b, p a = true → p b = true → a.pattern.utf8ByteSize = b.pattern.utf8ByteSize) :
    (Rules.ofList rules).toList.filter p = rules.filter p :=
  filter_stableSort_of_forall Rule.precedes_total Rule.precedes_trans
    fun a b ha hb => Rule.precedes_iff.2 (h a b ha hb).ge

theorem Rules.find?_ofList {pattern : String} :
    (Rules.ofList rules).toList.find? (·.pattern = pattern) =
      rules.find? (·.pattern = pattern) := by
  have hfilter := @Rules.filter_ofList rules (·.pattern = pattern) fun a b ha hb => by
    rw [of_decide_eq_true ha, of_decide_eq_true hb]
  rw [← List.head?_filter, ← List.head?_filter, hfilter]

theorem Rules.ofList_eq_of_perm
    (hlengths : rules.Pairwise fun a b => a.pattern.utf8ByteSize ≠ b.pattern.utf8ByteSize)
    (hperm : order.Perm rules) : (Rules.ofList order).toList = (Rules.ofList rules).toList := by
  have hnodup : (rules.map (·.pattern.utf8ByteSize)).Nodup := List.pairwise_map.2 hlengths
  refine List.Perm.eq_of_pairwise (fun a b ha hb hab hba => ?_) pairwise_ofList pairwise_ofList
    ((ofList_perm.trans hperm).trans ofList_perm.symm)
  exact List.inj_on_of_nodup_map hnodup (hperm.mem_iff.1 (ofList_perm.mem_iff.1 ha))
    (ofList_perm.mem_iff.1 hb) (Nat.le_antisymm hba hab)

end Order

section Runs
variable {rules done earlier later : List Rule} {rule first : Rule} {segments : List Segment}
  {line : String} {run : List Char}

theorem Rule.InRun.pieces_eq_cut (h : rule.InRun) :
    rule.pieces line = cut rule.pattern.toList true 0 true line.toList := by
  have hne : rule.pattern.toList.isEmpty = false := by simpa using h.nonempty
  rw [Rule.pieces, if_neg (by simp [hne])]

theorem Rule.InRun.pieces_spaced (h : rule.InRun) (hs : Spaced segments)
    (hline : line.toList = textOf segments) : rule.pieces line =
      segments.flatMap fun segment => rule.pieces (String.ofList segment.chars) := by
  simp only [h.pieces_eq_cut, String.toList_ofList]
  rw [hline, cut_spaced h.nonempty h.pattern hs]

theorem Rule.InRun.pieces_run (h : rule.InRun) (hr : Segment.Fits (.run run)) :
    rule.pieces (String.ofList run) = runPieces rule.pattern.toList run := by
  rw [h.pieces_eq_cut, String.toList_ofList, cut_run_alone h.nonempty h.pattern hr]

theorem fits_actOn (h : ∀ rule ∈ rules, rule.InRun) (hr : Segment.Fits (.run run)) :
    Segment.Fits (.run (actOn rules run)) := by
  induction rules generalizing run with
  | nil => exact hr
  | cons rule rules ih =>
    obtain ⟨hrule, h⟩ := List.forall_mem_cons.1 h
    exact ih h (hrule.fits_onRun hr)

theorem Rule.InRun.pieces_foldl_apply (h : rule.InRun) (hdone : ∀ rule ∈ done, rule.InRun)
    (hs : Spaced segments) (hline : line.toList = textOf segments) :
    rule.pieces (done.foldl (fun line rule => rule.apply line) line) =
      (segments.map (Segment.onRun (actOn done))).flatMap fun segment =>
        rule.pieces (String.ofList segment.chars) :=
  h.pieces_spaced (hs.map_onRun fun _ => fits_actOn hdone) (foldl_apply_spaced hdone hs hline)

theorem actOn_of_not_prefix (h : ∀ rule ∈ rules, ¬ rule.pattern.toList <+: run) :
    actOn rules run = run := by
  induction rules with
  | nil => rfl
  | cons rule rules ih =>
    obtain ⟨hrule, h⟩ := List.forall_mem_cons.1 h
    have hnot := Bool.eq_false_iff.2 (mt List.isPrefixOf_iff_prefix.1 hrule)
    rw [actOn, List.foldl_cons, Rule.onRun, swap_of_not_isPrefixOf hnot]
    exact ih h

/-- The first of some rules whose pattern a run begins with is the first to replace something. -/
theorem actsFirst_of_prefix (hearlier : ∀ rule ∈ earlier, rule.InRun) (hfirst : first.InRun)
    (hs : Spaced segments) (hline : line.toList = textOf segments) (hr : Segment.Fits (.run run))
    (hnone : ∀ rule ∈ earlier, ¬ rule.pattern.toList <+: run)
    (hbegins : first.pattern.toList <+: run) : ActsFirst line segments run earlier first := by
  have hrules : ∀ rule ∈ earlier ++ [first], rule.InRun := by
    simpa [or_imp, forall_and] using ⟨hearlier, hfirst⟩
  have huntouched : ∀ done, done <+: earlier → actOn done run = run := fun done hdone =>
    actOn_of_not_prefix fun rule hrule => hnone rule (hdone.subset hrule)
  have hprefix := List.isPrefixOf_iff_prefix.2 hbegins
  constructor
  case pieces =>
    intro done rule hdone
    have hsome := fun other hother => hrules other (hdone.subset hother)
    exact (hsome rule (by simp)).pieces_foldl_apply
      (fun other hother => hsome other (List.mem_append_left _ hother)) hs hline
  case text =>
    exact fun done hdone => foldl_apply_spaced
      (fun other hother => hrules other (hdone.subset hother)) hs hline
  case untouched => exact huntouched
  case spared =>
    intro rule hrule
    rw [(hearlier rule hrule).pieces_run hr, runPieces,
      if_neg (mt List.isPrefixOf_iff_prefix.1 (hnone rule hrule))]
    simp
  case replaced => rw [hfirst.pieces_run hr, runPieces, if_pos hprefix]
  case exchanged =>
    have hearlier := huntouched earlier (List.prefix_refl _)
    unfold actOn at hearlier ⊢
    rw [List.foldl_append, hearlier]
    exact swap_of_isPrefixOf hprefix

end Runs

/-- Of two patterns that begin one run the shorter one begins the longer one, so that they are equal
when it has as many bytes. -/
theorem eq_of_prefix_of_size_le {a b : String} {run : List Char} (ha : a.toList <+: run)
    (hb : b.toList <+: run) (hlength : a.toList.length ≤ b.toList.length)
    (hsize : b.utf8ByteSize ≤ a.utf8ByteSize) : a = b := by
  obtain ⟨rest, hrest⟩ := List.prefix_of_prefix_length_le ha hb hlength
  have hb : a ++ String.ofList rest = b := String.toList_injective (by simpa using hrest)
  have hnone : (String.ofList rest).utf8ByteSize = 0 := by
    rw [← hb, String.utf8ByteSize_append] at hsize
    omega
  rw [String.utf8ByteSize_eq_zero_iff] at hnone
  rw [← hb, hnone, String.append_empty]

section Precedence
variable {rules earlier later : List Rule} {rule first : Rule} {run : List Char}

theorem Rules.filter_size_ofList (rules : List Rule) (size : Nat) :
    (Rules.ofList rules).toList.filter (·.pattern.utf8ByteSize = size) =
      rules.filter (·.pattern.utf8ByteSize = size) :=
  filter_ofList fun a b ha hb => by rw [of_decide_eq_true ha, of_decide_eq_true hb]

theorem Rules.apply_ofList_of_perm
    (hlengths : rules.Pairwise fun a b => a.pattern.utf8ByteSize ≠ b.pattern.utf8ByteSize)
    {order : List Rule} (hperm : order.Perm rules) (line : String) :
    (Rules.ofList order).apply line = (Rules.ofList rules).apply line := by
  rw [apply, apply, ofList_eq_of_perm hlengths hperm]

theorem Rules.apply_of_toList {sorted : Rules} (h : sorted.toList = earlier ++ first :: later)
    (line : String) : sorted.apply line =
      later.foldl (fun line rule => rule.apply line)
        (first.apply (earlier.foldl (fun line rule => rule.apply line) line)) := by
  rw [apply, h, List.foldl_append, List.foldl_cons]

/-- No rule that comes before the first one with the longest pattern begins the run: it would be at
least as long, and there is only one pattern of a length that begins a run. -/
theorem Rules.not_prefix_of_earlier
    (hsorted : (Rules.ofList rules).toList = earlier ++ first :: later)
    (hother : ∀ rule ∈ earlier, rule.pattern ≠ first.pattern)
    (hbegins : first.pattern.toList <+: run)
    (hlonger : ∀ rule ∈ rules, rule.pattern.toList <+: run →
      rule.pattern.toList.length ≤ first.pattern.toList.length) (hmem : rule ∈ earlier) :
    ¬ rule.pattern.toList <+: run := by
  intro hprefix
  have hsize : first.pattern.utf8ByteSize ≤ rule.pattern.utf8ByteSize := by
    have hpairs := @pairwise_ofList rules
    rw [hsorted, List.pairwise_append] at hpairs
    exact hpairs.2.2 rule hmem first List.mem_cons_self
  have hsupplied : rule ∈ rules := ofList_perm.mem_iff.1 (by rw [hsorted]; simp [hmem])
  exact hother rule hmem
    (eq_of_prefix_of_size_le hprefix hbegins (hlonger rule hsupplied hprefix) hsize)

theorem Rules.exists_first {pattern : String} (hrule : rule ∈ rules)
    (hpattern : rule.pattern = pattern) :
    ∃ earlier first later, (Rules.ofList rules).toList = earlier ++ first :: later ∧
      rules.find? (·.pattern = pattern) = some first ∧ first.pattern = pattern ∧
      ∀ rule ∈ earlier, rule.pattern ≠ pattern := by
  obtain ⟨first, hfound⟩ : ∃ first, rules.find? (·.pattern = pattern) = some first :=
    Option.isSome_iff_exists.1 (List.find?_isSome.2 ⟨rule, hrule, by simpa using hpattern⟩)
  have hsorted := hfound
  rw [← find?_ofList, List.find?_eq_some_iff_append] at hsorted
  obtain ⟨hfirst, earlier, later, hsorted, hearlier⟩ := hsorted
  exact ⟨earlier, first, later, hsorted, hfound, of_decide_eq_true hfirst,
    fun other hother => by simpa using hearlier other hother⟩

theorem Rules.exists_actsFirst (hrules : ∀ rule ∈ rules, rule.InRun) {line longest : String}
    {segments : List Segment} (hsplits : Splits line.toList segments) (hrun : .run run ∈ segments)
    (hlongest : ∃ rule ∈ rules, rule.pattern = longest) (hbegins : longest.toList <+: run)
    (hlonger : ∀ rule ∈ rules, rule.pattern.toList <+: run →
      rule.pattern.toList.length ≤ longest.toList.length) :
    ∃ earlier first later, (Rules.ofList rules).toList = earlier ++ first :: later ∧
      rules.find? (·.pattern = longest) = some first ∧
      (Rules.ofList rules).apply line =
        later.foldl (fun line rule => rule.apply line)
          (first.apply (earlier.foldl (fun line rule => rule.apply line) line)) ∧
      ActsFirst line segments run earlier first := by
  obtain ⟨rule, hrule, hpattern⟩ := hlongest
  obtain ⟨earlier, first, later, hsorted, hfound, rfl, hothers⟩ := exists_first hrule hpattern
  have hmem : ∀ other ∈ earlier ++ first :: later, other.InRun :=
    fun other hother => hrules other (ofList_perm.mem_iff.1 (hsorted ▸ hother))
  exact ⟨earlier, first, later, hsorted, hfound, apply_of_toList hsorted line, actsFirst_of_prefix
    (fun other hother => hmem other (List.mem_append_left _ hother)) (hmem first (by simp))
    hsplits.toSpaced hsplits.text.symm (hsplits.fits _ hrun)
    (fun _ hother => not_prefix_of_earlier hsorted hothers hbegins hlonger hother) hbegins⟩

end Precedence

/-- Rules are put in the order of their lengths, the longest first and as supplied where lengths are
equal; so when no two are of one length, any order in which they are supplied comes to the same. In
a run that begins with the pattern `longest`, and with no longer one, the first rule to replace
something is the one that was supplied first of those with this pattern. -/
theorem Rules.precedence (rules : List Rule) :
    ((Rules.ofList rules).toList.Perm rules ∧
      (Rules.ofList rules).toList.Pairwise
        (fun a b => b.pattern.utf8ByteSize ≤ a.pattern.utf8ByteSize) ∧
      ∀ size, (Rules.ofList rules).toList.filter (·.pattern.utf8ByteSize = size) =
        rules.filter (·.pattern.utf8ByteSize = size)) ∧
    ((rules.Pairwise fun a b => a.pattern.utf8ByteSize ≠ b.pattern.utf8ByteSize) →
      ∀ order : List Rule, order.Perm rules → ∀ line,
        (Rules.ofList order).apply line = (Rules.ofList rules).apply line) ∧
    ((∀ rule ∈ rules, rule.InRun) → ∀ line segments run longest, Splits line.toList segments →
      .run run ∈ segments → (∃ rule ∈ rules, rule.pattern = longest) → longest.toList <+: run →
      (∀ rule ∈ rules, rule.pattern.toList <+: run →
        rule.pattern.toList.length ≤ longest.toList.length) →
      ∃ earlier first later, (Rules.ofList rules).toList = earlier ++ first :: later ∧
        rules.find? (·.pattern = longest) = some first ∧
        (Rules.ofList rules).apply line =
          later.foldl (fun line rule => rule.apply line)
            (first.apply (earlier.foldl (fun line rule => rule.apply line) line)) ∧
        ActsFirst line segments run earlier first) :=
  ⟨⟨ofList_perm, pairwise_ofList, filter_size_ofList rules⟩,
    fun hlengths _ hperm line => apply_ofList_of_perm hlengths hperm line,
    fun hrules _ _ _ _ hsplits hrun hlongest hbegins hlonger =>
      exists_actsFirst hrules hsplits hrun hlongest hbegins hlonger⟩

def moduleFirst : List Rule := [⟨"inputs.Foo.", "m."⟩, ⟨"inputs.Foo.v1.", ""⟩]

theorem Rules.precedence_moduleFirst :
    (moduleFirst.Pairwise fun a b => a.pattern.utf8ByteSize ≠ b.pattern.utf8ByteSize) ∧
    (Rules.ofList moduleFirst.reverse).apply "a(inputs.Foo.v1.Bar)" =
      (Rules.ofList moduleFirst).apply "a(inputs.Foo.v1.Bar)" ∧
    (∀ rule ∈ moduleFirst, rule.InRun) ∧
    .run "inputs.Foo.v1.Bar".toList ∈ segmentsOf "a(inputs.Foo.v1.Bar)".toList ∧
    (∀ rule ∈ moduleFirst, rule.pattern.toList <+: "inputs.Foo.v1.Bar".toList →
      rule.pattern.toList.length ≤ "inputs.Foo.v1.".toList.length) ∧
    (Rules.ofList moduleFirst).apply "a(inputs.Foo.v1.Bar)" = "a(Bar)" ∧
    ActsFirst "a(inputs.Foo.v1.Bar)" (segmentsOf "a(inputs.Foo.v1.Bar)".toList)
      "inputs.Foo.v1.Bar".toList [] ⟨"inputs.Foo.v1.", ""⟩ := by
  have hlengths : moduleFirst.Pairwise fun a b =>
      a.pattern.utf8ByteSize ≠ b.pattern.utf8ByteSize := by decide
  have hrules : ∀ rule ∈ moduleFirst, rule.InRun := by
    simp only [moduleFirst, List.forall_mem_cons, List.not_mem_nil, false_implies, implies_true,
      and_true]
    exact ⟨⟨by decide, by decide, by decide⟩, ⟨by decide, by decide, by decide⟩⟩
  have hrun : .run "inputs.Foo.v1.Bar".toList ∈ segmentsOf "a(inputs.Foo.v1.Bar)".toList := by
    decide
  have hlonger : ∀ rule ∈ moduleFirst, rule.pattern.toList <+: "inputs.Foo.v1.Bar".toList →
      rule.pattern.toList.length ≤ "inputs.Foo.v1.".toList.length := by decide
  obtain ⟨-, horder, hfirst⟩ := Rules.precedence moduleFirst
  obtain ⟨earlier, first, later, hsorted, hfound, happly, hacts⟩ := hfirst hrules _ _ _
    "inputs.Foo.v1." splits_segmentsOf hrun (by decide) (by decide) hlonger
  have hsorted' : (Rules.ofList moduleFirst).toList =
      [⟨"inputs.Foo.v1.", ""⟩, ⟨"inputs.Foo.", "m."⟩] := by decide
  have hfound' : moduleFirst.find? (·.pattern = "inputs.Foo.v1.") = some ⟨"inputs.Foo.v1.", ""⟩ := by
    decide
  obtain rfl : first = ⟨"inputs.Foo.v1.", ""⟩ := Option.some.inj (hfound.symm.trans hfound')
  refine ⟨hlengths, horder hlengths _ (List.reverse_perm _) _, hrules, hrun, hlonger, ?_⟩
  -- the rule with the longer pattern stands first, so that none is before it
  cases earlier with
  | nil =>
    rw [hsorted', List.nil_append, List.cons.injEq] at hsorted
    rw [happly, ← hsorted.2]
    exact ⟨by decide, hacts⟩
  | cons other earlier =>
    rw [hsorted', List.cons_append, List.cons.injEq] at hsorted
    have hmem : (⟨"inputs.Foo.v1.", ""⟩ : Rule) ∈ [(⟨"inputs.Foo.", "m."⟩ : Rule)] := by
      rw [hsorted.2]
      simp
    exact absurd hmem (by decide)

end Unbundle.Reference
