import Unbundle.Proofs.Text.Lines

/-! Lines of encoded text. A text may be cut into lines and each line encoded, or encoded first and
the bytes be cut: it comes to the same, for the bytes of a newline and of a carriage return occur in
the encoding of no other character. Bytes whose lines are all UTF-8 are UTF-8 as a whole, because
what stood between the lines was ASCII. -/

namespace Unbundle.Text

section Cut
variable {α β : Type} [DecidableEq α] [DecidableEq β] {nl cr : α} {piece rest : List α}

/-- Lines, the first of which has a piece of a line put in front of it. -/
def attach (piece : List α) : List (List α) → List (List α)
  | [] => [piece]
  | line :: more => (piece ++ line) :: more

omit [DecidableEq α] in
theorem attach_attach (piece piece' : List α) (lines : List (List α)) :
    attach piece (attach piece' lines) = attach (piece ++ piece') lines := by
  cases lines <;> simp [attach]

theorem cutLines_cons {c : α} (hnl : c ≠ nl) (hcr : ¬ (c = cr ∧ rest.head? = some nl)) :
    cutLines nl cr (c :: rest) = attach [c] (cutLines nl cr rest) := by
  rw [cutLines, if_neg hnl, if_neg hcr]
  cases cutLines nl cr rest <;> rfl

theorem cutLines_piece (hne : piece ≠ []) (hnl : nl ∉ piece)
    (hcr : piece.getLast? = some cr → rest.head? ≠ some nl) :
    cutLines nl cr (piece ++ rest) = attach piece (cutLines nl cr rest) := by
  induction piece with
  | nil => exact absurd rfl hne
  | cons c piece ih =>
    obtain ⟨hc, hpiece⟩ := not_or.1 (mt List.mem_cons.2 hnl)
    cases piece with
    | nil => exact cutLines_cons (Ne.symm hc) fun h => hcr (by rw [h.1]; rfl) h.2
    | cons d piece =>
      have hhead : ¬ (c = cr ∧ (d :: piece ++ rest).head? = some nl) := by
        rintro ⟨-, hd⟩
        exact hpiece (by simp [Option.some.inj hd])
      have hlast : (d :: piece).getLast? = some cr → rest.head? ≠ some nl := fun h =>
        hcr (by rwa [List.getLast?_cons_cons])
      rw [List.cons_append, cutLines_cons (Ne.symm hc) hhead, ih (by simp) hpiece hlast,
        attach_attach, List.singleton_append]

section Holds
variable {P : List α → Prop}

omit [DecidableEq α] in
theorem forall_mem_attach_nil (hnil : P []) {lines : List (List α)}
    (h : ∀ line ∈ lines, P line) : ∀ line ∈ attach [] lines, P line := by
  cases lines with
  | nil => simpa [attach] using hnil
  | cons first more => simpa [attach] using h

/-- A line is met character by character: `piece` is what was met of the line that is cut. -/
theorem of_attach_cutLines (hnil : P []) (hnl : P [nl]) (hcr : P [cr])
    (happend : ∀ s t, P s → P t → P (s ++ t)) {s : List α}
    (h : ∀ line ∈ attach piece (cutLines nl cr s), P line) : P (piece ++ s) := by
  induction s generalizing piece with
  | nil => simpa using h piece List.mem_cons_self
  | cons c s ih =>
    by_cases hc : c = nl
    · subst hc
      rw [cutLines_newline] at h
      obtain ⟨hpiece, hmore⟩ := List.forall_mem_cons.1 h
      have hs : P s := ih (forall_mem_attach_nil hnil hmore)
      rw [List.append_nil] at hpiece
      exact happend _ _ hpiece (happend [c] s hnl hs)
    · by_cases hr : c = cr ∧ s.head? = some nl
      · -- the return goes with the newline behind it, at which the line ends
        obtain ⟨rfl, hhead⟩ := hr
        obtain ⟨t, rfl⟩ := List.head?_eq_some_iff.1 hhead
        rw [cutLines, if_neg hc, if_pos ⟨rfl, rfl⟩, cutLines_newline] at h
        obtain ⟨hpiece, hmore⟩ := List.forall_mem_cons.1 h
        have hs : P (nl :: t) := by
          refine ih (forall_mem_attach_nil hnil ?_)
          rw [cutLines_newline]
          exact List.forall_mem_cons.2 ⟨hnil, hmore⟩
        rw [List.append_nil] at hpiece
        exact happend _ _ hpiece (happend [c] (nl :: t) hcr hs)
      · rw [cutLines_cons hc hr, attach_attach] at h
        simpa using ih h

/-- What holds of all lines holds of the text that they were cut from, when it holds of what ends
lines and passes to what is put together. -/
theorem of_cutLines (hnil : P []) (hnl : P [nl]) (hcr : P [cr])
    (happend : ∀ s t, P s → P t → P (s ++ t)) {s : List α}
    (h : ∀ line ∈ cutLines nl cr s, P line) : P s := by
  have hs : P ([] ++ s) :=
    of_attach_cutLines hnil hnl hcr happend (forall_mem_attach_nil hnil h)
  exact hs

end Holds

end Cut

section Encoding
variable {c : Char} {byte : UInt8} {s : List Char} {bytes : List UInt8}

def encode (s : List Char) : List UInt8 := s.flatMap String.utf8EncodeChar

@[simp]
theorem encode_nil : encode [] = [] := rfl

@[simp]
theorem encode_cons (c : Char) (s : List Char) :
    encode (c :: s) = String.utf8EncodeChar c ++ encode s := rfl

@[simp]
theorem encode_append (s t : List Char) : encode (s ++ t) = encode s ++ encode t :=
  List.flatMap_append

/-- A byte below `0x80` encodes the character of its number, and is no part of another encoding. -/
theorem toNat_eq_of_mem_utf8EncodeChar (h : byte ∈ String.utf8EncodeChar c)
    (hascii : byte.toNat < 128) : c.toNat = byte.toNat := by
  revert h
  rw [← Char.toNat_val]
  -- in the longer encodings `0x80` or more is added to a remainder that leaves room for it
  fun_cases String.utf8EncodeChar c <;> intro h <;>
    simp only [List.mem_cons, List.not_mem_nil, or_false] at h
  case case1 =>
    obtain rfl := h
    simp only [UInt8.toNat_ofNat']
    omega
  case case2 =>
    rcases h with rfl | rfl <;> simp only [UInt8.toNat_ofNat'] at hascii <;> omega
  case case3 =>
    rcases h with rfl | rfl | rfl <;> simp only [UInt8.toNat_ofNat'] at hascii <;> omega
  case case4 =>
    rcases h with rfl | rfl | rfl | rfl <;> simp only [UInt8.toNat_ofNat'] at hascii <;> omega

section Ascii
variable {d : Char} (hd : String.utf8EncodeChar d = [byte]) (hascii : byte.toNat < 128)
include hd hascii

theorem mem_utf8EncodeChar : byte ∈ String.utf8EncodeChar c ↔ c = d := by
  constructor
  · intro h
    have hnum : d.toNat = byte.toNat :=
      toNat_eq_of_mem_utf8EncodeChar (hd ▸ List.mem_singleton_self byte) hascii
    exact Char.toNat_inj.1 ((toNat_eq_of_mem_utf8EncodeChar h hascii).trans hnum.symm)
  · rintro rfl
    exact hd ▸ List.mem_singleton_self byte

theorem head?_encode : (encode s).head? = some byte ↔ s.head? = some d := by
  cases s with
  | nil => simp
  | cons c s =>
    obtain ⟨first, more, hfirst⟩ :=
      List.exists_cons_of_ne_nil (String.utf8EncodeChar_ne_nil (c := c))
    rw [encode_cons, hfirst, List.cons_append, List.head?_cons, List.head?_cons, Option.some_inj,
      Option.some_inj]
    constructor
    · rintro rfl
      exact (mem_utf8EncodeChar hd hascii).1 (hfirst ▸ List.mem_cons_self)
    · rintro rfl
      exact (List.cons.inj (hfirst.symm.trans hd)).1

end Ascii

theorem map_attach_encode (piece : List Char) (lines : List (List Char)) :
    (attach piece lines).map encode = attach (encode piece) (lines.map encode) := by
  cases lines <;> simp [attach]

theorem cutLines_encode (s : List Char) :
    cutLines 10 13 (encode s) = (cutLines '\n' '\r' s).map encode := by
  have hnewline : String.utf8EncodeChar '\n' = [10] := by decide
  have hreturn : String.utf8EncodeChar '\r' = [13] := by decide
  induction s with
  | nil => rfl
  | cons c s ih =>
    have hhead : (encode s).head? = some 10 ↔ s.head? = some '\n' :=
      head?_encode hnewline (by decide)
    by_cases hc : c = '\n'
    · rw [hc, encode_cons, hnewline, List.singleton_append, cutLines_newline, cutLines_newline, ih]
      rfl
    · by_cases hr : c = '\r' ∧ s.head? = some '\n'
      · rw [cutLines, if_neg hc, if_pos hr, hr.1, encode_cons, hreturn, List.singleton_append,
          cutLines, if_neg (by decide), if_pos ⟨rfl, hhead.2 hr.2⟩, ih]
      · have hnl : 10 ∉ String.utf8EncodeChar c :=
          mt (mem_utf8EncodeChar hnewline (by decide)).1 hc
        have hcr : (String.utf8EncodeChar c).getLast? = some 13 →
            (encode s).head? ≠ some 10 := fun hlast hs =>
          hr ⟨(mem_utf8EncodeChar hreturn (by decide)).1 (List.mem_of_getLast? hlast), hhead.1 hs⟩
        rw [encode_cons, cutLines_piece String.utf8EncodeChar_ne_nil hnl hcr, cutLines_cons hc hr,
          map_attach_encode, ih, encode_cons, encode_nil, List.append_nil]

end Encoding

section Decoding
variable {bytes : ByteArray} {list : List String}

theorem toUTF8_ofList (s : List Char) : (String.ofList s).toUTF8 = ⟨(encode s).toArray⟩ := by
  rw [String.toUTF8_eq_toByteArray, String.toByteArray_ofList]
  exact ByteArray.ext List.data_toByteArray

theorem fromUTF8?_eq_some {text : String} :
    String.fromUTF8? bytes = some text ↔ text.toUTF8 = bytes := by
  rw [String.fromUTF8?]
  split
  · rw [Option.some_inj]
    constructor
    · rintro rfl
      rfl
    · rintro rfl
      rfl
  · next hinvalid =>
    refine ⟨nofun, ?_⟩
    rintro rfl
    exact absurd text.isValidUTF8 hinvalid

theorem decodeLines?_toUTF8 (text : String) : decodeLines? text.toUTF8 = some (lines text) := by
  have hline (line : List Char) :
      String.fromUTF8? ⟨(encode line).toArray⟩ = pure (String.ofList line) :=
    fromUTF8?_eq_some.2 (toUTF8_ofList line)
  have htext : text.toUTF8 = ⟨(encode text.toList).toArray⟩ := by
    rw [← toUTF8_ofList, String.ofList_toList]
  simp only [decodeLines?, lines, htext, List.toList_toArray, cutLines_encode, List.mapM_map,
    Function.comp_def, hline, List.mapM_pure]
  rfl

theorem exists_of_mapM_eq_some {α β : Type} {f : α → Option β} {list : List α} {found : List β}
    (h : list.mapM f = some found) : ∀ a ∈ list, ∃ b, f a = some b := by
  induction list generalizing found with
  | nil => exact fun a ha => nomatch ha
  | cons a list ih =>
    rw [List.mapM_cons] at h
    obtain ⟨b, hb, h⟩ := Option.bind_eq_some_iff.1 h
    obtain ⟨more, hmore, -⟩ := Option.bind_eq_some_iff.1 h
    exact List.forall_mem_cons.2 ⟨⟨b, hb⟩, ih hmore⟩

theorem exists_of_decodeLines? (h : decodeLines? bytes = some list) :
    ∃ text : String, text.toUTF8 = bytes := by
  have hlines : ∀ line ∈ cutLines 10 13 bytes.data.toList, ∃ s, encode s = line := by
    intro line hline
    obtain ⟨text, htext⟩ := exists_of_mapM_eq_some h line hline
    refine ⟨text.toList, ?_⟩
    rw [fromUTF8?_eq_some, ← String.ofList_toList (s := text), toUTF8_ofList] at htext
    simpa using htext
  obtain ⟨s, hs⟩ : ∃ s, encode s = bytes.data.toList :=
    of_cutLines (P := fun line => ∃ s, encode s = line) ⟨[], rfl⟩ ⟨['\n'], by decide⟩
      ⟨['\r'], by decide⟩ (fun _ _ ⟨s, hs⟩ ⟨t, ht⟩ => ⟨s ++ t, by rw [encode_append, hs, ht]⟩)
      hlines
  exact ⟨String.ofList s, by rw [toUTF8_ofList, hs, Array.toArray_toList]⟩

end Decoding

end Unbundle.Text
