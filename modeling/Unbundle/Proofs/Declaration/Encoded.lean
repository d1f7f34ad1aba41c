import Mathlib.Data.List.Basic
import Unbundle.Declaration.File
import Unbundle.Proofs.Files.InStep
import Unbundle.Proofs.Text.Encoding

/-! A declaration stream comes in a text or in bytes. Bytes are cut into lines before it is known
that they are a text; the stream that they give is that of the text, whatever ends its lines and
whether or not something ends the last one. Bytes that are no text give none. -/

namespace Unbundle.Declaration
open Unbundle.Files

section Encoded
variable {direction : Direction} {options : Options} {bytes : ByteArray} {path : Files.Path}
  {disk : Disk}

theorem ofBytes?_toUTF8 (text : String) :
    Stream.ofBytes? direction options text.toUTF8 = some (Stream.ofText direction options text) := by
  rw [Stream.ofBytes?, Text.decodeLines?_toUTF8]
  rfl

theorem ofBytes?_eq_none (h : ∀ text : String, text.toUTF8 ≠ bytes) :
    Stream.ofBytes? direction options bytes = none := by
  rw [Stream.ofBytes?, Option.map_eq_none_iff, Option.eq_none_iff_forall_ne_some]
  intro lines hlines
  obtain ⟨text, htext⟩ := Text.exists_of_decodeLines? hlines
  exact h text htext

theorem run_readStream (h : disk.readBytes path = .ok bytes) :
    (readStream path direction options).run.run disk =
      ((Stream.ofBytes? direction options bytes).elim (.error (.io path .notText)) .ok, disk) := by
  unfold readStream Work.at
  rw [run_adapt, run_bind, run_ofDisk, h]
  simp only
  cases Stream.ofBytes? direction options bytes <;> rfl

/-- Bytes and text are read alike. The bytes of a text give the stream that the text gives; bytes
that are those of no text give no stream, and a file of them is a failure at its path. -/
theorem reads_as_text (direction : Direction) (options : Options) (bytes : ByteArray) :
    (∀ text : String, text.toUTF8 = bytes →
      Stream.ofBytes? direction options bytes = some (Stream.ofText direction options text) ∧
      ∀ path disk, disk.readBytes path = .ok bytes →
        (readStream path direction options).run.run disk =
          (.ok (Stream.ofText direction options text), disk)) ∧
    ((∀ text : String, text.toUTF8 ≠ bytes) →
      Stream.ofBytes? direction options bytes = none ∧
      ∀ path disk, disk.readBytes path = .ok bytes →
        (readStream path direction options).run.run disk =
          (.error (.io path .notText), disk)) := by
  constructor
  · rintro text rfl
    refine ⟨ofBytes?_toUTF8 text, fun path disk hread => ?_⟩
    rw [run_readStream hread, ofBytes?_toUTF8, Option.elim_some]
  · intro hinvalid
    refine ⟨ofBytes?_eq_none hinvalid, fun path disk hread => ?_⟩
    rw [run_readStream hread, ofBytes?_eq_none hinvalid, Option.elim_none]

/-- Two lines that are no text; the two bytes of a letter stand in different ones. -/
def tornBytes : ByteArray := ⟨#[0x61, 0x0A, 0xC3, 0x0D, 0x0A, 0x89]⟩

def tornDisk : Disk where
  home := []
  tree := FileTree.empty.plant ["torn"] (.file tornBytes)

/-- A text whose lines end in every way: with a newline, with a return and a newline, with the end
of the text. A return that ends no line belongs to one, as the two bytes of a letter do. -/
theorem reads_as_text_mixed (direction : Direction) (options : Options) :
    let text := "type É = 1;\r\ntype B =\r2;\r\r\n\ntype C = 3;\r"
    Text.lines text = ["type É = 1;", "type B =\r2;\r", "", "type C = 3;\r"] ∧
    Stream.ofBytes? direction options text.toUTF8 =
      some (Stream.ofLines direction options (Text.lines text)) ∧
    Stream.ofBytes? direction options tornBytes = none ∧
    (readStream ⟨"/torn"⟩ direction options).run.run tornDisk =
      (.error (.io ⟨"/torn"⟩ .notText), tornDisk) := by
  have hinvalid (text : String) : text.toUTF8 ≠ tornBytes := by
    intro htext
    have hnone : String.fromUTF8? tornBytes = none := by decide
    rw [Text.fromUTF8?_eq_some.2 htext] at hnone
    cases hnone
  have htorn := (reads_as_text direction options tornBytes).2 hinvalid
  have hentry : tornDisk.entry ⟨"/torn"⟩ = .ok (["torn"], .file tornBytes) := by decide +kernel
  have hread : tornDisk.readBytes ⟨"/torn"⟩ = .ok tornBytes := by
    rw [Disk.readBytes, hentry]
    rfl
  exact ⟨by decide, ((reads_as_text direction options _).1 _ rfl).1, htorn.1, htorn.2 _ _ hread⟩

end Encoded

end Unbundle.Declaration
