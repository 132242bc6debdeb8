import CodeSimilarity.Proofs.Numerals
import CodeSimilarity.Report

set_option autoImplicit false
set_option relaxedAutoImplicit false

/-!
# The numerals of digests

A digest is shown as a hexadecimal numeral. The numeral is written into a buffer of twelve cells,
which is never full, and it can be read back. No two digests have the same numeral, and so the list
of matched digests in a report shows which of them are equal.

## Main definitions

* `Json.field?` — the value under a name in an object.

## Main results

* `Digest.format_injective` — different digests have different numerals.
* `Digest.format_lossless_and_canonical` — what the numeral of a digest is, where it is written, and
  the numerals in a report.
-/

namespace CodeSimilarity

/-- The value under a name in an object. -/
def Json.field? (name : String) : Json → Option Json
  | .object fields => fields.lookup name
  | _ => none

/-- The matched digests are shown as numerals. -/
theorem Stats.field?_matchedDigests (stats : Stats) :
    (toJson stats).field? "matched_digests" =
      some (.array ((stats.matchedDigests.map Digest.format).map Json.text)) := by
  rfl

namespace Digest

open Text

/-! ## Reading a digest back -/

/-- The written form of a digest reads back as its integer. -/
theorem signedNumeral?_format (d : Digest) : signedNumeral? 16 d.format = some d.toInt := by
  rw [format_eq]
  exact signedNumeral?_ofInt (by decide) (by decide)

/-- Digests are written in canonical form. -/
theorem isCanonical_format (d : Digest) : d.format.IsCanonical := by
  rw [format_eq]
  exact isCanonical_ofInt (by decide) (by decide)

/-- A written digest has at most eight digits and a sign. -/
theorem length_format_le (d : Digest) : d.format.length ≤ 9 := by
  rw [format_eq]
  exact d.length_ofInt_le

/-- The least digest takes all nine bytes. -/
example : format Int32.minValue = ofAscii "-80000000" := by cbv

/-- Different digests have different numerals. -/
theorem format_injective : Function.Injective format := by
  intro d e h
  have hread := congrArg (signedNumeral? 16) h
  rw [signedNumeral?_format, signedNumeral?_format] at hread
  exact Int32.toInt_inj.1 (Option.some.inj hread)

/-- Only one canonical text is read as a given digest. -/
theorem eq_format {d : Digest} {s : Text} (hs : s.IsCanonical)
    (h : signedNumeral? 16 s = some d.toInt) : s = d.format := by
  rw [format_eq]
  exact eq_ofInt (by decide) (by decide) hs h

/-! ## The buffer and the report -/

/-- Three of twelve cells stay free, whichever digest is written. -/
theorem exists_free_cells (d : Digest) (cells : Vector UInt8 12) :
    ∃ b, d.writeTo? (.ofCells cells) = some b ∧ b.text = d.format ∧ 3 ≤ b.start := by
  obtain ⟨b, hwrite, htext⟩ := d.exists_writeTo?_ofCells cells
  rw [← format_eq] at htext
  have hlength := d.length_format_le
  rw [← htext, BackBuffer.length_text] at hlength
  exact ⟨b, hwrite, htext, by omega⟩

/-- **A digest is written without loss and in one way only.** Whatever the twelve cells of the buffer
hold, a cell is free for every byte that is written, and three cells stay free. The numeral has at
most nine bytes and is read back as the digest, and no other canonical text is. A report gives every
matched digest as such a numeral, and two of these are equal only if the digests are. -/
theorem format_lossless_and_canonical :
    (∀ (d : Digest) (cells : Vector UInt8 12),
      ∃ b, d.writeTo? (.ofCells cells) = some b ∧ b.text = d.format ∧ 3 ≤ b.start) ∧
    (∀ d : Digest, signedNumeral? 16 d.format = some d.toInt ∧ d.format.length ≤ 9 ∧
      ∀ s : Text, s = d.format ↔ s.IsCanonical ∧ signedNumeral? 16 s = some d.toInt) ∧
    ∀ stats : Stats, ∃ texts : List Text,
      (toJson stats).field? "matched_digests" = some (.array (texts.map .text)) ∧
      texts.map (signedNumeral? 16) = stats.matchedDigests.map (fun d => some d.toInt) ∧
      ∀ i j : Nat, texts[i]? = texts[j]? ↔ stats.matchedDigests[i]? = stats.matchedDigests[j]? := by
  refine ⟨exists_free_cells, fun d => ⟨signedNumeral?_format d, length_format_le d, fun s => ?_⟩,
    fun stats => ⟨stats.matchedDigests.map format, stats.field?_matchedDigests, ?_, fun i j => ?_⟩⟩
  · constructor
    · rintro rfl
      exact ⟨isCanonical_format d, signedNumeral?_format d⟩
    · rintro ⟨hs, h⟩
      exact eq_format hs h
  · rw [List.map_map]
    exact List.map_congr_left fun d _ => signedNumeral?_format d
  · rw [List.getElem?_map, List.getElem?_map]
    exact (Option.map_injective format_injective).eq_iff

end Digest

end CodeSimilarity
