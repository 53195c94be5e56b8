import TomlQuery.Input
import TomlQuery.Proofs.Text.Utf8
/-! # Input in chunks

The text of a stream depends on its bytes only and not on where they are cut. Bytes that spell a
text give the text, and any others give what they stand for, with one replacement character for each
damaged part.
-/
namespace TomlQuery
open Text

theorem Text.Utf8.encode_toList (text : String) :
    Utf8.encode text.toList = text.toByteArray.data.toList := by
  rw [← String.utf8Encode_toList, List.utf8Encode, List.toList_data_toByteArray, Utf8.encode]

/-- The text of a stream is what its bytes stand for. It is the text that was encoded, wherever its
bytes are cut, and streams with the same bytes have the same text. -/
theorem readChunks_decoded :
    (∀ chunks text, readChunks chunks = text ↔
      Utf8.Decoded (chunks.flatMap Chunk.toBytes) text.toList) ∧
    (∀ (text : String) chunks, chunks.flatMap Chunk.toBytes = text.toByteArray.data.toList →
      readChunks chunks = text) ∧
    ∀ chunks others, chunks.flatMap Chunk.toBytes = others.flatMap Chunk.toBytes →
      readChunks chunks = readChunks others := by
  refine ⟨fun chunks text => ?_, fun text chunks h => ?_, fun chunks others h => ?_⟩
  · rw [← Utf8.decode_eq_iff, readChunks, ← String.toList_inj, String.toList_ofList]
  · rw [readChunks, h, ← Utf8.encode_toList, Utf8.decode_encode, String.ofList_toList]
  · rw [readChunks, h, readChunks]

/-- Bytes that are cut within a character. -/
theorem readChunks_decoded_cut :
    readChunks [.bytes [0x61, 0xf0, 0x9f], .other, .bytes [], .bytes [0x98, 0x80]] = "a😀" ∧
    readChunks [.bytes [0xe2], .other, .bytes [0x28]] = readChunks [.bytes [0xe2], .text "("] :=
  ⟨readChunks_decoded.2.1 _ _ (by decide), readChunks_decoded.2.2 _ _ (by decide)⟩

end TomlQuery
