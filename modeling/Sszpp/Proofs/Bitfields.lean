import Sszpp.Proofs.BitlistCodec
import Sszpp.Proofs.Root
import Sszpp.Proofs.RoundTrip

/-!
# Bit sequences

Two packers and two unpackers describe one layout, that of `packBits`. The root of a bitlist is taken
over the packed bits alone, after the delimiter has been written and removed again.
-/

namespace Sszpp

open Library

/-! ### Packers and unpackers -/

lemma writes_bitvector (bits : List Bool) :
    Writes (fun pos buf => serializeBitvector pos bits buf) (packBits bits) := by
  unfold serializeBitvector
  rw [map_eightBitsToByte]
  exact writes_store (packBits bits)

/-- Both packers write the bits in order, the bitlist packer one more after them, and each unpacker
returns them whatever its target held. -/
theorem bitPackers_agree (x : List Bool) :
    ∃ packed delimited : Bytes,
      (Writes (fun pos buf => serializeBitvector pos x buf) packed ∧
        Writes (fun pos buf => serializeBitset pos 0 x buf) packed ∧
        packed.length = (x.length + 7) / 8 ∧ ∀ i, bitAt packed i = x.getD i false) ∧
      (Writes (fun pos buf => serializeBitlist pos x buf) delimited ∧
        delimited.length = x.length / 8 + 1 ∧
        ∀ i, bitAt delimited i = (bitAt packed i || decide (i = x.length))) ∧
      (∀ ret : StdArray Bool x.length, deserializeBitset packed ret = ⟨x, rfl⟩) ∧
      ∀ ret : List Bool, deserializeVectorBool delimited ret = .ok x := by
  refine ⟨packBits x, packBits (x ++ [true]), ⟨writes_bitvector x, writes_bitset x, length_packBits x,
    bitAt_packBits x⟩, ⟨writes_bitlist x, ?_, fun i => ?_⟩, fun ret => ?_, fun ret => ?_⟩
  · rw [length_packBits, List.length_append, List.length_singleton]
    omega
  · rw [bitAt_packBits, bitAt_packBits]
    exact getD_append_true x i
  · apply Subtype.ext
    rw [deserializeBitset_eq]
    exact unpackBits_packBits x
  · exact deserializeVectorBool_packBits x ret

/-! ### Roots -/

/-- The root of a bitlist is that of its packed bits with the length mixed in, and the root of a bitset
is that of its packed bits. -/
theorem bitfield_root (P : Platform) (n : Nat) (hn : (n + 255) / 256 ≤ 2 ^ 41) (s : Schedule)
    (cpuCount : Nat) (result : Chunk) :
    (∀ x : List Bool, x.length ≤ n → Returns ((SszType.bitlist n).hashTreeRoot P s x cpuCount result)
      (withLength P.hashtreeHash
        (merkleize P.hashtreeHash (chunksOf (packBits x)) ((n + 255) / 256)) x.length)) ∧
      ∀ x : StdArray Bool n, Returns ((SszType.bitset n).hashTreeRoot P s x cpuCount result)
        (merkleize P.hashtreeHash (chunksOf (packBits x.1)) ((n + 255) / 256)) := by
  constructor
  · intro x hx
    exact (SszType.bitlist n).returns_root P hx hn s cpuCount
  · intro x
    exact (SszType.bitset n).returns_root P trivial hn s cpuCount

theorem bitfield_root_sample :
    (∀ x : List Bool, x.length ≤ 300 →
      Returns ((SszType.bitlist 300).hashTreeRoot samplePlatform (fun _ => false) x 0 zeroHash)
        (withLength samplePlatform.hashtreeHash
          (merkleize samplePlatform.hashtreeHash (chunksOf (packBits x)) ((300 + 255) / 256)) x.length)) ∧
      ∀ x : StdArray Bool 300,
        Returns ((SszType.bitset 300).hashTreeRoot samplePlatform (fun _ => false) x 0 zeroHash)
          (merkleize samplePlatform.hashtreeHash (chunksOf (packBits x.1)) ((300 + 255) / 256)) :=
  bitfield_root samplePlatform 300 (by decide) (fun _ => false) 0 zeroHash

end Sszpp
