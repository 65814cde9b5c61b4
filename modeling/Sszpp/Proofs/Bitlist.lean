import Sszpp.Model.HashTreeRoot

/-!
# The delimiter of a bitlist

The highest bit set in the last byte of a serialized bitlist is its delimiter, and the bytes
without it are the packed bits of the list.
-/

namespace Sszpp

open Library

/-- `countl_zero` of a byte with highest bit `j`. -/
lemma countlZero_eq {x : Byte} {j : Nat} (hset : x.getLsbD j = true)
    (habove : ∀ i, j < i → x.getLsbD i = false) : countlZero x = 7 - j := by
  have hle : 2 ^ j ≤ x.toNat := by
    apply Nat.ge_two_pow_of_testBit
    rwa [BitVec.testBit_toNat]
  have hlt : x.toNat < 2 ^ (j + 1) := by
    apply Nat.lt_pow_two_of_testBit
    intro i hi
    rw [BitVec.testBit_toNat]
    exact habove i hi
  have hpos : 0 < 2 ^ j := Nat.pow_pos (by decide)
  have hne : x.toNat ≠ 0 := by omega
  have hzero : x ≠ 0 := by
    rintro rfl
    exact hne rfl
  rw [countlZero, if_neg hzero, (Nat.log2_eq_iff hne).mpr ⟨hle, hlt⟩]

lemma getLsbD_one_shiftLeft {j i : Nat} (hi : i < 8) : ((1 : Byte) <<< j).getLsbD i = decide (i = j) := by
  rw [BitVec.getLsbD_shiftLeft]
  by_cases hlt : i < j
  · have hne : i ≠ j := Nat.ne_of_lt hlt
    simp [hlt, hne]
  · have hone : BitVec.getLsbD (1 : Byte) (i - j) = decide (i - j = 0) := by
      rw [Bool.eq_iff_iff, decide_eq_true_iff]
      exact Nat.testBit_one_eq_true_iff_self_eq_zero
    have hiff : i - j = 0 ↔ i = j := by omega
    rw [hone]
    simp [hi, hlt, hiff]

/-- The last byte of a serialized bitlist, from the bits after the last whole byte. -/
def delimitedByte (bits : List Bool) : Byte := byteOfBits fun j => (bits ++ [true]).getD j false

section Delimiter

variable {bits : List Bool}

lemma getLsbD_delimitedByte {i : Nat} (hi : i < 8) :
    (delimitedByte bits).getLsbD i = if i = bits.length then true else bits.getD i false := by
  rw [delimitedByte, getLsbD_byteOfBits _ hi, getD_append_true]
  split
  · rename_i heq
    rw [decide_eq_true heq, Bool.or_true]
  · rename_i hne
    rw [decide_eq_false hne, Bool.or_false]

lemma countlZero_delimitedByte (hlt : bits.length < 8) :
    countlZero (delimitedByte bits) = 7 - bits.length := by
  apply countlZero_eq
  · rw [getLsbD_delimitedByte hlt, if_pos rfl]
  · intro i hi
    rcases Nat.lt_or_ge i 8 with h | h
    · rw [getLsbD_delimitedByte h, if_neg (by omega), List.getD_eq_default _ _ (by omega)]
    · exact BitVec.getLsbD_of_ge _ i h

lemma clear_delimitedByte :
    delimitedByte bits &&& ~~~((1 : Byte) <<< bits.length) = byteOfBits fun j => bits.getD j false := by
  apply BitVec.eq_of_getLsbD_eq
  intro i hi
  rw [BitVec.getLsbD_and, BitVec.getLsbD_not, getLsbD_one_shiftLeft hi,
    getLsbD_delimitedByte hi, getLsbD_byteOfBits _ hi]
  by_cases heq : i = bits.length
  · rw [if_pos heq, List.getD_eq_default _ _ (by omega)]
    simp [heq]
  · simp [heq, hi]

lemma packBits_delimited (hlt : bits.length < 8) : packBits (bits ++ [true]) = [delimitedByte bits] := by
  apply packBits_of_length_le
  · simp
  · rw [List.length_append, List.length_singleton]
    omega

end Delimiter

lemma exists_whole_bytes (v : List Bool) :
    ∃ whole bits, v = whole ++ bits ∧ whole.length % 8 = 0 ∧ bits.length < 8 := by
  refine ⟨v.take (v.length / 8 * 8), v.drop (v.length / 8 * 8), (List.take_append_drop _ v).symm, ?_, ?_⟩
  · rw [List.length_take_of_le (Nat.div_mul_le_self _ _)]
    exact Nat.mul_mod_left _ _
  · rw [List.length_drop]
    omega

theorem removeDelimiter_packBits (v : List Bool) :
    removeDelimiter (packBits (v ++ [true])) = .ok (packBits v) := by
  obtain ⟨whole, bits, rfl, hwhole, hlt⟩ := exists_whole_bytes v
  have hhighest : 8 - countlZero (delimitedByte bits) = bits.length + 1 := by
    rw [countlZero_delimitedByte hlt]
    omega
  rw [List.append_assoc, packBits_append hwhole, packBits_append hwhole, packBits_delimited hlt,
    removeDelimiter, List.getLast?_concat]
  simp only [hhighest, List.dropLast_concat, clear_delimitedByte]
  split
  · rename_i hzero
    rw [List.length_eq_zero_iff.mp hzero, packBits_nil, List.append_nil]
  · rename_i hne
    rw [packBits_of_length_le (Nat.pos_of_ne_zero hne) (le_of_lt hlt)]

end Sszpp
