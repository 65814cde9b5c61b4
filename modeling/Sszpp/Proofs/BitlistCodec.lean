import Sszpp.Proofs.Bitlist
import Sszpp.Proofs.Encoding

/-!
# The bitlist codec

The decoder compares eight times the number of its bytes with the limit, which counts bits without
the delimiter, and it takes the delimiter from the last byte without a look at whether there is one.
-/

namespace Sszpp

open Library

/-- The position of the highest bit set in the last byte. -/
def delimiterIndex (last : Byte) : Nat := 8 - countlZero last - 1

lemma delimiterIndex_delimitedByte {bits : List Bool} (hlt : bits.length < 8) :
    delimiterIndex (delimitedByte bits) = bits.length := by
  rw [delimiterIndex, countlZero_delimitedByte hlt]
  omega

/-- A byte with a bit set has its highest one at `delimiterIndex`. -/
lemma delimiterIndex_spec {x : Byte} (hx : x ≠ 0) :
    delimiterIndex x < 8 ∧ x.getLsbD (delimiterIndex x) = true ∧
      ∀ i, delimiterIndex x < i → x.getLsbD i = false := by
  have hne : x.toNat ≠ 0 := by
    intro hzero
    exact hx (BitVec.eq_of_toNat_eq hzero)
  have hlog : x.toNat.log2 < 8 := (Nat.log2_lt hne).mpr x.isLt
  have hindex : delimiterIndex x = x.toNat.log2 := by
    rw [delimiterIndex, countlZero, if_neg hx]
    omega
  obtain ⟨hle, hlt⟩ := (Nat.log2_eq_iff hne).mp rfl
  rw [hindex]
  refine ⟨hlog, ?_, fun i hi => ?_⟩
  · rw [← BitVec.testBit_toNat]
    exact Nat.testBit_log2 hne
  · rw [← BitVec.testBit_toNat]
    apply Nat.testBit_lt_two_pow
    calc x.toNat < 2 ^ (x.toNat.log2 + 1) := hlt
      _ ≤ 2 ^ i := Nat.pow_le_pow_right (by decide) hi

lemma flatMap_getLsbD (bytes : Bytes) :
    (bytes.flatMap fun b => (List.range 8).map fun j => b.getLsbD j) =
      unpackBits (8 * bytes.length) bytes := by
  induction bytes with
  | nil => rfl
  | cons b bs ih =>
    have hlen : 8 * (b :: bs).length = 8 * [b].length + 8 * bs.length := by
      simp only [List.length_cons, List.length_nil]
      omega
    rw [List.flatMap_cons, ih, hlen, ← unpackBits_singleton (le_refl 8)]
    exact (unpackBits_append [b] bs (8 * bs.length)).symm

/-- What is decoded: the bits before the delimiter. -/
lemma deserializeVectorBool_append (init : Bytes) (last : Byte) (r : List Bool) :
    deserializeVectorBool (init ++ [last]) r =
      .ok (unpackBits (8 * init.length + delimiterIndex last) (init ++ [last])) := by
  have hle : delimiterIndex last ≤ 8 := by
    unfold delimiterIndex
    omega
  rw [deserializeVectorBool_eq, List.getLast?_concat]
  simp only [List.dropLast_concat]
  rw [flatMap_getLsbD, unpackBits_append, unpackBits_singleton hle, delimiterIndex]

/-- The decoder without the limit inverts the encoder. -/
lemma deserializeVectorBool_packBits (x r : List Bool) :
    deserializeVectorBool (packBits (x ++ [true])) r = .ok x := by
  obtain ⟨whole, bits, rfl, hwhole, hlt⟩ := exists_whole_bytes x
  have hpack : packBits (whole ++ bits ++ [true]) = packBits whole ++ [delimitedByte bits] := by
    rw [List.append_assoc, packBits_append hwhole, packBits_delimited hlt]
  have hlen : 8 * (packBits whole).length + bits.length = (whole ++ bits).length := by
    rw [length_packBits, List.length_append]
    omega
  rw [hpack, deserializeVectorBool_append, delimiterIndex_delimitedByte hlt, ← hpack, hlen]
  congr 1
  apply List.ext_getElem (length_unpackBits _ _)
  intro i hi hx
  simp only [unpackBits, List.getElem_map, List.getElem_range, bitAt_packBits]
  rw [List.getD_append _ _ _ _ hx, List.getD_eq_getElem _ _ hx]

lemma serialize_bitlist (limit : Nat) (x : List Bool) :
    (SszType.bitlist limit).serialize x = .ok (packBits (x ++ [true])) :=
  SszType.serialize_eq_of_fits (.bitlist limit) trivial x trivial

/-- A serialized bitlist is decoded to itself exactly when the bits of its bytes, the delimiter's byte
included, are no more than the limit. -/
theorem deserializeBitlist_serialize_iff (limit : Nat) (x r : List Bool) :
    ((SszType.bitlist limit).serialize x >>= fun bytes => (SszType.bitlist limit).deserialize bytes r) =
      .ok x ↔ (x.length / 8 + 1) * 8 ≤ limit := by
  have hlen : (packBits (x ++ [true])).length = x.length / 8 + 1 := by
    rw [length_packBits, List.length_append, List.length_singleton]
    omega
  rw [serialize_bitlist, Outcome.ok_bind]
  simp only [SszType.deserialize, deserializeBitlist, hlen]
  split
  · rename_i hlt
    have hgt : ¬ (x.length / 8 + 1) * 8 ≤ limit := by omega
    simp [hgt]
  · rename_i hle
    have hfits : (x.length / 8 + 1) * 8 ≤ limit := by omega
    simp [hfits, deserializeVectorBool_packBits]

/-- Four bits in a list of at most four take one byte, which the decoder counts as eight bits. -/
theorem deserializeBitlist_full :
    ¬ ∀ x : List Bool, x.length ≤ 4 →
      ((SszType.bitlist 4).serialize x >>= fun bytes => (SszType.bitlist 4).deserialize bytes []) = .ok x := by
  intro h
  exact absurd (h [true, false, true, true] (by decide)) (by decide)

/-! ### Malformed input -/

/-- The decoder throws, or it returns a list within the limit that is encoded as the input. -/
def BitlistStrict (limit : Nat) (bytes : Bytes) (r : List Bool) : Prop :=
  (∃ e, (SszType.bitlist limit).deserialize bytes r = .error (.thrown e)) ∨
    ∃ x, (SszType.bitlist limit).deserialize bytes r = .ok x ∧ x.length ≤ limit ∧
      (SszType.bitlist limit).serialize x = .ok bytes

/-- With a bit set in the last byte the input is the encoding of what is decoded. -/
lemma packBits_delimiterIndex (init : Bytes) {last : Byte} (h : last ≠ 0) :
    packBits (unpackBits (8 * init.length + delimiterIndex last) (init ++ [last]) ++ [true]) =
      init ++ [last] := by
  obtain ⟨hlt, hset, habove⟩ := delimiterIndex_spec h
  have hbit : ∀ j < 8, bitAt (init ++ [last]) (8 * init.length + j) = last.getLsbD j := by
    intro j hj
    have hdiv : j / 8 = 0 := by omega
    rw [bitAt_append, if_neg (by omega), Nat.add_sub_cancel_left, bitAt, hdiv, Nat.mod_eq_of_lt hj,
      List.getD_cons_zero]
  apply packBits_unpackBits_append
  · rw [List.length_append, List.length_singleton]
    omega
  · rw [hbit _ hlt, hset]
  · intro i hi
    rcases Nat.lt_or_ge i (8 * (init ++ [last]).length) with hin | hout
    · rw [List.length_append, List.length_singleton] at hin
      obtain ⟨j, rfl⟩ : ∃ j, i = 8 * init.length + j := ⟨i - 8 * init.length, by omega⟩
      rw [hbit j (by omega), habove j (by omega)]
    · exact bitAt_of_le hout

/-- Without one the decoded bits are those of another byte string. -/
lemma packBits_ne_of_zero (init : Bytes) :
    packBits (unpackBits (8 * init.length + delimiterIndex 0) (init ++ [0]) ++ [true]) ≠ init ++ [0] := by
  intro h
  have hindex : delimiterIndex 0 = 0 := rfl
  have hset := bitAt_packBits (unpackBits (8 * init.length) (init ++ [0]) ++ [true]) (8 * init.length)
  have hlen := length_unpackBits (8 * init.length) (init ++ [0])
  rw [hindex, Nat.add_zero] at h
  rw [h, List.getD_append_right _ _ _ _ (le_of_eq hlen), hlen, Nat.sub_self, List.getD_cons_zero,
    bitAt_append, if_neg (by omega), Nat.sub_self] at hset
  exact absurd hset (by decide)

/-- The decoder is strict exactly on the inputs that the limit rejects and on those whose last byte
has a bit set. -/
theorem bitlistStrict_iff (limit : Nat) (bytes : Bytes) (r : List Bool) :
    BitlistStrict limit bytes r ↔
      limit < bytes.length * 8 ∨ ∃ last, bytes.getLast? = some last ∧ last ≠ 0 := by
  unfold BitlistStrict
  simp only [SszType.deserialize, deserializeBitlist]
  by_cases hlimit : limit < bytes.length * 8
  · simp [hlimit]
  rw [if_neg hlimit]
  rcases List.eq_nil_or_concat' bytes with rfl | ⟨init, last, rfl⟩
  · simp [deserializeVectorBool]
  · simp only [deserializeVectorBool_append, hlimit, reduceCtorEq, exists_false, false_or,
      Except.ok.injEq, exists_eq_left', serialize_bitlist, List.getLast?_concat, Option.some.injEq]
    constructor
    · rintro ⟨-, hbytes⟩ rfl
      exact packBits_ne_of_zero init hbytes
    · intro hlast
      have hlt := (delimiterIndex_spec hlast).1
      rw [List.length_append, List.length_singleton] at hlimit
      exact ⟨by rw [length_unpackBits]; omega, packBits_delimiterIndex init hlast⟩

/-- Two inputs that are decoded to one list are equal where the decoder is strict. -/
theorem bitlistStrict_injective {limit : Nat} {bytes bytes' : Bytes} {r r' x : List Bool}
    (hstrict : BitlistStrict limit bytes r) (hstrict' : BitlistStrict limit bytes' r')
    (h : (SszType.bitlist limit).deserialize bytes r = .ok x)
    (h' : (SszType.bitlist limit).deserialize bytes' r' = .ok x) : bytes = bytes' := by
  rcases hstrict with ⟨e, he⟩ | ⟨y, hy, -, hser⟩
  · cases h.symm.trans he
  · rcases hstrict' with ⟨e', he'⟩ | ⟨y', hy', -, hser'⟩
    · cases h'.symm.trans he'
    · obtain rfl := Except.ok.inj (h.symm.trans hy)
      obtain rfl := Except.ok.inj (h'.symm.trans hy')
      exact Except.ok.inj (hser.symm.trans hser')

/-- The empty input is read, and a zero byte is decoded to the empty list, whose encoding is the byte
with the delimiter alone. -/
theorem bitlist_malformed :
    ¬ BitlistStrict 8 [] [] ∧ ¬ BitlistStrict 8 [0] [] ∧
      (SszType.bitlist 8).deserialize [0] [] = (SszType.bitlist 8).deserialize [1] [] := by
  have hempty : (SszType.bitlist 8).deserialize [] [] = .error (.undefined .read) := rfl
  have hzero : (SszType.bitlist 8).deserialize [0] [] = .ok [] := rfl
  have hone : (SszType.bitlist 8).deserialize [1] [] = .ok [] := rfl
  have hser : (SszType.bitlist 8).serialize [] = .ok [1] := rfl
  refine ⟨?_, ?_, hzero.trans hone.symm⟩
  · rintro (⟨e, he⟩ | ⟨x, hx, -⟩)
    · cases hempty.symm.trans he
    · cases hempty.symm.trans hx
  · rintro (⟨e, he⟩ | ⟨x, hx, -, hx'⟩)
    · cases hzero.symm.trans he
    · cases hzero.symm.trans hx
      exact absurd (hser.symm.trans hx') (by decide)

end Sszpp
