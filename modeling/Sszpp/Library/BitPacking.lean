import Mathlib.Data.List.GetD
import Sszpp.Library.LittleEndian

/-!
# Packed bits

Bit `i` of a packed sequence is bit `i % 8` of byte `i / 8`. Two byte strings of one length are
equal when all their bits are.
-/

namespace Sszpp.Library

def byteOfBits (f : Nat → Bool) : Byte :=
  BitVec.ofBoolListLE [f 0, f 1, f 2, f 3, f 4, f 5, f 6, f 7]

/-- The least number of bytes that hold the bits, the unused high bits of the last one zero. -/
def packBits (bits : List Bool) : Bytes :=
  (List.range ((bits.length + 7) / 8)).map fun k => byteOfBits fun j => bits.getD (8 * k + j) false

/-- Bit `i` of a packed sequence. -/
def bitAt (bytes : Bytes) (i : Nat) : Bool := (bytes.getD (i / 8) 0).getLsbD (i % 8)

def unpackBits (n : Nat) (bytes : Bytes) : List Bool := (List.range n).map (bitAt bytes)

@[simp] lemma getLsbD_byteOfBits (f : Nat → Bool) {j : Nat} (hj : j < 8) :
    (byteOfBits f).getLsbD j = f j := by
  have hbits : [f 0, f 1, f 2, f 3, f 4, f 5, f 6, f 7] = (List.range 8).map f := rfl
  rw [byteOfBits]
  exact BitVec.getLsbD_ofBoolListLE.trans (by simp [hbits, hj])

@[simp] lemma length_packBits (bits : List Bool) :
    (packBits bits).length = (bits.length + 7) / 8 := by
  simp [packBits]

@[simp] lemma packBits_nil : packBits [] = [] := rfl

lemma bitAt_of_le {bytes : Bytes} {i : Nat} (h : 8 * bytes.length ≤ i) : bitAt bytes i = false := by
  have hle : bytes.length ≤ i / 8 := by omega
  rw [bitAt, List.getD_eq_default _ _ hle]
  exact BitVec.getLsbD_zero

lemma bitAt_packBits (bits : List Bool) (i : Nat) : bitAt (packBits bits) i = bits.getD i false := by
  rcases Nat.lt_or_ge (i / 8) ((bits.length + 7) / 8) with hlt | hge
  · have hget : (packBits bits).getD (i / 8) 0 =
        byteOfBits fun j => bits.getD (8 * (i / 8) + j) false := by
      simp [packBits, List.getD_eq_getElem?_getD, hlt]
    rw [bitAt, hget, getLsbD_byteOfBits _ (Nat.mod_lt _ (by decide)), Nat.div_add_mod]
  · rw [bitAt_of_le (by rw [length_packBits]; omega), List.getD_eq_default _ _ (by omega)]

lemma bytes_eq_of_bits {as bs : Bytes} (hlen : as.length = bs.length)
    (h : ∀ i < 8 * bs.length, bitAt as i = bitAt bs i) : as = bs := by
  apply List.ext_getElem hlen
  intro k hka hkb
  apply BitVec.eq_of_getLsbD_eq
  intro j hj
  have hbit := h (8 * k + j) (by omega)
  have hk : (8 * k + j) / 8 = k := by omega
  have hmod : (8 * k + j) % 8 = j := by omega
  simpa only [bitAt, hk, hmod, List.getD_eq_getElem _ _ hka, List.getD_eq_getElem _ _ hkb] using hbit

lemma eq_packBits {bytes : Bytes} {bits : List Bool} (hlen : bytes.length = (bits.length + 7) / 8)
    (h : ∀ i, bitAt bytes i = bits.getD i false) : bytes = packBits bits := by
  apply bytes_eq_of_bits
  · rw [hlen, length_packBits]
  · intro i _
    rw [h, bitAt_packBits]

lemma length_unpackBits (n : Nat) (bytes : Bytes) : (unpackBits n bytes).length = n := by
  simp [unpackBits]

lemma unpackBits_packBits (bits : List Bool) : unpackBits bits.length (packBits bits) = bits := by
  apply List.ext_getElem (length_unpackBits _ _)
  intro i hi hb
  simp [unpackBits, bitAt_packBits, hb]

lemma packBits_injective {xs ys : List Bool} (hlen : xs.length = ys.length)
    (h : packBits xs = packBits ys) : xs = ys := by
  rw [← unpackBits_packBits xs, ← unpackBits_packBits ys, hlen, h]

lemma bitAt_append (as bs : Bytes) (i : Nat) :
    bitAt (as ++ bs) i =
      if i < 8 * as.length then bitAt as i else bitAt bs (i - 8 * as.length) := by
  unfold bitAt
  by_cases h : i < 8 * as.length
  · have hlt : i / 8 < as.length := by omega
    rw [if_pos h, List.getD_append _ _ _ _ hlt]
  · have hge : as.length ≤ i / 8 := by omega
    have hdiv : (i - 8 * as.length) / 8 = i / 8 - as.length := by omega
    have hmod : (i - 8 * as.length) % 8 = i % 8 := by omega
    rw [if_neg h, List.getD_append_right _ _ _ _ hge, hdiv, hmod]

/-- Whole bytes are unpacked on their own. -/
lemma unpackBits_append (as bs : Bytes) (n : Nat) :
    unpackBits (8 * as.length + n) (as ++ bs) = unpackBits (8 * as.length) as ++ unpackBits n bs := by
  simp only [unpackBits, List.range_add, List.map_append, List.map_map]
  congr 1
  · apply List.map_congr_left
    intro i hi
    rw [bitAt_append, if_pos (List.mem_range.mp hi)]
  · apply List.map_congr_left
    intro i _
    rw [Function.comp_apply, bitAt_append, if_neg (by omega), Nat.add_sub_cancel_left]

lemma unpackBits_singleton {n : Nat} (h : n ≤ 8) (b : Byte) :
    unpackBits n [b] = (List.range n).map fun i => b.getLsbD i := by
  apply List.map_congr_left
  intro i hi
  have hlt := List.mem_range.mp hi
  have hdiv : i / 8 = 0 := by omega
  have hmod : i % 8 = i := by omega
  rw [bitAt, hdiv, hmod, List.getD_cons_zero]

/-- Whole bytes are packed on their own. -/
lemma packBits_append {xs : List Bool} (h : xs.length % 8 = 0) (ys : List Bool) :
    packBits (xs ++ ys) = packBits xs ++ packBits ys := by
  refine (eq_packBits ?_ fun i => ?_).symm
  · simp only [List.length_append, length_packBits]
    omega
  · have hlen : 8 * (packBits xs).length = xs.length := by
      rw [length_packBits]
      omega
    rw [bitAt_append, hlen, bitAt_packBits, bitAt_packBits]
    split
    · rw [List.getD_append _ _ _ _ ‹_›]
    · rw [List.getD_append_right _ _ _ _ (by omega)]

/-- A sequence followed by a bit that is set. -/
lemma getD_append_true (bits : List Bool) (i : Nat) :
    (bits ++ [true]).getD i false = (bits.getD i false || decide (i = bits.length)) := by
  rcases Nat.lt_trichotomy i bits.length with hlt | rfl | hgt
  · have hne : i ≠ bits.length := by omega
    rw [List.getD_append _ _ _ _ hlt, decide_eq_false hne, Bool.or_false]
  · simp
  · have hne : i ≠ bits.length := by omega
    have hend : (bits ++ [true]).length ≤ i := by
      rw [List.length_append, List.length_singleton]
      exact hgt
    rw [List.getD_eq_default _ _ hend, List.getD_eq_default _ _ hgt.le, decide_eq_false hne]
    rfl

/-- The bits before the highest one set, packed with that one. -/
lemma packBits_unpackBits_append {bytes : Bytes} {n : Nat} (hlen : bytes.length = n / 8 + 1)
    (hset : bitAt bytes n = true) (habove : ∀ i, n < i → bitAt bytes i = false) :
    packBits (unpackBits n bytes ++ [true]) = bytes := by
  have hbits := length_unpackBits n bytes
  symm
  apply eq_packBits
  · rw [hlen, List.length_append, hbits, List.length_singleton]
    omega
  · intro i
    rcases Nat.lt_trichotomy i n with hi | rfl | hi
    · have hi' : i < (unpackBits n bytes).length := by rwa [hbits]
      rw [List.getD_append _ _ _ _ hi', List.getD_eq_getElem _ _ hi']
      simp [unpackBits]
    · rw [hset, List.getD_append_right _ _ _ _ (le_of_eq hbits), hbits, Nat.sub_self,
        List.getD_cons_zero]
    · have hend : (unpackBits n bytes ++ [true]).length ≤ i := by
        rw [List.length_append, hbits, List.length_singleton]
        exact hi
      rw [habove i hi, List.getD_eq_default _ _ hend]

lemma packBits_of_length_le {bits : List Bool} (hpos : 0 < bits.length) (hle : bits.length ≤ 8) :
    packBits bits = [byteOfBits fun j => bits.getD j false] := by
  have hone : (bits.length + 7) / 8 = 1 := by omega
  simp [packBits, hone]

lemma bitAt_replicate_zero (n i : Nat) : bitAt (List.replicate n 0) i = false := by
  unfold bitAt
  rcases Nat.lt_or_ge (i / 8) n with h | h
  · simp [List.getD_eq_getElem?_getD, h]
  · rw [List.getD_eq_default _ _ (by simpa using h)]
    exact BitVec.getLsbD_zero

/-- Bits of two strings combined byte by byte. -/
lemma bitAt_zipWith_or {as bs : Bytes} (hlen : as.length = bs.length) (i : Nat) :
    bitAt (List.zipWith (· ||| ·) as bs) i = (bitAt as i || bitAt bs i) := by
  unfold bitAt
  rcases Nat.lt_or_ge (i / 8) as.length with h | h
  · have hb : i / 8 < bs.length := by omega
    simp [List.getD_eq_getElem?_getD, h, hb]
  · have hb : bs.length ≤ i / 8 := by omega
    simp [List.getD_eq_getElem?_getD, h, hb]

/-- Setting bits of one byte with a mask. -/
lemma bitAt_modify_or {bytes : Bytes} {k : Nat} (hk : k < bytes.length) (x : Byte) (i : Nat) :
    bitAt (bytes.modify k (· ||| x)) i = (bitAt bytes i || (decide (i / 8 = k) && x.getLsbD (i % 8))) := by
  unfold bitAt
  by_cases h : i / 8 = k
  · subst h
    simp [List.getD_eq_getElem?_getD, hk]
  · have hne : k ≠ i / 8 := fun hk => h hk.symm
    simp [List.getD_eq_getElem?_getD, h, hne]

end Sszpp.Library
