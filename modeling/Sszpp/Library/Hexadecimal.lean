import Mathlib.Data.List.Basic
import Sszpp.Library.LittleEndian

/-!
# Hexadecimal digits

Characters are bytes. Two digits spell a byte, the high one first; the letters of a spelling may be
of either case, those that are printed are lower-case.
-/

namespace Sszpp.Library

def IsHexDigit (c : Byte) : Prop :=
  (48 ≤ c.toNat ∧ c.toNat ≤ 57) ∨ (65 ≤ c.toNat ∧ c.toNat ≤ 70) ∨ (97 ≤ c.toNat ∧ c.toNat ≤ 102)

instance (c : Byte) : Decidable (IsHexDigit c) := inferInstanceAs (Decidable (_ ∨ _))

/-- The value of a digit. -/
def digitValue (c : Byte) : Byte :=
  if c.toNat ≤ 57 then c - 48 else if c.toNat ≤ 70 then c - 55 else c - 87

/-- The lower-case digit of a value below 16. -/
def hexDigit (v : Byte) : Byte := if v.toNat < 10 then v + 48 else v + 87

def lowerDigit (c : Byte) : Byte := if 65 ≤ c.toNat ∧ c.toNat ≤ 70 then c + 32 else c

/-- The byte that two digits spell. -/
def byteOfDigits (high low : Byte) : Byte := digitValue high <<< 4 ||| digitValue low

/-- The bytes that the pairs of digits spell. -/
def hexBytes : List Byte → Bytes
  | high :: low :: digits => byteOfDigits high low :: hexBytes digits
  | _ => []

/-- The two digits of a byte. -/
def digitsOfByte (b : Byte) : List Byte := [hexDigit (b >>> 4), hexDigit (b &&& 0x0f)]

def hexDigits (bytes : Bytes) : List Byte := bytes.flatMap digitsOfByte

/-! ### One digit -/

lemma Byte.forall_of_lt {p : Byte → Prop} (h : ∀ n < 256, p (BitVec.ofNat 8 n)) (b : Byte) : p b := by
  have hb := h b.toNat b.isLt
  rwa [BitVec.ofNat_toNat, BitVec.setWidth_eq] at hb

lemma digitValue_lt : ∀ c : Byte, IsHexDigit c → (digitValue c).toNat < 16 :=
  Byte.forall_of_lt (by decide +kernel)

lemma hexDigit_digitValue : ∀ c : Byte, IsHexDigit c → hexDigit (digitValue c) = lowerDigit c :=
  Byte.forall_of_lt (by decide +kernel)

lemma isHexDigit_digitsOfByte :
    ∀ b : Byte, IsHexDigit (hexDigit (b >>> 4)) ∧ IsHexDigit (hexDigit (b &&& 0x0f)) :=
  Byte.forall_of_lt (by decide +kernel)

/-! ### Pairs of digits -/

lemma byteOfDigits_digitsOfByte :
    ∀ b : Byte, byteOfDigits (hexDigit (b >>> 4)) (hexDigit (b &&& 0x0f)) = b :=
  Byte.forall_of_lt (by decide +kernel)

lemma digitsOfByte_byteOfDigits {high low : Byte} (hhigh : IsHexDigit high) (hlow : IsHexDigit low) :
    digitsOfByte (byteOfDigits high low) = [lowerDigit high, lowerDigit low] := by
  have hall : ∀ h < 16, ∀ l < 16,
      ((BitVec.ofNat 8 h <<< 4 ||| BitVec.ofNat 8 l) >>> 4 = BitVec.ofNat 8 h) ∧
        (BitVec.ofNat 8 h <<< 4 ||| BitVec.ofNat 8 l) &&& 0x0f = BitVec.ofNat 8 l := by decide +kernel
  obtain ⟨hshift, hmask⟩ := hall _ (digitValue_lt _ hhigh) _ (digitValue_lt _ hlow)
  simp only [BitVec.ofNat_toNat, BitVec.setWidth_eq] at hshift hmask
  rw [digitsOfByte, byteOfDigits, hshift, hmask, hexDigit_digitValue _ hhigh,
    hexDigit_digitValue _ hlow]

lemma length_hexDigits (bytes : Bytes) : (hexDigits bytes).length = 2 * bytes.length := by
  induction bytes with
  | nil => rfl
  | cons b bs ih =>
    rw [hexDigits, List.flatMap_cons, List.length_append, ← hexDigits, ih, digitsOfByte, List.length_cons]
    simp only [List.length_cons, List.length_nil]
    omega

lemma isHexDigit_hexDigits {bytes : Bytes} {c : Byte} (h : c ∈ hexDigits bytes) : IsHexDigit c := by
  obtain ⟨b, -, hc⟩ := List.mem_flatMap.mp h
  obtain ⟨hhigh, hlow⟩ := isHexDigit_digitsOfByte b
  simp only [digitsOfByte, List.mem_cons, List.not_mem_nil, or_false] at hc
  rcases hc with rfl | rfl
  · exact hhigh
  · exact hlow

lemma length_hexBytes {digits : List Byte} (heven : digits.length % 2 = 0) :
    (hexBytes digits).length = digits.length / 2 := by
  induction digits using hexBytes.induct with
  | case1 high low digits ih =>
    simp only [List.length_cons] at heven ⊢
    rw [hexBytes, List.length_cons, ih (by omega)]
    omega
  | case2 digits hshort =>
    match digits, hshort with
    | [], _ => rfl
    | [d], _ => cases heven
    | high :: low :: rest, h => exact absurd rfl (h high low rest)

/-- The digits of a byte string spell it. -/
theorem hexBytes_hexDigits (bytes : Bytes) : hexBytes (hexDigits bytes) = bytes := by
  induction bytes with
  | nil => rfl
  | cons b bs ih =>
    change byteOfDigits (hexDigit (b >>> 4)) (hexDigit (b &&& 0x0f)) :: hexBytes (hexDigits bs) = b :: bs
    rw [byteOfDigits_digitsOfByte, ih]

/-- A spelling of whole bytes is printed in lower case. -/
theorem hexDigits_hexBytes {digits : List Byte} (heven : digits.length % 2 = 0)
    (h : ∀ c ∈ digits, IsHexDigit c) : hexDigits (hexBytes digits) = digits.map lowerDigit := by
  induction digits using hexBytes.induct with
  | case1 high low digits ih =>
    have hrest := ih (by simp only [List.length_cons] at heven; omega)
      (fun c hc => h c (List.mem_cons_of_mem _ (List.mem_cons_of_mem _ hc)))
    rw [hexBytes, hexDigits, List.flatMap_cons, ← hexDigits, hrest,
      digitsOfByte_byteOfDigits (h high (by simp)) (h low (by simp))]
    rfl
  | case2 digits hpairs =>
    rcases digits with _ | ⟨c, _ | ⟨d, ds⟩⟩
    · rfl
    · simp at heven
    · exact absurd rfl (hpairs c d ds)

end Sszpp.Library
