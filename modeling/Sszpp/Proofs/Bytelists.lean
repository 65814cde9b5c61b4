import Sszpp.Library.Hexadecimal
import Sszpp.Model.Bytelists

/-!
# Hexadecimal strings

The parser checks the prefix, the parity and the length of a string, not its characters: the table
gives 0 for those that are no digits, and it has no entry for those from `0x80` on.
-/

namespace Sszpp

open Library

/-! ### The table -/

/-- Every character below `0x80` has a value. -/
lemma hexToByte_eq : ∀ c : Byte, hexToByte c =
    if c.toNat < 128 then .ok (if IsHexDigit c then digitValue c else 0) else .error (.undefined .read) :=
  Byte.forall_of_lt (by decide +kernel)

lemma hexToByte_of_digit {c : Byte} (h : IsHexDigit c) : hexToByte c = .ok (digitValue c) := by
  have hlt : c.toNat < 128 := by
    unfold IsHexDigit at h
    omega
  rw [hexToByte_eq, if_pos hlt, if_pos h]

lemma hexToByte_ne_thrown (c : Byte) (e : Exception) : hexToByte c ≠ .error (.thrown e) := by
  rw [hexToByte_eq]
  split <;> exact nofun

lemma characterAt_digitsOfByte : ∀ b : Byte, characterAt (b >>> 4) = .ok (hexDigit (b >>> 4)) ∧
    characterAt (b &&& 0x0f) = .ok (hexDigit (b &&& 0x0f)) :=
  Byte.forall_of_lt (by decide +kernel)

/-! ### Parsing -/

/-- The strings that pass the checks of the parser into `n` bytes. -/
structure Sanitized (n : Nat) (str : List Byte) : Prop where
  prefixed : str.take 2 = hexPrefix
  even : str.length % 2 = 0
  fits : str.length ≤ 2 * n + 2

/-- `0x`, then pairs of hexadecimal digits for at most `n` bytes. -/
structure HexString (n : Nat) (str : List Byte) : Prop extends Sanitized n str where
  digits : ∀ c ∈ str.drop 2, IsHexDigit c

lemma Sanitized.two_le {n : Nat} {str : List Byte} (h : Sanitized n str) : 2 ≤ str.length := by
  have hlen := congrArg List.length h.prefixed
  rw [List.length_take] at hlen
  simp only [hexPrefix, List.length_cons, List.length_nil] at hlen
  omega

lemma Sanitized.even_drop {n : Nat} {str : List Byte} (h : Sanitized n str) :
    (str.drop 2).length % 2 = 0 := by
  have hle := h.two_le
  have heven := h.even
  rw [List.length_drop]
  omega

lemma Sanitized.bytelistFromStr_eq {str : List Byte} {r : Bytes} (h : Sanitized r.length str) :
    bytelistFromStr str r = transformInto chunkToByte (pieces 2 (str.drop 2)) r := by
  have heven := h.even
  have hodd : ¬ str.length % 2 = 1 := by omega
  have hfits : ¬ 2 * r.length + 2 < str.length := by
    have hle := h.fits
    omega
  rw [bytelistFromStr, sanitizeHextring, if_neg (not_not_intro h.prefixed), if_neg hodd,
    Outcome.ok_bind, if_neg hfits]

lemma bytelistFromStr_throws {str : List Byte} {r : Bytes} (h : ¬ Sanitized r.length str) :
    ∃ e, bytelistFromStr str r = .error (.thrown e) := by
  unfold bytelistFromStr sanitizeHextring
  split
  · exact ⟨_, rfl⟩
  · rename_i hprefix
    split
    · exact ⟨_, rfl⟩
    · rename_i heven
      rw [Outcome.ok_bind]
      split
      · exact ⟨_, rfl⟩
      · rename_i hfits
        exact absurd ⟨not_not.mp hprefix, by omega, by omega⟩ h

lemma pieces_two (high low : Byte) (digits : List Byte) :
    pieces 2 (high :: low :: digits) = [high, low] :: pieces 2 digits := by
  have hlen : [high, low].length = 2 := rfl
  exact pieces_append (by decide) hlen

/-- Digits fill the beginning of the destination. -/
lemma transformInto_digits {digits : List Byte} (heven : digits.length % 2 = 0)
    (h : ∀ c ∈ digits, IsHexDigit c) {r : Bytes} (hfits : digits.length ≤ 2 * r.length) :
    transformInto chunkToByte (pieces 2 digits) r =
      .ok (hexBytes digits ++ r.drop (digits.length / 2)) := by
  induction digits using hexBytes.induct generalizing r with
  | case1 high low digits ih =>
    simp only [List.length_cons] at heven hfits
    cases r with
    | nil => simp at hfits
    | cons b r =>
      have hrest := ih (r := r) (by omega)
        (fun c hc => h c (List.mem_cons_of_mem _ (List.mem_cons_of_mem _ hc)))
        (by rw [List.length_cons] at hfits; omega)
      have hchunk : chunkToByte [high, low] = .ok (byteOfDigits high low) := by
        rw [chunkToByte, hexToByte_of_digit (h high (by simp)), hexToByte_of_digit (h low (by simp))]
        rfl
      have hhalf : (high :: low :: digits).length / 2 = digits.length / 2 + 1 := by
        simp only [List.length_cons]
        omega
      rw [pieces_two, transformInto, hchunk, Outcome.ok_bind, hrest, Outcome.ok_bind, hexBytes, hhalf,
        List.drop_succ_cons, List.cons_append]
  | case2 digits hpairs =>
    rcases digits with _ | ⟨c, _ | ⟨d, ds⟩⟩
    · rw [pieces_nil]
      rfl
    · simp at heven
    · exact absurd rfl (hpairs c d ds)

/-- No character makes the parser throw. -/
lemma chunkToByte_ne_thrown (chunk : List Byte) (e : Exception) : chunkToByte chunk ≠ .error (.thrown e) := by
  unfold chunkToByte
  split
  · rename_i first second
    apply Outcome.bind_ne_thrown (hexToByte_ne_thrown first e)
    intro high
    apply Outcome.bind_ne_thrown (hexToByte_ne_thrown second e)
    intro low
    exact nofun
  · exact nofun

lemma transformInto_ne_thrown (chunks : List (List Byte)) (r : Bytes) (e : Exception) :
    transformInto chunkToByte chunks r ≠ .error (.thrown e) := by
  induction chunks generalizing r with
  | nil => exact nofun
  | cons chunk chunks ih =>
    cases r with
    | nil => exact nofun
    | cons b r =>
      rw [transformInto]
      apply Outcome.bind_ne_thrown (chunkToByte_ne_thrown chunk e)
      intro value
      apply Outcome.bind_ne_thrown (ih r)
      intro rest
      exact nofun

/-- A hexadecimal string is parsed into the beginning of `r`, all other strings are rejected. -/
def ParsesHex (str : List Byte) (r : Bytes) : Prop :=
  (HexString r.length str → bytelistFromStr str r =
      .ok (hexBytes (str.drop 2) ++ r.drop ((str.length - 2) / 2))) ∧
    (¬ HexString r.length str → ∃ e, bytelistFromStr str r = .error (.thrown e))

lemma HexString.bytelistFromStr_eq {str : List Byte} {r : Bytes} (h : HexString r.length str) :
    bytelistFromStr str r = .ok (hexBytes (str.drop 2) ++ r.drop ((str.length - 2) / 2)) := by
  have hfits : (str.drop 2).length ≤ 2 * r.length := by
    have hle := h.fits
    rw [List.length_drop]
    omega
  rw [h.toSanitized.bytelistFromStr_eq, transformInto_digits h.even_drop h.digits hfits, List.length_drop]

/-- The parser accepts the hexadecimal strings alone exactly where a string that passes its checks is
made of digits. -/
theorem parsesHex_iff (str : List Byte) (r : Bytes) :
    ParsesHex str r ↔ (Sanitized r.length str → ∀ c ∈ str.drop 2, IsHexDigit c) := by
  constructor
  · intro hparses hsanitized
    by_contra hdigits
    obtain ⟨e, he⟩ := hparses.2 fun hhex => hdigits hhex.digits
    rw [hsanitized.bytelistFromStr_eq] at he
    exact transformInto_ne_thrown _ r e he
  · intro h
    refine ⟨fun hhex => hhex.bytelistFromStr_eq, fun hhex => bytelistFromStr_throws fun hsanitized => ?_⟩
    exact hhex ⟨hsanitized, h hsanitized⟩

/-- `"0xzz"` is parsed to a zero byte, and a character above `0x7f` is looked up beyond the table. -/
theorem parsesHex_fails :
    bytelistFromStr (hexPrefix ++ [charCode 'z', charCode 'z']) [0xff] = .ok [0] ∧
      bytelistFromStr (hexPrefix ++ [0x80, charCode '0']) [0xff] = .error (.undefined .read) ∧
      ¬ ParsesHex (hexPrefix ++ [charCode 'z', charCode 'z']) [0xff] ∧
      ¬ ParsesHex (hexPrefix ++ [0x80, charCode '0']) [0xff] := by
  have hletters : bytelistFromStr (hexPrefix ++ [charCode 'z', charCode 'z']) [0xff] = .ok [0] := by
    decide +kernel
  have hhigh : bytelistFromStr (hexPrefix ++ [0x80, charCode '0']) [0xff] = .error (.undefined .read) := by
    decide +kernel
  refine ⟨hletters, hhigh, fun hparses => ?_, fun hparses => ?_⟩
  · obtain ⟨e, he⟩ := hparses.2 fun hhex => absurd (hhex.digits (charCode 'z') (by decide)) (by decide)
    cases hletters.symm.trans he
  · obtain ⟨e, he⟩ := hparses.2 fun hhex => absurd (hhex.digits 0x80 (by decide)) (by decide)
    cases hhigh.symm.trans he

/-! ### Printing -/

/-- Two characters stored one after the other. -/
lemma store_two (pre post : List Byte) (high low : Byte) :
    store pre.length [high] (pre ++ zeros 2 ++ post) = .ok (pre ++ [high] ++ zeros 1 ++ post) ∧
      store (pre.length + 1) [low] (pre ++ [high] ++ zeros 1 ++ post) = .ok (pre ++ [high, low] ++ post) := by
  have hzeros : pre ++ zeros 2 ++ post = pre ++ zeros 1 ++ (zeros 1 ++ post) := by
    rw [List.append_assoc, List.append_assoc]
    rfl
  constructor
  · rw [hzeros, List.append_assoc (pre ++ [high])]
    exact store_append rfl rfl
  · have hpair : pre ++ [high, low] ++ post = pre ++ [high] ++ [low] ++ post := by simp
    rw [hpair]
    exact store_append (by simp) rfl

lemma toStringLoop_eq (bytes : Bytes) (pre : List Byte) :
    toStringLoop pre.length bytes (pre ++ zeros (bytes.length * 2)) = .ok (pre ++ hexDigits bytes) := by
  induction bytes generalizing pre with
  | nil => rfl
  | cons b bs ih =>
    obtain ⟨hhigh, hlow⟩ := characterAt_digitsOfByte b
    obtain ⟨hfirst, hsecond⟩ := store_two pre (zeros (bs.length * 2)) (hexDigit (b >>> 4)) (hexDigit (b &&& 0x0f))
    have hsplit : pre ++ zeros ((b :: bs).length * 2) = pre ++ zeros 2 ++ zeros (bs.length * 2) := by
      rw [List.length_cons, List.append_assoc, ← zeros_add]
      congr 2
      omega
    have hrest := ih (pre ++ [hexDigit (b >>> 4), hexDigit (b &&& 0x0f)])
    rw [List.length_append] at hrest
    rw [hsplit, toStringLoop, hhigh, Outcome.ok_bind, hfirst, Outcome.ok_bind, hlow, Outcome.ok_bind,
      hsecond, Outcome.ok_bind]
    simpa [hexDigits, digitsOfByte] using hrest

lemma bytelistToString_eq (arr : Bytes) : bytelistToString arr = .ok (hexPrefix ++ hexDigits arr) := by
  obtain ⟨hfirst, hsecond⟩ := store_two [] (zeros (arr.length * 2)) (charCode '0') (charCode 'x')
  have hzeros : zeros (arr.length * 2 + 2) = [] ++ zeros 2 ++ zeros (arr.length * 2) := by
    rw [List.nil_append, ← zeros_add, Nat.add_comm]
  rw [List.length_nil] at hfirst hsecond
  rw [bytelistToString, hzeros, hfirst, Outcome.ok_bind, hsecond, Outcome.ok_bind]
  exact toStringLoop_eq arr hexPrefix

lemma hexString_append {n : Nat} {digits : List Byte} (heven : digits.length % 2 = 0)
    (h : ∀ c ∈ digits, IsHexDigit c) (hfits : digits.length ≤ 2 * n) : HexString n (hexPrefix ++ digits) := by
  have hlen : (hexPrefix ++ digits).length = digits.length + 2 := by
    rw [List.length_append, Nat.add_comm]
    rfl
  exact ⟨⟨rfl, by omega, by omega⟩, h⟩

/-- Parsing digits for as many bytes as `r` has. -/
lemma bytelistFromStr_append {digits : List Byte} (heven : digits.length % 2 = 0)
    (h : ∀ c ∈ digits, IsHexDigit c) {r : Bytes} (hr : r.length = digits.length / 2) :
    bytelistFromStr (hexPrefix ++ digits) r = .ok (hexBytes digits) := by
  have hlen : ((hexPrefix ++ digits).length - 2) / 2 = r.length := by
    rw [hr, List.length_append, Nat.add_comm]
    rfl
  rw [(hexString_append heven h (by omega)).bytelistFromStr_eq, hlen, List.drop_length, List.append_nil]
  rfl

/-- Parsing inverts printing, and printing gives back the digits of a parsed string in lower case. -/
theorem hexString_roundTrip :
    (∀ b r : Bytes, r.length = b.length →
      (bytelistToString b >>= fun str => bytelistFromStr str r) = .ok b) ∧
      ∀ (digits : List Byte) (r : Bytes), digits.length % 2 = 0 → (∀ c ∈ digits, IsHexDigit c) →
        r.length = digits.length / 2 → (bytelistFromStr (hexPrefix ++ digits) r >>= bytelistToString) =
          .ok (hexPrefix ++ digits.map lowerDigit) := by
  constructor
  · intro b r hr
    have hlen := length_hexDigits b
    rw [bytelistToString_eq, Outcome.ok_bind, bytelistFromStr_append (by omega)
      (fun c hc => isHexDigit_hexDigits hc) (by omega), hexBytes_hexDigits]
  · intro digits r heven hdigits hr
    rw [bytelistFromStr_append heven hdigits hr, Outcome.ok_bind, bytelistToString_eq,
      hexDigits_hexBytes heven hdigits]

theorem hexString_roundTrip_sample :
    (bytelistToString [0xff, 0x21] >>= fun str => bytelistFromStr str [0, 0]) = .ok [0xff, 0x21] ∧
      (bytelistFromStr (hexPrefix ++ [charCode 'F', charCode 'f']) [0] >>= bytelistToString) =
        .ok (hexPrefix ++ [charCode 'F', charCode 'f'].map lowerDigit) :=
  ⟨hexString_roundTrip.1 [0xff, 0x21] [0, 0] rfl,
    hexString_roundTrip.2 [charCode 'F', charCode 'f'] [0] rfl (by decide) rfl⟩

end Sszpp
