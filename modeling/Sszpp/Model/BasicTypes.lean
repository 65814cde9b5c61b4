import Sszpp.Model.Outcome
import Sszpp.Model.Types

/-!
# Basic types

The model is that of a little-endian host: an object of a basic type is represented by the
little-endian digits of its number.
-/

namespace Sszpp

open Library

namespace BasicType

/-- The object representation. -/
def toBytes (b : BasicType) (v : b.Val) : Bytes := leBytes b.sizeof (b.toNumber v)

/-- The object copied from the beginning of `bytes`. -/
def load (b : BasicType) (bytes : Bytes) : Outcome b.Val :=
  if bytes.length < b.sizeof then .error (.undefined .read)
  else if b = .boolean ∧ 1 < leNat (bytes.take b.sizeof) then .error (.undefined .boolValue)
  else .ok (b.ofNumber (leNat (bytes.take b.sizeof)))

/-- `serialize(result, i)` -/
def serializeInPlace (b : BasicType) (v : b.Val) (result : Nat) (buf : Bytes) : Outcome Bytes :=
  store result (b.toBytes v) buf

end BasicType

def notEnoughBytes : Stop := .thrown (.invalidArgument "not enough serialized bytes")

/-- `deserialize(bytes, bool &)` -/
def deserializeBool : Bytes → Outcome Bool
  | [] => .error notEnoughBytes
  | x :: _ =>
    if x = 0x00 then .ok false
    else if x = 0x01 then .ok true
    else .error (.thrown (.invalidArgument "not a valid serialization of bool"))

namespace BasicType

/-- `deserialize(bytes, T &)` -/
def deserialize (b : BasicType) (bytes : Bytes) : Outcome b.Val :=
  match b with
  | boolean => deserializeBool bytes
  | b => if bytes.length < b.sizeof then .error notEnoughBytes else b.load bytes

@[simp] lemma length_toBytes (b : BasicType) (v : b.Val) : (b.toBytes v).length = b.sizeof :=
  length_leBytes _ _

lemma leNat_toBytes (b : BasicType) (v : b.Val) : leNat (b.toBytes v) = b.toNumber v :=
  leNat_leBytes_of_lt (b.toNumber_lt v)

lemma toBytes_injective (b : BasicType) : Function.Injective b.toBytes := by
  intro v w h
  rw [← b.ofNumber_toNumber v, ← b.ofNumber_toNumber w, ← leNat_toBytes, h, leNat_toBytes]

lemma load_toBytes (b : BasicType) (v : b.Val) (rest : Bytes) :
    b.load (b.toBytes v ++ rest) = .ok v := by
  have hlen : ¬ (b.toBytes v ++ rest).length < b.sizeof := by simp
  have htake : (b.toBytes v ++ rest).take b.sizeof = b.toBytes v := List.take_left' (by simp)
  have hbool : ¬ (b = .boolean ∧ 1 < b.toNumber v) := by
    rintro ⟨rfl, h⟩
    cases v <;> exact absurd h (by decide)
  rw [load, if_neg hlen, htake, leNat_toBytes, if_neg hbool, ofNumber_toNumber]

lemma load_eq_ok {b : BasicType} {bytes : Bytes} {v : b.Val} (h : b.load bytes = .ok v) :
    b.sizeof ≤ bytes.length ∧ b.toBytes v = bytes.take b.sizeof := by
  unfold load at h
  split at h
  · cases h
  · rename_i hlen
    split at h
    · cases h
    · rename_i hbool
      have hle : b.sizeof ≤ bytes.length := by omega
      have htake : (bytes.take b.sizeof).length = b.sizeof := List.length_take_of_le hle
      have hlt : leNat (bytes.take b.sizeof) < 256 ^ b.sizeof := by
        simpa only [htake] using leNat_lt (bytes.take b.sizeof)
      cases h
      refine ⟨hle, ?_⟩
      rw [toBytes, toNumber_ofNumber b hlt (fun hb => by simpa [hb] using hbool)]
      exact leBytes_eq_of_leNat_eq htake rfl

lemma deserialize_of_ne {b : BasicType} (hb : b ≠ .boolean) (bytes : Bytes) :
    b.deserialize bytes =
      if bytes.length < b.sizeof then .error notEnoughBytes else b.load bytes := by
  cases b <;> first | rfl | exact absurd rfl hb

lemma deserialize_toBytes (b : BasicType) (v : b.Val) (rest : Bytes) :
    b.deserialize (b.toBytes v ++ rest) = .ok v := by
  by_cases hb : b = .boolean
  · subst hb
    cases v <;> rfl
  · have hlen : ¬ (b.toBytes v ++ rest).length < b.sizeof := by simp
    rw [deserialize_of_ne hb, if_neg hlen, load_toBytes]

lemma deserialize_eq_ok {b : BasicType} {bytes : Bytes} {v : b.Val}
    (h : b.deserialize bytes = .ok v) :
    b.sizeof ≤ bytes.length ∧ b.toBytes v = bytes.take b.sizeof := by
  by_cases hb : b = .boolean
  · subst hb
    cases bytes with
    | nil => cases h
    | cons x xs =>
      change deserializeBool (x :: xs) = .ok v at h
      simp only [deserializeBool] at h
      refine ⟨by simp [sizeof], ?_⟩
      split at h
      · rename_i hx
        cases h
        simp [hx, toBytes, sizeof, toNumber, leBytes]
      · split at h
        · rename_i hx
          cases h
          simp [hx, toBytes, sizeof, toNumber, leBytes]
        · cases h
  · rw [deserialize_of_ne hb] at h
    split at h
    · cases h
    · exact load_eq_ok h

end BasicType

/-- What `basic_type<T>` gives the overloads for contiguous ranges of `T`: an object
representation of one width and the copy that reads it back. -/
structure BasicLayout (α : Type) where
  sizeof : Nat
  toBytes : α → Bytes
  load : Bytes → Outcome α
  sizeof_pos : 0 < sizeof
  length_toBytes : ∀ v, (toBytes v).length = sizeof
  load_toBytes : ∀ v rest, load (toBytes v ++ rest) = .ok v
  toBytes_of_load : ∀ {bytes v}, load bytes = .ok v →
    sizeof ≤ bytes.length ∧ toBytes v = bytes.take sizeof

def BasicType.layout (b : BasicType) : BasicLayout b.Val where
  sizeof := b.sizeof
  toBytes := b.toBytes
  load := b.load
  sizeof_pos := b.sizeof_pos
  length_toBytes := b.length_toBytes
  load_toBytes := b.load_toBytes
  toBytes_of_load := BasicType.load_eq_ok

/-- `basic_type<T>` -/
def SszType.basicLayout {α : Type} : SszType α → Option (BasicLayout α)
  | .basic b => some b.layout
  | _ => none

end Sszpp
