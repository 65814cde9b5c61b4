import Sszpp.Library.LittleEndian

/-!
# The types of the library

`SszType α` is a type expression of the library whose objects are the elements of `α`. The
members of an `SSZ_CONT` list are a parameter pack, `Members α`, with `α` the product of the
types of their objects.
-/

namespace Sszpp

open Library

/-- The alternatives of `basic_type`. -/
inductive BasicType
  | uint8 | uint16 | uint32 | uint64 | boolean | byte | uint256
  deriving DecidableEq

/-- `std::array<T, N>`, and `std::bitset<N>` for `T = bool`. -/
abbrev StdArray (α : Type) (n : Nat) : Type := {l : List α // l.length = n}

namespace BasicType

def Val : BasicType → Type
  | uint8 => BitVec 8
  | uint16 => BitVec 16
  | uint32 => BitVec 32
  | uint64 => BitVec 64
  | boolean => Bool
  | byte => BitVec 8
  | uint256 => BitVec 256

def sizeof : BasicType → Nat
  | uint8 => 1
  | uint16 => 2
  | uint32 => 4
  | uint64 => 8
  | boolean => 1
  | byte => 1
  | uint256 => 32

lemma sizeof_pos (b : BasicType) : 0 < b.sizeof := by cases b <;> decide

/-- The value initialised object. -/
def vac : (b : BasicType) → b.Val
  | uint8 => (0 : BitVec 8)
  | uint16 => (0 : BitVec 16)
  | uint32 => (0 : BitVec 32)
  | uint64 => (0 : BitVec 64)
  | boolean => false
  | byte => (0 : BitVec 8)
  | uint256 => (0 : BitVec 256)

/-- The number whose little-endian digits are the object representation. -/
def toNumber : (b : BasicType) → b.Val → Nat
  | uint8, v => BitVec.toNat v
  | uint16, v => BitVec.toNat v
  | uint32, v => BitVec.toNat v
  | uint64, v => BitVec.toNat v
  | boolean, v => Bool.toNat v
  | byte, v => BitVec.toNat v
  | uint256, v => BitVec.toNat v

def ofNumber : (b : BasicType) → Nat → b.Val
  | uint8, n => BitVec.ofNat 8 n
  | uint16, n => BitVec.ofNat 16 n
  | uint32, n => BitVec.ofNat 32 n
  | uint64, n => BitVec.ofNat 64 n
  | boolean, n => decide (n = 1)
  | byte, n => BitVec.ofNat 8 n
  | uint256, n => BitVec.ofNat 256 n

instance (b : BasicType) (n : Nat) : OfNat b.Val n := ⟨b.ofNumber n⟩

lemma toNumber_lt (b : BasicType) (v : b.Val) : b.toNumber v < 256 ^ b.sizeof := by
  cases b with
  | boolean => cases v <;> decide
  | _ => exact BitVec.isLt v

lemma ofNumber_toNumber (b : BasicType) (v : b.Val) : b.ofNumber (b.toNumber v) = v := by
  cases b with
  | boolean => cases v <;> rfl
  | _ =>
    apply BitVec.eq_of_toNat_eq
    exact (BitVec.toNat_ofNat _ _).trans (Nat.mod_eq_of_lt (BitVec.isLt _))

/-- For `bool` only the numbers 0 and 1 represent an object. -/
lemma toNumber_ofNumber (b : BasicType) {n : Nat} (hn : n < 256 ^ b.sizeof)
    (hbool : b = boolean → n ≤ 1) : b.toNumber (b.ofNumber n) = n := by
  cases b with
  | boolean => rcases Nat.le_one_iff_eq_zero_or_eq_one.mp (hbool rfl) with rfl | rfl <;> rfl
  | _ => exact (BitVec.toNat_ofNat _ _).trans (Nat.mod_eq_of_lt hn)

end BasicType

mutual

/-- The type expressions. A container carries the base class it derives from:
`variableSize` for `ssz_variable_size_container`, else `ssz_container`. -/
inductive SszType : Type → Type 1
  | basic (b : BasicType) : SszType b.Val
  | array {α : Type} (e : SszType α) (n : Nat) : SszType (StdArray α n)
  | vector {α : Type} (e : SszType α) : SszType (List α)
  | list {α : Type} (e : SszType α) (limit : Nat) : SszType (List α)
  | bitlist (limit : Nat) : SszType (List Bool)
  | bitset (n : Nat) : SszType (StdArray Bool n)
  | container {α : Type} (variableSize : Bool) (ms : Members α) : SszType α

inductive Members : Type → Type 1
  | nil : Members Unit
  | cons {α β : Type} (m : SszType α) (ms : Members β) : Members (α × β)

end

/-- `sizeof...(members)` -/
def Members.count {α : Type} : Members α → Nat
  | .nil => 0
  | .cons _ ms => ms.count + 1

/-- `ssz_object_variable_size`: the type has a nested type `variable_size`. -/
def SszType.variableSize {α : Type} : SszType α → Bool
  | .list _ _ => true
  | .bitlist _ => true
  | .container variableSize _ => variableSize
  | _ => false

mutual

/-- The object `T{}`. -/
def SszType.vac {α : Type} : SszType α → α
  | .basic b => b.vac
  | .array e n => ⟨List.replicate n e.vac, List.length_replicate⟩
  | .vector _ => []
  | .list _ _ => []
  | .bitlist _ => []
  | .bitset n => ⟨List.replicate n false, List.length_replicate⟩
  | .container _ ms => ms.vac

def Members.vac {α : Type} : Members α → α
  | .nil => ()
  | .cons m ms => (m.vac, ms.vac)

end

end Sszpp
