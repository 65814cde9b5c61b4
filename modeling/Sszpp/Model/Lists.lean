import Sszpp.Library.BitPacking
import Sszpp.Model.BasicTypes

/-!
# Lists, vectors and bit sequences

The overloads for ranges, as functions of what they call on an element: its size, its in-place
encoder and its decoder. A `size_t` is a natural number; a `uint32_t` is reduced modulo `2 ^ 32`
where the source computes with it.
-/

namespace Sszpp

open Library

def BYTES_PER_LENGTH_OFFSET : Nat := 4

section Size

variable {α : Type}

/-- `size` of a range of fixed-size objects. -/
def sizeOfFixed (size : α → Nat) : List α → Nat
  | [] => 0
  | v :: vs => (vs.length + 1) * size v

/-- `size` of a range of variable-size objects. -/
def sizeOfVariable (size : α → Nat) (r : List α) : Nat :=
  r.foldl (fun n m => n + BYTES_PER_LENGTH_OFFSET + size m) 0

/-- `total_size` of the returning `serialize`: the accumulator of the fold is a `size_t`, its
first parameter a `uint32_t`. -/
def totalSize (size : α → Nat) (r : List α) : Nat :=
  r.foldl (fun total val => (total % 2 ^ 32 + BYTES_PER_LENGTH_OFFSET) % 2 ^ 32 + size val) 0

/-- `size` of a `std::vector<bool>`. -/
def sizeVectorBool (r : List Bool) : Nat := (r.length + 7) / 8

end Size

/-! ### Serialization in place -/

section Serialize

variable {α : Type}

/-- Contiguous lists of basic types. -/
def serializeBasicRange (toBytes : α → Bytes) (result : Nat) (r : List α) (buf : Bytes) :
    Outcome Bytes :=
  if r = [] then .ok buf else store result (r.flatMap toBytes) buf

/-- The loop over the elements of variable size from index `idx` on. -/
def serializeVariableLoop (serialize : α → Nat → Bytes → Outcome Bytes) (size : α → Nat)
    (result : Nat) : Nat → Nat → List α → Bytes → Outcome Bytes
  | _, _, [], buf => .ok buf
  | idx, data, v :: vs, buf => do
    let buf ← store (result + idx * BYTES_PER_LENGTH_OFFSET) (leBytes 4 ((data - result) % 2 ^ 32)) buf
    let buf ← serialize v data buf
    serializeVariableLoop serialize size result (idx + 1) (data + size v) vs buf

/-- Lists of variable-size objects. -/
def serializeVariableRange (serialize : α → Nat → Bytes → Outcome Bytes) (size : α → Nat)
    (result : Nat) (r : List α) (buf : Bytes) : Outcome Bytes :=
  serializeVariableLoop serialize size result 0 (result + r.length * BYTES_PER_LENGTH_OFFSET) r buf

/-- Lists of fixed-size objects that are not basic. -/
def serializeFixedRange (serialize : α → Nat → Bytes → Outcome Bytes) (size : α → Nat) :
    Nat → List α → Bytes → Outcome Bytes
  | _, [], buf => .ok buf
  | result, v :: vs, buf => do
    let buf ← serialize v result buf
    serializeFixedRange serialize size (result + size v) vs buf

/-- `std::byte{b}` -/
def byteOfBool (b : Bool) : Byte := if b then 1 else 0

def eightBitsToByte (chunk : List Bool) : Byte :=
  chunk.foldr (fun i b => b <<< 1 ||| byteOfBool i) 0

def serializeBitvector (result : Nat) (r : List Bool) (buf : Bytes) : Outcome Bytes :=
  store result ((pieces 8 r).map eightBitsToByte) buf

def serializeBitlist (result : Nat) (r : List Bool) (buf : Bytes) : Outcome Bytes := do
  let buf ← serializeBitvector result r buf
  orByte (result + r.length / 8) ((1 : Byte) <<< (r.length % 8)) buf

/-- The returning `serialize` of a `std::vector<bool>`: the buffer is that of a bitlist, the bits are
written as those of a bitvector. -/
def serializeVectorBool (r : List Bool) : Outcome Bytes :=
  serializeBitvector 0 r (zeros (r.length / 8 + 1))

/-- The loop of the bitset encoder from bit `i` on. -/
def serializeBitset (result : Nat) : Nat → List Bool → Bytes → Outcome Bytes
  | _, [], buf => .ok buf
  | i, b :: bs, buf => do
    let buf ← orByte (result + i / 8) (byteOfBool b <<< (i % 8)) buf
    serializeBitset result (i + 1) bs buf

end Serialize

/-! ### Deserialization -/

section Deserialize

variable {α : Type}

/-- `__deserialize`: copies `length` objects of a basic type. -/
def deserializeCopy (layout : BasicLayout α) : (length : Nat) → Bytes → Outcome (StdArray α length)
  | 0, _ => .ok ⟨[], rfl⟩
  | n + 1, bytes => do
    let v ← layout.load bytes
    let vs ← deserializeCopy layout n (bytes.drop layout.sizeof)
    .ok ⟨v :: vs.1, by rw [List.length_cons, vs.2]⟩

def vectorLength (vacSize : Nat) (bytes : Bytes) : Outcome Nat :=
  if vacSize = 0 then .error (.undefined .division)
  else if bytes.length % vacSize ≠ 0 then
    .error (.thrown (.invalidArgument "not a multiple of the basic type size"))
  else .ok (bytes.length / vacSize)

/-- `std::vector<T>` of a basic type. -/
def deserializeBasicVector (layout : BasicLayout α) (bytes : Bytes) : Outcome (List α) := do
  let quot ← vectorLength layout.sizeof bytes
  let ret ← deserializeCopy layout quot bytes
  .ok ret.1

/-- `std::array<T, N>` of a basic type. -/
def deserializeBasicArray (layout : BasicLayout α) (n : Nat) (bytes : Bytes) :
    Outcome (StdArray α n) :=
  if bytes.length < layout.sizeof * n then
    .error (.thrown (.invalidArgument "not enough bytes to deserialize vector"))
  else deserializeCopy layout n bytes

/-- `__deserialize_chunked` over the chunks of the input: writes the objects of `ret` in order. -/
def deserializeChunks (deserialize : Bytes → α → Outcome α) :
    List Bytes → (ret : List α) → Outcome (StdArray α ret.length)
  | [], ret => .ok ⟨ret, rfl⟩
  | _ :: _, [] => .error (.undefined .elementWrite)
  | chunk :: chunks, r :: ret => do
    let v ← (deserialize chunk r).nested
    let vs ← deserializeChunks deserialize chunks ret
    .ok ⟨v :: vs.1, by rw [List.length_cons, vs.2, List.length_cons]⟩

def deserializeChunked (deserialize : Bytes → α → Outcome α) (chunkSize : Nat) (bytes : Bytes)
    (ret : List α) : Outcome (StdArray α ret.length) :=
  if chunkSize = 0 then .error (.undefined .division)
  else deserializeChunks deserialize (pieces chunkSize bytes) ret

/-- `std::vector<T>` of a fixed-size type that is not basic. -/
def deserializeFixedVector (deserialize : Bytes → α → Outcome α) (vac : α) (vacSize : Nat)
    (bytes : Bytes) : Outcome (List α) := do
  let quot ← vectorLength vacSize bytes
  let ret ← deserializeChunked deserialize vacSize bytes (List.replicate quot vac)
  .ok ret.1

/-- `std::array<T, N>` of a fixed-size type that is not basic. -/
def deserializeFixedArray (deserialize : Bytes → α → Outcome α) (vacSize : Nat) {n : Nat}
    (bytes : Bytes) (ret : StdArray α n) : Outcome (StdArray α n) := do
  let vs ← deserializeChunked deserialize vacSize bytes ret.1
  .ok ⟨vs.1, vs.2.trans ret.2⟩

/-- The elements from the one whose offset is `offset` on; `count` elements follow it and `idx`
is the position of the next offset. -/
def deserializeVariableLoop (deserialize : Bytes → α → Outcome α) (vac : α) (bytes : Bytes) :
    Nat → Nat → Nat → Outcome (List α)
  | 0, offset, _ => do
    let elem ← (deserialize (bytes.drop offset) vac).nested
    .ok [elem]
  | count + 1, offset, idx => do
    let nextOffset ← readOffset (bytes.drop idx)
    let range ← subrange bytes offset nextOffset
    let elem ← (deserialize range vac).nested
    let rest ← deserializeVariableLoop deserialize vac bytes count nextOffset
      (idx + BYTES_PER_LENGTH_OFFSET)
    .ok (elem :: rest)

/-- `std::vector<T>` of a variable-size type. With no element, `ret.size() - 1` wraps and
`ret.back()` has no object. -/
def deserializeVariableVector (deserialize : Bytes → α → Outcome α) (vac : α) (bytes : Bytes) :
    Outcome (List α) :=
  if bytes = [] then .ok []
  else do
    let offset ← readOffset bytes
    match offset / 4 with
    | 0 => .error (.undefined .back)
    | count + 1 => deserializeVariableLoop deserialize vac bytes count offset BYTES_PER_LENGTH_OFFSET

/-- `std::countl_zero` of an 8-bit value. -/
def countlZero (x : Byte) : Nat :=
  if x = 0 then 8 else 7 - Nat.log2 x.toNat

/-- `push_back` of the lowest `count` bits of a byte. -/
def pushBits (count : Nat) (ret : List Bool) (b : Byte) : List Bool :=
  (List.range count).foldl (fun ret j => ret ++ [b.getLsbD j]) ret

/-- `std::vector<bool>`, which is cleared first. -/
def deserializeVectorBool (bytes : Bytes) (ret : List Bool) : Outcome (List Bool) :=
  match bytes.getLast? with
  | none => .error (.undefined .read)
  | some last =>
    let ret := bytes.dropLast.foldl (pushBits 8) (ret.take 0)
    .ok (pushBits (8 - countlZero last - 1) ret last)

def deserializeBitlist (limit : Nat) (bytes : Bytes) (ret : List Bool) : Outcome (List Bool) :=
  if limit < bytes.length * 8 then
    .error (.thrown (.outOfRange "byte slice larger than list limit"))
  else deserializeVectorBool bytes ret

lemma pushBits_eq (count : Nat) (ret : List Bool) (b : Byte) :
    pushBits count ret b = ret ++ (List.range count).map fun j => b.getLsbD j := by
  unfold pushBits
  generalize List.range count = js
  induction js generalizing ret with
  | nil => simp
  | cons j js ih => rw [List.foldl_cons, ih, List.append_assoc, List.map_cons, List.singleton_append]

lemma foldl_pushBits (bytes : Bytes) (ret : List Bool) :
    bytes.foldl (pushBits 8) ret = ret ++ bytes.flatMap fun b => (List.range 8).map fun j => b.getLsbD j := by
  induction bytes generalizing ret with
  | nil => simp
  | cons b bytes ih => rw [List.foldl_cons, ih, pushBits_eq, List.append_assoc, List.flatMap_cons]

/-- All bits of the bytes before the last, and those of the last below its delimiter. -/
lemma deserializeVectorBool_eq (bytes : Bytes) (ret : List Bool) :
    deserializeVectorBool bytes ret =
      match bytes.getLast? with
      | none => .error (.undefined .read)
      | some last =>
        .ok (bytes.dropLast.flatMap (fun b => (List.range 8).map fun j => b.getLsbD j) ++
          (List.range (8 - countlZero last - 1)).map fun i => last.getLsbD i) := by
  unfold deserializeVectorBool
  cases bytes.getLast? with
  | none => rfl
  | some last => simp only [pushBits_eq, foldl_pushBits, List.take_zero, List.nil_append]

/-- The inner loop of the bitset decoder, over the bits of byte `i`. -/
def setBits (i : Nat) (b : Byte) (ret : List Bool) : List Bool :=
  (List.range 8).foldl
    (fun ret j => if 8 * i + j < ret.length ∧ b.getLsbD j then ret.set (8 * i + j) true else ret) ret

def setBytes : Nat → Bytes → List Bool → List Bool
  | _, [], ret => ret
  | i, b :: bs, ret => setBytes (i + 1) bs (setBits i b ret)

lemma length_setBits (i : Nat) (b : Byte) (ret : List Bool) :
    (setBits i b ret).length = ret.length := by
  unfold setBits
  generalize List.range 8 = js
  induction js generalizing ret with
  | nil => rfl
  | cons j js ih =>
    rw [List.foldl_cons, ih]
    split <;> simp

lemma length_setBytes (i : Nat) (bytes : Bytes) (ret : List Bool) :
    (setBytes i bytes ret).length = ret.length := by
  induction bytes generalizing i ret with
  | nil => rfl
  | cons b bs ih => rw [setBytes, ih, length_setBits]

/-- `std::bitset<N>`, which is reset first. -/
def deserializeBitset {n : Nat} (bytes : Bytes) (ret : StdArray Bool n) : StdArray Bool n :=
  ⟨setBytes 0 bytes (ret.1.map fun _ => false), by rw [length_setBytes, List.length_map, ret.2]⟩

lemma deserializeBitset_target {n : Nat} (bytes : Bytes) (ret ret' : StdArray Bool n) :
    deserializeBitset bytes ret = deserializeBitset bytes ret' := by
  have hreset : (ret.1.map fun _ => false) = ret'.1.map fun _ => false := by
    rw [List.map_const', List.map_const', ret.2, ret'.2]
  exact Subtype.ext (congrArg (setBytes 0 bytes) hreset)

end Deserialize

end Sszpp
