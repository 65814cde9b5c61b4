import Sszpp.Model.Lists

/-!
# Containers and the choice of overloads

The functions on type expressions: for each kind of type the overload a call on its objects
resolves to. A one-member container calls the overload of its member in place of the variadic
encoder.
-/

namespace Sszpp

open Library

variable {α β : Type}

/-! ### Sizes -/

def sizeOfRange (variableSize : Bool) (size : α → Nat) (r : List α) : Nat :=
  if variableSize then sizeOfVariable size r else sizeOfFixed size r

def sizeOrPlaceholder (variableSize : Bool) (size : Nat) : Nat :=
  if variableSize then BYTES_PER_LENGTH_OFFSET else size % 2 ^ 32

def sizePlusPlaceholder (variableSize : Bool) (size : Nat) : Nat :=
  if variableSize then (size + BYTES_PER_LENGTH_OFFSET) % 2 ^ 32 else size % 2 ^ 32

mutual

/-- `ssz::size`. The qualified calls inside the overloads for ranges see only the overloads
declared before them, not those for bitsets and bitlists: there `late` is false, and a bitlist
is sized as a range of `bool`. -/
def SszType.size {α : Type} (late : Bool) : SszType α → α → Nat
  | .basic b, _ => b.sizeof
  | .array e _, v => sizeOfRange e.variableSize (e.size false) v.1
  | .vector e, v => sizeOfRange e.variableSize (e.size false) v
  | .list e _, v => sizeOfRange e.variableSize (e.size false) v
  | .bitlist _, v => if late then v.length / 8 + 1 else sizeOfFixed (fun _ => 1) v
  | .bitset n, _ => (n + 7) / 8
  | .container _ ms, v => ms.computeTotalLength v

/-- `compute_total_length`; the order of the sum of `uint32_t` terms does not matter. -/
def Members.computeTotalLength {α : Type} : Members α → α → Nat
  | .nil, _ => 0
  | .cons m ms, (v, vs) =>
    (sizePlusPlaceholder m.variableSize (m.size true v) + ms.computeTotalLength vs) % 2 ^ 32

end

def Members.computeFixedLength {α : Type} : Members α → α → Nat
  | .nil, _ => 0
  | .cons m ms, (v, vs) =>
    (sizeOrPlaceholder m.variableSize (m.size true v) + ms.computeFixedLength vs) % 2 ^ 32

/-! ### Serialization -/

/-- The in-place overloads for ranges. -/
def serializeRange (layout : Option (BasicLayout α)) (variableSize : Bool)
    (serialize : α → Nat → Bytes → Outcome Bytes) (size : α → Nat) (result : Nat) (r : List α)
    (buf : Bytes) : Outcome Bytes :=
  match layout with
  | some layout => serializeBasicRange layout.toBytes result r buf
  | none =>
    if variableSize then serializeVariableRange serialize size result r buf
    else serializeFixedRange serialize size result r buf

mutual

/-- `serialize(result, v)` -/
def SszType.serializeInPlace {α : Type} : SszType α → α → Nat → Bytes → Outcome Bytes
  | .basic b, v, result, buf => b.serializeInPlace v result buf
  | .array e _, v, result, buf =>
    serializeRange e.basicLayout e.variableSize e.serializeInPlace (e.size true) result v.1 buf
  | .vector e, v, result, buf =>
    serializeRange e.basicLayout e.variableSize e.serializeInPlace (e.size true) result v buf
  | .list e _, v, result, buf =>
    serializeRange e.basicLayout e.variableSize e.serializeInPlace (e.size true) result v buf
  | .bitlist _, v, result, buf => serializeBitlist result v buf
  | .bitset _, v, result, buf => serializeBitset result 0 v.1 buf
  | .container _ ms, v, result, buf =>
    if ms.count = 1 then ms.serializeSingle v result buf
    else ms.serializeMembers v result result (result + ms.computeFixedLength v) buf

/-- The call `ssz::serialize(result, m)` of a one-member container. -/
def Members.serializeSingle {α : Type} : Members α → α → Nat → Bytes → Outcome Bytes
  | .nil, _, _, buf => .ok buf
  | .cons m _, (v, _), result, buf => m.serializeInPlace v result buf

/-- `serialize_member` on the members in order, with the cursors `result` and
`variablePos`. -/
def Members.serializeMembers {α : Type} :
    Members α → α → (start result variablePos : Nat) → Bytes → Outcome Bytes
  | .nil, _, _, _, _, buf => .ok buf
  | .cons m ms, (v, vs), start, result, variablePos, buf =>
    if m.variableSize then do
      let buf ← store result (leBytes 4 ((variablePos - start) % 2 ^ 32)) buf
      let buf ← m.serializeInPlace v variablePos buf
      ms.serializeMembers vs start (result + BYTES_PER_LENGTH_OFFSET) (variablePos + m.size true v) buf
    else do
      let buf ← m.serializeInPlace v result buf
      ms.serializeMembers vs start (result + m.size true v) variablePos buf

end

/-- The length of the vector that the returning `serialize` allocates. -/
def SszType.bufferSize : SszType α → α → Nat
  | .array e _, v => if e.variableSize then totalSize (e.size true) v.1 else sizeOfFixed (e.size false) v.1
  | .vector e, v => if e.variableSize then totalSize (e.size true) v else sizeOfFixed (e.size false) v
  | .list e _, v => if e.variableSize then totalSize (e.size true) v else sizeOfFixed (e.size false) v
  | τ, v => τ.size true v

/-- `serialize(v)` -/
def SszType.serialize (τ : SszType α) (v : α) : Outcome Bytes :=
  τ.serializeInPlace v 0 (zeros (τ.bufferSize v))

/-! ### Deserialization -/

/-- The overloads for `std::vector<T>`. -/
def deserializeVector (layout : Option (BasicLayout α)) (variableSize : Bool)
    (deserialize : Bytes → α → Outcome α) (vac : α) (vacSize : Nat) (bytes : Bytes) :
    Outcome (List α) :=
  match layout with
  | some layout => deserializeBasicVector layout bytes
  | none =>
    if variableSize then deserializeVariableVector deserialize vac bytes
    else deserializeFixedVector deserialize vac vacSize bytes

/-- The overloads for `std::array<T, N>`; there is none for elements of variable size. -/
def deserializeArray (layout : Option (BasicLayout α)) (variableSize : Bool)
    (deserialize : Bytes → α → Outcome α) (vacSize : Nat) {n : Nat} (bytes : Bytes)
    (ret : StdArray α n) : Outcome (StdArray α n) :=
  match layout with
  | some layout => deserializeBasicArray layout n bytes
  | none =>
    if variableSize then .error (.undefined .noOverload)
    else deserializeFixedArray deserialize vacSize bytes ret

mutual

/-- `deserialize(bytes, r)`: the new content of `r`. -/
def SszType.deserialize {α : Type} : SszType α → Bytes → α → Outcome α
  | .basic b, bytes, _ => b.deserialize bytes
  | .array e _, bytes, r =>
    deserializeArray e.basicLayout e.variableSize e.deserialize (e.size true e.vac) bytes r
  | .vector e, bytes, _ =>
    deserializeVector e.basicLayout e.variableSize e.deserialize e.vac (e.size true e.vac) bytes
  | .list e _, bytes, _ =>
    deserializeVector e.basicLayout e.variableSize e.deserialize e.vac (e.size true e.vac) bytes
  | .bitlist limit, bytes, ret => deserializeBitlist limit bytes ret
  | .bitset _, bytes, ret => .ok (deserializeBitset bytes ret)
  | .container _ ms, bytes, r => do
    let (r, offsets) ← ms.deserializeFixedSizeMembers bytes r
    match offsets with
    | [] => .ok r
    | offset :: offsets => ms.deserializeVariableSizeMembers bytes offset offsets r

/-- The first pass, on the bytes not yet read: the fixed-size members and the offsets. -/
def Members.deserializeFixedSizeMembers {α : Type} :
    Members α → Bytes → α → Outcome (α × List Nat)
  | .nil, _, r => .ok (r, [])
  | .cons m ms, shifted, (v, vs) =>
    if m.variableSize then do
      let offset ← readOffset shifted
      let (vs, offsets) ←
        ms.deserializeFixedSizeMembers (shifted.drop BYTES_PER_LENGTH_OFFSET) vs
      .ok ((v, vs), offset :: offsets)
    else do
      let memberSize := m.size true v
      let v ← (m.deserialize (shifted.take memberSize) v).nested
      let (vs, offsets) ← ms.deserializeFixedSizeMembers (shifted.drop memberSize) vs
      .ok ((v, vs), offsets)

/-- The second pass, with the offset of the next member of variable size and those after it. -/
def Members.deserializeVariableSizeMembers {α : Type} :
    Members α → Bytes → Nat → List Nat → α → Outcome α
  | .nil, _, _, _, r => .ok r
  | .cons m ms, bytes, currentOffset, offsets, (v, vs) =>
    if m.variableSize then
      match offsets with
      | nextOffset :: offsets => do
        let range ← subrange bytes currentOffset nextOffset
        let v ← (m.deserialize range v).nested
        let vs ← ms.deserializeVariableSizeMembers bytes nextOffset offsets vs
        .ok (v, vs)
      | [] => do
        let v ← (m.deserialize (bytes.drop currentOffset) v).nested
        let vs ← ms.deserializeVariableSizeMembers bytes currentOffset [] vs
        .ok (v, vs)
    else do
      let vs ← ms.deserializeVariableSizeMembers bytes currentOffset offsets vs
      .ok (v, vs)

end

/-- `deserialize_container` -/
def Members.deserializeContainer (ms : Members α) (bytes : Bytes) (r : α) : Outcome α := do
  let (r, offsets) ← ms.deserializeFixedSizeMembers bytes r
  match offsets with
  | [] => .ok r
  | offset :: offsets => ms.deserializeVariableSizeMembers bytes offset offsets r

lemma SszType.deserialize_container (variableSize : Bool) (ms : Members α) (bytes : Bytes) (r : α) :
    (SszType.container variableSize ms).deserialize bytes r = ms.deserializeContainer bytes r := rfl

/-- `ssz::deserialize<T>(bytes)` -/
def SszType.deserializeNew (τ : SszType α) (bytes : Bytes) : Outcome α :=
  τ.deserialize bytes τ.vac

end Sszpp
