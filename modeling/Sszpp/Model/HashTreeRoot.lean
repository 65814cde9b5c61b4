import Sszpp.Model.Container
import Sszpp.Model.HashTree

/-!
# Hash tree roots

The overloads of `hash_tree_root`. An in-place call gets the chunk at its output iterator and
returns its new content.
-/

namespace Sszpp

open Library

variable {α : Type}

/-- What the library takes from outside. -/
structure Platform where
  hashtreeHash : PairHash
  hardwareConcurrency : Nat

/-- The value of `cpu_count` after the line that replaces 0. -/
def Platform.cpus (P : Platform) (cpuCount : Nat) : Nat :=
  if cpuCount = 0 then P.hardwareConcurrency else cpuCount

lemma Platform.cpus_half_lt (P : Platform) {n : Nat} (h : 2 ≤ n) : P.cpus (n / 2) < n := by
  rw [cpus, if_neg (by omega)]
  omega

/-- At every split of a vector, whether the second half is hashed first. -/
abbrev Schedule := List Bool → Bool

namespace Schedule

def lastFirst (s : Schedule) : Bool := s []

/-- The schedule of the first of two calls. -/
def first (s : Schedule) : Schedule := fun path => s (false :: path)

def second (s : Schedule) : Schedule := fun path => s (true :: path)

end Schedule

/-- The last chunk of a tree buffer. -/
def lastChunk (tree : Bytes) : Chunk := Chunk.ofBytes (tree.drop (tree.length - BYTES_PER_CHUNK))

/-- `_htr_little_endian_basic_list` and `_htr_array_of_array_little_endian` -/
def htrLittleEndian (H : PairHash) (bytes : Bytes) (limit : Nat) : Hashing Chunk := do
  let tree ← sparseHashTree H bytes limit
  return lastChunk tree

/-- `std::bit_ceil` -/
def bitCeil (n : Nat) : Nat := if n ≤ 1 then 1 else 2 ^ bitWidth (n - 1)

/-- The loop after a split: `count` zero hashes from `zero_hash_array[i]` on. -/
def extendRoot (H : PairHash) : (count i : Nat) → Chunk → Hashing Chunk
  | 0, _, result => return result
  | count + 1, i, result => do
    let zero ← zeroHashAt H i
    let result ← hash2Chunks H result zero
    extendRoot H count (i + 1) result

/-! ### Vectors -/

/-- The three overloads for vectors: `threshold` elements are the least that are split and
`chunkSize` counts the chunks of a half. -/
def hashVector (P : Platform) (threshold : Nat) (chunkSize : Nat → Nat)
    (serial : List α → Nat → Hashing Chunk) (s : Schedule) (r : List α) (cpuCount limit : Nat) :
    Hashing Chunk :=
  let cpus := P.cpus cpuCount
  if cpus < 2 ∨ r.length < threshold then serial r limit
  else do
    let halfSize := bitCeil r.length / 2
    let first := r.take halfSize
    let last := r.drop halfSize
    let (left, right) ← (if s.lastFirst then do
        let right ← hashVector P threshold chunkSize serial s.second last (cpus / 2) (chunkSize halfSize)
        let left ← hashVector P threshold chunkSize serial s.first first (cpus / 2) (chunkSize halfSize)
        return (left, right)
      else do
        let left ← hashVector P threshold chunkSize serial s.first first (cpus / 2) (chunkSize halfSize)
        let right ← hashVector P threshold chunkSize serial s.second last (cpus / 2) (chunkSize halfSize)
        return (left, right))
    let result ← hash2Chunks P.hashtreeHash left right
    let i := log2ceil (chunkSize halfSize) + 1
    extendRoot P.hashtreeHash (log2ceil limit - i) i result
termination_by P.cpus cpuCount
decreasing_by all_goals exact P.cpus_half_lt (by omega)

/-- `hash_tree_root` of an `ssz_basic_type_vector` -/
def hashTreeRootBasicVector (P : Platform) (s : Schedule) (layout : BasicLayout α) (r : List α)
    (cpuCount limit : Nat) : Hashing Chunk :=
  hashVector P (4 * BYTES_PER_CHUNK)
    (fun halfSize => (halfSize * layout.sizeof + BYTES_PER_CHUNK - 1) / BYTES_PER_CHUNK)
    (fun r limit => htrLittleEndian P.hashtreeHash (r.flatMap layout.toBytes) limit) s r cpuCount limit

def byteLayout : BasicLayout Byte := BasicType.byte.layout

/-- The same of a range of `std::byte`. -/
def hashTreeRootBytes (P : Platform) (s : Schedule) (bytes : Bytes) (cpuCount limit : Nat) :
    Hashing Chunk :=
  hashTreeRootBasicVector P s byteLayout bytes cpuCount limit

/-- `hash_tree_root` of a range of `Root`, whose objects `rootBytes` gives as bytes. -/
def hashTreeRootRootVector (P : Platform) (s : Schedule) (rootBytes : α → Bytes) (r : List α)
    (cpuCount limit : Nat) : Hashing Chunk :=
  hashVector P 4 (fun halfSize => halfSize)
    (fun r limit => htrLittleEndian P.hashtreeHash (r.flatMap rootBytes) limit) s r cpuCount limit

/-- The roots of the elements one after another. -/
def elementRoots (root : α → Hashing Chunk) : List α → Hashing Bytes
  | [] => return []
  | v :: vs => do
    let c ← root v
    let cs ← elementRoots root vs
    return c.1 ++ cs

/-- `hash_tree_root` of an `ssz_vector` of other elements, with the in-place call on an element. -/
def hashTreeRootVector (P : Platform) (s : Schedule) (root : α → Hashing Chunk) (r : List α)
    (cpuCount limit : Nat) : Hashing Chunk :=
  hashVector P 4 (fun halfSize => halfSize)
    (fun r limit => do
      let chunks ← elementRoots root r
      hashTreeRootBytes P s chunks 1 limit) s r cpuCount limit

/-- `Root` is `std::array<std::byte, 32>`; the bytes of its objects. -/
def SszType.rootBytes {α : Type} : SszType α → Option (α → Bytes)
  | .array (.basic .byte) n =>
    if n = BYTES_PER_CHUNK then some fun v => v.1.flatMap BasicType.byte.toBytes else none
  | _ => none

/-- The choice among the three. -/
def hashTreeRootRange (P : Platform) (s : Schedule) (layout : Option (BasicLayout α))
    (rootBytes : Option (α → Bytes)) (root : α → Hashing Chunk) (r : List α)
    (cpuCount limit : Nat) : Hashing Chunk :=
  match layout, rootBytes with
  | some layout, _ => hashTreeRootBasicVector P s layout r cpuCount limit
  | none, some rootBytes => hashTreeRootRootVector P s rootBytes r cpuCount limit
  | none, none => hashTreeRootVector P s root r cpuCount limit

/-- `limit` of the overloads for `ssz::list<T, N>`. The number of bytes is a `size_t`, and wraps for some
`N` whatever the length of the list. -/
def listLimit (layout : Option (BasicLayout α)) (n : Nat) : Nat :=
  match layout with
  | some layout => (n * layout.sizeof + BYTES_PER_CHUNK - 1) % 2 ^ 64 / BYTES_PER_CHUNK
  | none => n

/-- `limit` of the overloads for bit sequences. For the last numbers below `2 ^ 64` the sum wraps to less
than a chunk of bits. -/
def bitLimit (n : Nat) : Nat :=
  if n + 8 * BYTES_PER_CHUNK - 1 < 2 ^ 64 then (n + 8 * BYTES_PER_CHUNK - 1) / (8 * BYTES_PER_CHUNK) else 0

/-- Takes the delimiter off a serialized bitlist. -/
def removeDelimiter (bytes : Bytes) : Outcome Bytes :=
  match bytes.getLast? with
  | none => .error (.undefined .back)
  | some last =>
    match 8 - countlZero last with
    | 0 => .error (.undefined .shift)
    | highestBit + 1 =>
      if highestBit = 0 then .ok bytes.dropLast
      else .ok (bytes.dropLast ++ [last &&& ~~~((1 : Byte) <<< highestBit)])

mutual

/-- `hash_tree_root(result, r, cpu_count)` -/
def SszType.hashTreeRoot {α : Type} (P : Platform) :
    SszType α → Schedule → α → (cpuCount : Nat) → (result : Chunk) → Hashing Chunk
  | .basic b, _, v, _, result => return result.copy (b.toBytes v)
  | .array e _, s, v, cpuCount, _ =>
    hashTreeRootRange P s e.basicLayout e.rootBytes (fun x => e.hashTreeRoot P s x 1 zeroHash) v.1 cpuCount 0
  | .vector e, s, v, cpuCount, _ =>
    hashTreeRootRange P s e.basicLayout e.rootBytes (fun x => e.hashTreeRoot P s x 1 zeroHash) v cpuCount 0
  | .list e n, s, v, cpuCount, _ => do
    let hash ← hashTreeRootRange P s e.basicLayout e.rootBytes (fun x => e.hashTreeRoot P s x 1 zeroHash) v
      cpuCount (listLimit e.basicLayout n)
    mixInLength P.hashtreeHash hash v.length
  | .bitlist n, s, v, cpuCount, _ => do
    let bytes ← (SszType.bitlist n).serialize v
    let bytes ← removeDelimiter bytes
    let hash ← hashTreeRootBytes P s bytes cpuCount (bitLimit n)
    mixInLength P.hashtreeHash hash v.length
  | .bitset n, s, v, cpuCount, _ => do
    let bytes ← (SszType.bitset n).serialize v
    hashTreeRootBytes P s bytes cpuCount (bitLimit n)
  | .container _ ms, s, v, cpuCount, _ => do
    let ret ← ms.memberRoots P s.first v cpuCount
    hashTreeRootBytes P s.second ret cpuCount 0

/-- The calls of `_container_hash` on the members. -/
def Members.memberRoots {α : Type} (P : Platform) :
    Members α → Schedule → α → (cpuCount : Nat) → Hashing Bytes
  | .nil, _, _, _ => return []
  | .cons m ms, s, (v, vs), cpuCount => do
    let c ← m.hashTreeRoot P s.first v cpuCount zeroHash
    let cs ← ms.memberRoots P s.second vs cpuCount
    return c.1 ++ cs

end

/-- `hash_tree_root(r, cpu_count)`. The overload for vectors also takes an `ssz::list`: it
satisfies `ssz_vector`. There is none for bit sequences. -/
def SszType.hashTreeRootValue (P : Platform) (τ : SszType α) (s : Schedule) (v : α)
    (cpuCount : Nat) : Hashing Chunk :=
  match τ with
  | .basic b => (SszType.basic b).hashTreeRoot P s v cpuCount zeroHash
  | .array e n => (SszType.array e n).hashTreeRoot P s v cpuCount zeroHash
  | .vector e => (SszType.vector e).hashTreeRoot P s v cpuCount zeroHash
  | .list e _ => (SszType.vector e).hashTreeRoot P s v cpuCount zeroHash
  | .bitlist _ => throw (.undefined .noOverload)
  | .bitset _ => throw (.undefined .noOverload)
  | .container variableSize ms =>
    (SszType.container variableSize ms).hashTreeRoot P s v cpuCount zeroHash

end Sszpp
