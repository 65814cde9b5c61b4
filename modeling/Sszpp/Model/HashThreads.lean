import Sszpp.Library.ForkJoin
import Sszpp.Model.HashTreeRoot

/-!
# Hash tree roots on several threads

The overloads of `hash_tree_root` as programs that fork where the code calls `std::async`: `two_blocks` is
the buffer, the call on the first half goes on in the same thread and the buffer is read after
`future.get()`. What a thread does on its own is what the sequential model does there. A half of the buffer is
written when its thread ends: that `hash_2_chunks` may overwrite it with every zero hash before that, which no
other thread sees, is no step here.
-/

namespace Sszpp

open Library

variable {α : Type}

/-- A thread leaves a root in its half of `two_blocks` when it ends. -/
abbrev HashProgram := Program Stop Event Chunk

/-- What one thread does. -/
def Hashing.onThread (x : Hashing α) : HashProgram α := .serial x.run

section Vectors

variable (P : Platform)

/-- The three overloads for vectors, as in `hashVector`. -/
def hashVectorThreads (threshold : Nat) (chunkSize : Nat → Nat)
    (serial : List α → Nat → HashProgram Chunk) (r : List α) (cpuCount limit : Nat) : HashProgram Chunk :=
  let cpus := P.cpus cpuCount
  if cpus < 2 ∨ r.length < threshold then serial r limit
  else
    let halfSize := bitCeil r.length / 2
    let first := r.take halfSize
    let last := r.drop halfSize
    .fork (hashVectorThreads threshold chunkSize serial first (cpus / 2) (chunkSize halfSize))
      (hashVectorThreads threshold chunkSize serial last (cpus / 2) (chunkSize halfSize))
      fun left right => Hashing.onThread do
        let result ← hash2Chunks P.hashtreeHash left right
        let i := log2ceil (chunkSize halfSize) + 1
        extendRoot P.hashtreeHash (log2ceil limit - i) i result
termination_by P.cpus cpuCount
decreasing_by all_goals exact P.cpus_half_lt (by omega)

def hashTreeRootBasicVectorThreads (layout : BasicLayout α) (r : List α) (cpuCount limit : Nat) :
    HashProgram Chunk :=
  hashVectorThreads P (4 * BYTES_PER_CHUNK)
    (fun halfSize => (halfSize * layout.sizeof + BYTES_PER_CHUNK - 1) / BYTES_PER_CHUNK)
    (fun r limit => (htrLittleEndian P.hashtreeHash (r.flatMap layout.toBytes) limit).onThread) r cpuCount limit

def hashTreeRootBytesThreads (bytes : Bytes) (cpuCount limit : Nat) : HashProgram Chunk :=
  hashTreeRootBasicVectorThreads P byteLayout bytes cpuCount limit

def hashTreeRootRootVectorThreads (rootBytes : α → Bytes) (r : List α) (cpuCount limit : Nat) :
    HashProgram Chunk :=
  hashVectorThreads P 4 (fun halfSize => halfSize)
    (fun r limit => (htrLittleEndian P.hashtreeHash (r.flatMap rootBytes) limit).onThread) r cpuCount limit

def elementRootsThreads (root : α → HashProgram Chunk) : List α → HashProgram Bytes
  | [] => return []
  | v :: vs => do
    let c ← root v
    let cs ← elementRootsThreads root vs
    return c.1 ++ cs

def hashTreeRootVectorThreads (root : α → HashProgram Chunk) (r : List α) (cpuCount limit : Nat) :
    HashProgram Chunk :=
  hashVectorThreads P 4 (fun halfSize => halfSize)
    (fun r limit => do
      let chunks ← elementRootsThreads root r
      hashTreeRootBytesThreads P chunks 1 limit) r cpuCount limit

def hashTreeRootRangeThreads (layout : Option (BasicLayout α)) (rootBytes : Option (α → Bytes))
    (root : α → HashProgram Chunk) (r : List α) (cpuCount limit : Nat) : HashProgram Chunk :=
  match layout, rootBytes with
  | some layout, _ => hashTreeRootBasicVectorThreads P layout r cpuCount limit
  | none, some rootBytes => hashTreeRootRootVectorThreads P rootBytes r cpuCount limit
  | none, none => hashTreeRootVectorThreads P root r cpuCount limit

end Vectors

mutual

/-- `hash_tree_root(result, r, cpu_count)` -/
def SszType.hashTreeRootThreads {α : Type} (P : Platform) :
    SszType α → α → (cpuCount : Nat) → (result : Chunk) → HashProgram Chunk
  | .basic b, v, _, result => return result.copy (b.toBytes v)
  | .array e _, v, cpuCount, _ =>
    hashTreeRootRangeThreads P e.basicLayout e.rootBytes (fun x => e.hashTreeRootThreads P x 1 zeroHash) v.1
      cpuCount 0
  | .vector e, v, cpuCount, _ =>
    hashTreeRootRangeThreads P e.basicLayout e.rootBytes (fun x => e.hashTreeRootThreads P x 1 zeroHash) v
      cpuCount 0
  | .list e n, v, cpuCount, _ => do
    let hash ← hashTreeRootRangeThreads P e.basicLayout e.rootBytes
      (fun x => e.hashTreeRootThreads P x 1 zeroHash) v cpuCount (listLimit e.basicLayout n)
    (mixInLength P.hashtreeHash hash v.length).onThread
  | .bitlist n, v, cpuCount, _ => do
    let bytes ← Hashing.onThread (liftM ((SszType.bitlist n).serialize v))
    let bytes ← Hashing.onThread (liftM (removeDelimiter bytes))
    let hash ← hashTreeRootBytesThreads P bytes cpuCount (bitLimit n)
    (mixInLength P.hashtreeHash hash v.length).onThread
  | .bitset n, v, cpuCount, _ => do
    let bytes ← Hashing.onThread (liftM ((SszType.bitset n).serialize v))
    hashTreeRootBytesThreads P bytes cpuCount (bitLimit n)
  | .container _ ms, v, cpuCount, _ => do
    let ret ← ms.memberRootsThreads P v cpuCount
    hashTreeRootBytesThreads P ret cpuCount 0

def Members.memberRootsThreads {α : Type} (P : Platform) :
    Members α → α → (cpuCount : Nat) → HashProgram Bytes
  | .nil, _, _ => return []
  | .cons m ms, (v, vs), cpuCount => do
    let c ← m.hashTreeRootThreads P v cpuCount zeroHash
    let cs ← ms.memberRootsThreads P vs cpuCount
    return c.1 ++ cs

end

end Sszpp
