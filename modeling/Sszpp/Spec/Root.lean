import Mathlib.Data.Nat.Log
import Sszpp.Library.MerkleTree
import Sszpp.Model.HashTree
import Sszpp.Spec.Encoding

/-!
# The reference root

The hash tree root of a value by recursion on its type, for any pair hash.
-/

namespace Sszpp

open Library

/-- The chunks of a byte string, the last one completed with zeros. -/
def chunksOf (bytes : Bytes) : List Chunk := (pieces BYTES_PER_CHUNK bytes).map Chunk.ofBytes

/-- The depth of the least complete tree with `limit` leaves. -/
def leafDepth (limit : Nat) : Nat := Nat.clog 2 limit

/-- `chunks`, padded with zero chunks to the next power of two of `limit`, in a complete tree. -/
def merkleize (H : PairHash) (chunks : List Chunk) (limit : Nat) : Chunk :=
  treeRoot H zeroHash (leafDepth limit)
    (chunks ++ List.replicate (2 ^ leafDepth limit - chunks.length) zeroHash)

/-- The length as a 32-byte little-endian integer beside the root. -/
def withLength (H : PairHash) (root : Chunk) (length : Nat) : Chunk :=
  H root (Chunk.ofBytes (leBytes BYTES_PER_CHUNK length))

/-- The packed bytes of a sequence of basic values, or one chunk for each root. -/
def leavesOf {α : Type} (layout : Option (BasicLayout α)) (root : α → Chunk) (vs : List α) : List Chunk :=
  match layout with
  | some layout => chunksOf (vs.flatMap layout.toBytes)
  | none => vs.map root

/-- The number of chunks of a full list. -/
def chunkLimit {α : Type} (layout : Option (BasicLayout α)) (limit : Nat) : Nat :=
  match layout with
  | some layout => (limit * layout.sizeof + 31) / 32
  | none => limit

mutual

def SszType.root {α : Type} (H : PairHash) : SszType α → α → Chunk
  | .basic b, v => Chunk.ofBytes (b.toBytes v)
  | .array e _, v =>
    let leaves := leavesOf e.basicLayout (e.root H) v.1
    merkleize H leaves leaves.length
  | .vector e, v =>
    let leaves := leavesOf e.basicLayout (e.root H) v
    merkleize H leaves leaves.length
  | .list e limit, v =>
    withLength H (merkleize H (leavesOf e.basicLayout (e.root H) v) (chunkLimit e.basicLayout limit))
      v.length
  | .bitlist limit, v => withLength H (merkleize H (chunksOf (packBits v)) ((limit + 255) / 256)) v.length
  | .bitset n, v => merkleize H (chunksOf (packBits v.1)) ((n + 255) / 256)
  | .container _ ms, v => merkleize H (ms.roots H v) ms.count

def Members.roots {α : Type} (H : PairHash) : Members α → α → List Chunk
  | .nil, _ => []
  | .cons m ms, (v, vs) => m.root H v :: ms.roots H vs

end

mutual

/-- The types and values whose trees have at most `2 ^ 41` leaves: `zero_hash_array` ends with the
root of a tree of depth 41. -/
def SszType.TreesWithin {α : Type} : SszType α → α → Prop
  | .basic _, _ => True
  | .array e _, v =>
    (leavesOf e.basicLayout (fun _ => zeroHash) v.1).length ≤ 2 ^ 41 ∧ ∀ x ∈ v.1, e.TreesWithin x
  | .vector e, v =>
    (leavesOf e.basicLayout (fun _ => zeroHash) v).length ≤ 2 ^ 41 ∧ ∀ x ∈ v, e.TreesWithin x
  | .list e limit, v => chunkLimit e.basicLayout limit ≤ 2 ^ 41 ∧ ∀ x ∈ v, e.TreesWithin x
  | .bitlist limit, _ => (limit + 255) / 256 ≤ 2 ^ 41
  | .bitset n, _ => (n + 255) / 256 ≤ 2 ^ 41
  | .container _ ms, v => ms.count ≤ 2 ^ 41 ∧ ms.TreesWithin v

def Members.TreesWithin {α : Type} : Members α → α → Prop
  | .nil, _ => True
  | .cons m ms, (v, vs) => m.TreesWithin v ∧ ms.TreesWithin vs

end

mutual

/-- The objects in whose lists the number of bytes or bits of the limit is a `size_t`, rounded up to chunks. -/
def SszType.LimitsFit {α : Type} : SszType α → α → Prop
  | .basic _, _ => True
  | .array e _, v => ∀ x ∈ v.1, e.LimitsFit x
  | .vector e, v => ∀ x ∈ v, e.LimitsFit x
  | .list e limit, v =>
    (∀ layout, e.basicLayout = some layout → limit * layout.sizeof + 31 < 2 ^ 64) ∧ ∀ x ∈ v, e.LimitsFit x
  | .bitlist limit, _ => limit + 255 < 2 ^ 64
  | .bitset n, _ => n + 255 < 2 ^ 64
  | .container _ ms, v => ms.LimitsFit v

def Members.LimitsFit {α : Type} : Members α → α → Prop
  | .nil, _ => True
  | .cons m ms, (v, vs) => m.LimitsFit v ∧ ms.LimitsFit vs

end

mutual

/-- The types all of whose trees have at most `2 ^ 41` leaves. -/
def SszType.treesBounded {α : Type} : SszType α → Bool
  | .basic _ => true
  | .array e n => decide (chunkLimit e.basicLayout n ≤ 2 ^ 41) && e.treesBounded
  | .vector _ => false
  | .list e limit => decide (chunkLimit e.basicLayout limit ≤ 2 ^ 41) && e.treesBounded
  | .bitlist limit => decide ((limit + 255) / 256 ≤ 2 ^ 41)
  | .bitset n => decide ((n + 255) / 256 ≤ 2 ^ 41)
  | .container _ ms => decide (ms.count ≤ 2 ^ 41) && ms.treesBounded

def Members.treesBounded {α : Type} : Members α → Bool
  | .nil => true
  | .cons m ms => m.treesBounded && ms.treesBounded

end

end Sszpp
