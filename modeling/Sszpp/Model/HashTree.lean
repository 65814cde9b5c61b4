import Mathlib.Control.Monad.Writer
import Sszpp.Model.Outcome
import Sszpp.Model.Types

/-!
# Sparse hash trees

A function that hashes returns its result and the list of what it did: the blocks it handed to the
pair hash and its accesses to the input, to the tree buffer and to `zero_hash_array`. An access
outside its range is recorded like any other; such a write is cut off at the end of the buffer.
-/

namespace Sszpp

open Library

abbrev BYTES_PER_CHUNK : Nat := 32

abbrev zeroHashDepth : Nat := 42

/-- `chunk_t` -/
abbrev Chunk := StdArray Byte BYTES_PER_CHUNK

/-- `zero_hash` -/
def zeroHash : Chunk := ⟨zeros BYTES_PER_CHUNK, length_zeros _⟩

/-- `result` after a copy of at most 32 bytes to its beginning. -/
def Chunk.copy (bytes : Bytes) (result : Chunk) : Chunk :=
  ⟨bytes.take BYTES_PER_CHUNK ++ result.1.drop (bytes.take BYTES_PER_CHUNK).length, by
    simp only [List.length_append, List.length_drop, List.length_take, result.2]
    omega⟩

/-- The first 32 bytes, completed with zeros. -/
def Chunk.ofBytes (bytes : Bytes) : Chunk := zeroHash.copy bytes

/-- What a hashing function did. `size` is the number of bytes of the accessed range. -/
inductive Event
  | digest (first second : Chunk)
  | input (pos len size : Nat)
  | load (pos len size : Nat)
  | store (pos len size : Nat)
  | zeroHash (i : Nat)
  deriving DecidableEq

abbrev Hashing := WriterT (List Event) Outcome

/-- The hash of two chunks by `hashtree_hash`. -/
abbrev PairHash := Chunk → Chunk → Chunk

/-- `zero_hash_array` -/
def zeroHashArray (H : PairHash) : List Chunk := List.iterate (fun c => H c c) zeroHash zeroHashDepth

/-- `zero_hash_array[i]` -/
def zeroHashAt (H : PairHash) (i : Nat) : Hashing Chunk := do
  tell [.zeroHash i]
  return (zeroHashArray H).getD i zeroHash

/-- `hash_2_chunks` -/
def hash2Chunks (H : PairHash) (first second : Chunk) : Hashing Chunk := do
  tell [.digest first second]
  return H first second

/-- `hashtree_hash`: the hashes of the first `count` blocks of the input. -/
def hashtreeHash (H : PairHash) : (count : Nat) → (input : Bytes) → Hashing Bytes
  | 0, _ => return []
  | count + 1, input => do
    let c ← hash2Chunks H (Chunk.ofBytes input) (Chunk.ofBytes (input.drop BYTES_PER_CHUNK))
    let cs ← hashtreeHash H count (input.drop (2 * BYTES_PER_CHUNK))
    return c.1 ++ cs

/-! ### The tree buffer -/

def loadNodes (pos len : Nat) (buf : Bytes) : Hashing Bytes := do
  tell [.load pos len buf.length]
  return (buf.drop pos).take len

def storeNodes (pos : Nat) (bytes buf : Bytes) : Hashing Bytes := do
  tell [.store pos bytes.length buf.length]
  return (buf.take pos ++ bytes ++ buf.drop (pos + bytes.length)).take buf.length

def readInput (pos len : Nat) (chunks : Bytes) : Hashing Bytes := do
  tell [.input pos len chunks.length]
  return (chunks.drop pos).take len

/-- `hash(output, input, count)` into the buffer: the position after the hashes and the buffer. -/
def hashInto (H : PairHash) (output : Nat) (input : Bytes) (count : Nat) (buf : Bytes) :
    Hashing (Nat × Bytes) := do
  let nodes ← hashtreeHash H count input
  let buf ← storeNodes output nodes buf
  return (output + count * BYTES_PER_CHUNK, buf)

/-- The number of bits less `std::countl_zero`. -/
def bitWidth (n : Nat) : Nat := if n = 0 then 0 else Nat.log2 n + 1

def log2ceil (n : Nat) : Nat := if n = 0 then 0 else bitWidth (n - 1)

/-- The loop of `compute_hashtree_size`. -/
def hashtreeSizeLoop : (depth chunkCount ret : Nat) → Nat
  | 0, _, ret => ret
  | depth + 1, chunkCount, ret =>
    let chunkCount := (if chunkCount % 2 = 1 then chunkCount + 1 else chunkCount) / 2
    hashtreeSizeLoop depth chunkCount (ret + chunkCount)

def computeHashtreeSize (chunkCount depth : Nat) : Nat :=
  if depth = 0 then BYTES_PER_CHUNK else hashtreeSizeLoop depth chunkCount 0 * BYTES_PER_CHUNK

def chunkCount (byteLength : Nat) : Nat := (byteLength + BYTES_PER_CHUNK - 1) / BYTES_PER_CHUNK

/-- `hash_first_layer`: the position after the first layer and the buffer. -/
def hashFirstLayer (H : PairHash) (hashTree : Nat) (chunks buf : Bytes) : Hashing (Nat × Bytes) := do
  let count := chunkCount chunks.length
  if count % 2 = 0 ∧ chunks.length % BYTES_PER_CHUNK = 0 then
    let input ← readInput 0 (count / 2 * (2 * BYTES_PER_CHUNK)) chunks
    hashInto H hashTree input (count / 2) buf
  else
    let firstBlocks := (count - 1) / 2
    let firstBlocksSize := firstBlocks * (2 * BYTES_PER_CHUNK)
    let (hashTree, buf) ←
      (if firstBlocks ≠ 0 then do
        let input ← readInput 0 firstBlocksSize chunks
        hashInto H hashTree input firstBlocks buf
      else pure (hashTree, buf))
    let rest ← readInput firstBlocksSize (chunks.length - firstBlocksSize) chunks
    let lastChunk := rest ++ zeros (2 * BYTES_PER_CHUNK - rest.length)
    hashInto H hashTree lastChunk 1 buf

/-- The body of the loop of `sparse_hash_tree`: the layer over the one at `first` up to `last`. -/
def hashLayer (H : PairHash) (height first last : Nat) (buf : Bytes) : Hashing (Nat × Bytes) := do
  let dist := (last - first) / BYTES_PER_CHUNK
  let nextFirst := last
  let (last, buf) ←
    (if 1 < dist then do
      let input ← loadNodes first (dist / 2 * (2 * BYTES_PER_CHUNK)) buf
      hashInto H last input (dist / 2) buf
    else pure (last, buf))
  if dist % 2 = 1 then
    let node ← loadNodes (nextFirst - BYTES_PER_CHUNK) BYTES_PER_CHUNK buf
    let zero ← zeroHashAt H height
    hashInto H last (node ++ zero.1) 1 buf
  else pure (last, buf)

/-- The layers from `height` on, `count` of them. -/
def sparseHashLayers (H : PairHash) : (count height first last : Nat) → Bytes → Hashing Bytes
  | 0, _, _, _, buf => return buf
  | count + 1, height, first, last, buf => do
    let (next, buf) ← hashLayer H height first last buf
    sparseHashLayers H count (height + 1) last next buf

/-- `sparse_hash_tree(hash_tree, chunks, byte_length, depth)` -/
def sparseHashTreeInPlace (H : PairHash) (hashTree : Nat) (chunks : Bytes) (depth : Nat)
    (buf : Bytes) : Hashing Bytes :=
  match depth with
  | 0 => do
    let bytes ← readInput 0 chunks.length chunks
    storeNodes hashTree bytes buf
  | depth + 1 => do
    let (last, buf) ← hashFirstLayer H hashTree chunks buf
    sparseHashLayers H depth 1 hashTree last buf

def treeDepth (limit count : Nat) : Nat := if limit = 0 then log2ceil count else log2ceil limit

/-- `sparse_hash_tree(chunks, byte_length, limit)` -/
def sparseHashTree (H : PairHash) (chunks : Bytes) (limit : Nat) : Hashing Bytes := do
  let count := chunkCount chunks.length
  let depth := treeDepth limit count
  if count = 0 then
    let zero ← zeroHashAt H depth
    return zeros BYTES_PER_CHUNK ++ zero.1
  else
    sparseHashTreeInPlace H 0 chunks depth (zeros (computeHashtreeSize count depth))

/-- `mix_in_length` -/
def mixInLength (H : PairHash) (hash : Chunk) (length : Nat) : Hashing Chunk :=
  hash2Chunks H hash (Chunk.ofBytes (leBytes 8 length))

end Sszpp
