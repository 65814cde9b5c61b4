import Sszpp.Proofs.Root

/-!
# The number of threads

A vector overload splits its range as long as there are threads. The root is that of the serial
path: both are the root of the complete tree over the chunks of the vector.
-/

namespace Sszpp

open Library

/-- The limit is 0 or holds the chunks, and no tree is deeper than `zero_hash_array` is long. -/
structure LimitHolds (limit count : Nat) : Prop where
  le : limit = 0 ∨ count ≤ limit
  limit_le : limit ≤ 2 ^ 41
  count_le : count ≤ 2 ^ 41

lemma LimitHolds.effectiveLimit_le {limit count : Nat} (h : LimitHolds limit count) :
    effectiveLimit limit count ≤ 2 ^ 41 := by
  unfold effectiveLimit
  split
  · exact h.count_le
  · exact h.limit_le

lemma LimitHolds.admits {limit count : Nat} (h : LimitHolds limit count) : Admits (· < 42) limit count :=
  .of_bound h.le (fun _ hi => hi) (.inr h.effectiveLimit_le)

/-- Both runs end with the chunk `c`, the first one with every access in range. -/
def AgreesOn (c : Chunk) (parallel serial : Hashing Chunk) : Prop :=
  ∃ events events', parallel.run = .ok (c, events) ∧ serial.run = .ok (c, events') ∧
    ∀ e ∈ events, e.Within (· < 42)

lemma Yields.agreesOn {c : Chunk} {parallel serial : Hashing Chunk} {blocks blocks' : List (Chunk × Chunk)}
    (h : Yields (· < 42) parallel c blocks) (h' : Yields (· < 42) serial c blocks') :
    AgreesOn c parallel serial := by
  obtain ⟨events, hrun, hin, -⟩ := h
  obtain ⟨events', hrun', -, -⟩ := h'
  exact ⟨events, events', hrun, hrun', hin⟩

/-- The root of the tree over the leaves of a vector. -/
def leavesRoot (H : PairHash) (limit : Nat) (leaves : List Chunk) : Chunk :=
  merkleize H leaves (effectiveLimit limit leaves.length)

lemma flatMap_toBytes_byte (bytes : Bytes) : bytes.flatMap BasicType.byte.toBytes = bytes :=
  flatMap_byteLayout bytes

lemma flatMap_rootBytes (r : List Chunk) :
    (r.flatMap fun v => v.1.flatMap BasicType.byte.toBytes) = bytesOf r := by
  simp only [flatMap_toBytes_byte, bytesOf]

variable (P : Platform)

/-- For each of the three vector overloads, whatever the number of threads asked for, the number of
hardware threads and the order of the halves at every split: the recursion ends with the chunk that
one thread ends with, the root over the chunks of the vector. -/
theorem hashTreeRoot_threads (s s' : Schedule) (cpuCount limit : Nat) :
    (∀ (b : BasicType) (r : List b.Val), LimitHolds limit (chunkCount (r.length * b.sizeof)) →
      AgreesOn (leavesRoot P.hashtreeHash limit (chunksOf (r.flatMap b.toBytes)))
        (hashTreeRootBasicVector P s b.layout r cpuCount limit)
        (hashTreeRootBasicVector P s' b.layout r 1 limit)) ∧
    (∀ r : List Chunk, LimitHolds limit r.length →
      AgreesOn (leavesRoot P.hashtreeHash limit r)
        (hashTreeRootRootVector P s (fun v => v.1.flatMap BasicType.byte.toBytes) r cpuCount limit)
        (hashTreeRootRootVector P s' (fun v => v.1.flatMap BasicType.byte.toBytes) r 1 limit)) ∧
    ∀ (α : Type) (root : α → Hashing Chunk) (f : α → Chunk) (r : List α),
      (∀ x ∈ r, Yields (· < 42) (root x) (f x) []) → LimitHolds limit r.length →
      AgreesOn (leavesRoot P.hashtreeHash limit (r.map f))
        (hashTreeRootVector P s root r cpuCount limit) (hashTreeRootVector P s' root r 1 limit) := by
  refine ⟨fun b r h => ?_, fun r h => ?_, fun α root f r hroot h => ?_⟩
  · have hcount : (chunksOf (r.flatMap b.toBytes)).length = chunkCount (r.length * b.sizeof) := by
      rw [length_chunksOf, length_flatMap_const _ _ fun v _ => b.length_toBytes v]
    rw [← hcount] at h
    rw [leavesRoot, ← vectorRoot_eq_merkleize _ h.effectiveLimit_le]
    exact (yields_basicVector P s cpuCount b.layout_packs r h.admits).agreesOn
      (yields_basicVector P s' 1 b.layout_packs r h.admits)
  · have hlen : ∀ v : Chunk, (v.1.flatMap BasicType.byte.toBytes).length = 32 := by
      intro v
      rw [flatMap_toBytes_byte, v.2]
    have hchunks : chunksOf (r.flatMap fun v => v.1.flatMap BasicType.byte.toBytes) = r := by
      rw [flatMap_rootBytes, chunksOf_bytesOf]
    have hadmits := h.admits
    rw [leavesRoot, ← vectorRoot_eq_merkleize _ h.effectiveLimit_le]
    rw [← hchunks] at hadmits
    have hroot := fun s cpuCount => yields_rootVector P s cpuCount hlen r hadmits
    rw [hchunks] at hroot
    exact (hroot s cpuCount).agreesOn (hroot s' 1)
  · have hlen : (r.map f).length = r.length := List.length_map f
    rw [← hlen] at h
    rw [leavesRoot, ← vectorRoot_eq_merkleize _ h.effectiveLimit_le]
    exact (yields_vector P s cpuCount hroot h.admits).agreesOn (yields_vector P s' 1 hroot h.admits)

/-- Five roots are split on four threads, the second half first. -/
theorem hashTreeRoot_threads_sample :
    AgreesOn (leavesRoot samplePlatform.hashtreeHash 8 (List.replicate 5 zeroHash))
      (hashTreeRootRootVector samplePlatform (fun _ => true)
        (fun v => v.1.flatMap BasicType.byte.toBytes) (List.replicate 5 zeroHash) 0 8)
      (hashTreeRootRootVector samplePlatform (fun _ => false)
        (fun v => v.1.flatMap BasicType.byte.toBytes) (List.replicate 5 zeroHash) 1 8) :=
  (hashTreeRoot_threads samplePlatform (fun _ => true) (fun _ => false) 0 8).2.1
    (List.replicate 5 zeroHash) ⟨by decide, by decide, by decide⟩

end Sszpp
