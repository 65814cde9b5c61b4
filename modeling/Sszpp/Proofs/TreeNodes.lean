import Sszpp.Proofs.HashCount
import Sszpp.Proofs.Threads

/-!
# The nodes of the tree

`sparse_hash_tree` returns the whole tree over its input, not only the root: one layer after another,
the lowest first, each without the nodes that have no leaves.
-/

namespace Sszpp

open Library

variable {K : Nat → Prop} (H : PairHash)

/-! ### The layers in the buffer -/

/-- The bytes before `room` stay as they are and the layers above fill it. -/
lemma yields_allLayers (count height : Nat) (hK : ∀ i < height + count, K i) (nodes : List Chunk)
    (pre room : Bytes) (hroom : room.length = layersSize count nodes.length * 32) :
    Yields K (sparseHashLayers H count height pre.length (pre.length + nodes.length * 32)
        (pre ++ bytesOf nodes ++ room))
      (pre ++ bytesOf nodes ++ bytesOf (layers H (zeroNode H) height count nodes)) [] := by
  induction count generalizing height nodes pre room with
  | zero =>
    obtain rfl : room = [] := List.length_eq_zero_iff.mp (by rw [hroom, layersSize, Nat.zero_mul])
    exact yields_pure _
  | succ count ih =>
    rw [layersSize, Nat.add_mul] at hroom
    obtain ⟨old, post, rfl, hold, hpost⟩ := exists_append_of_length hroom
    have hnodes := length_pairUp H (zeroNode H height) nodes
    have hlayer : Yields K (hashLayer H height pre.length (pre.length + nodes.length * 32)
        (pre ++ bytesOf nodes ++ (old ++ post))) _ _ := yields_hashLayer H (hK height (by omega)) post hold
    have hrest := ih (height + 1) (fun i hi => hK i (by omega)) (pairUp H (zeroNode H height) nodes)
      (pre ++ bytesOf nodes) post (by rw [hnodes, hpost])
    rw [hnodes, List.length_append, length_bytesOf] at hrest
    have hall : pre ++ bytesOf nodes ++ bytesOf (layers H (zeroNode H) height (count + 1) nodes) =
        pre ++ bytesOf nodes ++ bytesOf (pairUp H (zeroNode H height) nodes) ++
          bytesOf (layers H (zeroNode H) (height + 1) count (pairUp H (zeroNode H height) nodes)) := by
      rw [layers, bytesOf_append, ← List.append_assoc]
    rw [hall]
    exact (hlayer.bind hrest).mono (List.nil_subset _)

/-- The first layer is at the beginning of the buffer, which has room for exactly the layers. -/
lemma yields_allInPlace {chunks : Bytes} (hne : chunks ≠ []) {depth : Nat} (hK : ∀ i ≤ depth, K i) :
    Yields K (sparseHashTreeInPlace H 0 chunks (depth + 1)
        (zeros (computeHashtreeSize (chunkCount chunks.length) (depth + 1))))
      (bytesOf (layers H (zeroNode H) 0 (depth + 1) (chunksOf chunks))) [] := by
  obtain ⟨k, hk⟩ : ∃ k, k = (chunkCount chunks.length + 1) / 2 := ⟨_, rfl⟩
  have hsize : computeHashtreeSize (chunkCount chunks.length) (depth + 1) =
      k * 32 + layersSize depth k * 32 := by
    rw [computeHashtreeSize, if_neg (Nat.succ_ne_zero depth), hashtreeSizeLoop_eq_layersSize, layersSize,
      ← hk, BYTES_PER_CHUNK, Nat.add_mul]
  have hnodes : (pairUp H zeroHash (chunksOf chunks)).length = k := by
    rw [length_pairUp, length_chunksOf, hk]
  have hfirst : Yields K (hashFirstLayer H ([] : Bytes).length chunks
      ([] ++ zeros (k * 32) ++ zeros (layersSize depth k * 32))) _ _ :=
    yields_hashFirstLayer H hne (by rw [length_zeros, hk])
  have hrest := yields_allLayers (K := K) H depth 1 (fun i hi => hK i (by omega))
    (pairUp H zeroHash (chunksOf chunks)) [] (zeros (layersSize depth k * 32)) (by rw [length_zeros, hnodes])
  rw [hnodes] at hrest
  rw [← hk] at hfirst
  rw [hsize, zeros_add, layers, bytesOf_append]
  exact (hfirst.bind hrest).mono (List.nil_subset _)

/-! ### The tree -/

/-- The chunks of a buffer are the nodes of a tree of the given depth over the leaves, those without
leaves left out: the `i`-th node at height `j + 1` comes after the `j` layers below it and is the root
of the complete tree of that height over its own leaves. -/
structure HoldsNodes (depth : Nat) (leaves : List Chunk) (tree : Bytes) : Prop where
  length : tree.length = layersSize depth leaves.length * 32
  node : ∀ j < depth, ∀ i, i * 2 ^ (j + 1) < leaves.length →
    (chunksOf tree)[layersSize j leaves.length + i]? =
      some (treeRoot H zeroHash (j + 1) ((leaves.drop (i * 2 ^ (j + 1))).take (2 ^ (j + 1))))

lemma holdsNodes_layers {depth : Nat} (hdepth : depth < 42) (leaves : List Chunk) :
    HoldsNodes H depth leaves (bytesOf (layers H (zeroNode H) 0 depth leaves)) where
  length := by rw [length_bytesOf, length_layers]
  node := by
    intro j hj i hi
    have hzero : ∀ k ≤ j + 1, zeroNode H (0 + k) = zeroRoot H zeroHash k := by
      intro k hk
      rw [Nat.zero_add]
      exact zeroNode_eq_zeroRoot H (by omega)
    rw [chunksOf_bytesOf, getElem_layers H (zeroNode H) 0 hj hi, sparseRoot_eq_treeRoot H hzero]

/-- Whatever the input and the limit that holds it, the buffer that `sparse_hash_tree` returns holds
every node of the tree in its place, as long as there is a layer above the leaves. -/
theorem sparseHashTree_nodes {bytes : Bytes} (hne : bytes ≠ []) {limit : Nat}
    (h : LimitHolds limit (chunkCount bytes.length))
    (hdepth : treeDepth limit (chunkCount bytes.length) ≠ 0) :
    ∃ tree events, (sparseHashTree H bytes limit).run = .ok (tree, events) ∧
      HoldsNodes H (treeDepth limit (chunkCount bytes.length)) (chunksOf bytes) tree := by
  have hcount := Nat.ne_of_gt (chunkCount_pos (List.length_pos_of_ne_nil hne))
  have hle := treeDepth_le h.effectiveLimit_le
  obtain ⟨depth, hd⟩ := Nat.exists_eq_succ_of_ne_zero hdepth
  have hyields : Yields (fun _ => True) (sparseHashTree H bytes limit)
      (bytesOf (layers H (zeroNode H) 0 (depth + 1) (chunksOf bytes))) [] := by
    simp only [sparseHashTree]
    rw [if_neg hcount, hd]
    exact yields_allInPlace H hne fun _ _ => trivial
  obtain ⟨events, hrun⟩ := hyields.returns
  refine ⟨_, events, hrun, ?_⟩
  rw [hd]
  exact holdsNodes_layers H (by omega) (chunksOf bytes)

/-- Three chunks and room for five: the layers have two nodes, one and one. -/
theorem sparseHashTree_nodes_sample :
    ∃ tree events, (sparseHashTree samplePlatform.hashtreeHash (zeros 70) 5).run = .ok (tree, events) ∧
      HoldsNodes samplePlatform.hashtreeHash 3 (chunksOf (zeros 70)) tree := by
  have hne : zeros 70 ≠ [] := by decide
  have hlimit : LimitHolds 5 (chunkCount (zeros 70).length) := ⟨by decide, by decide, by decide⟩
  exact sparseHashTree_nodes samplePlatform.hashtreeHash hne hlimit (by decide)

end Sszpp
