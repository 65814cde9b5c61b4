import Sszpp.Model.HashTreeRoot
import Sszpp.Proofs.SparseTree

/-!
# Roots of vectors

Whatever the number of threads and whichever half is hashed first, a vector overload returns the
root of the sparse tree over its leaves: every split cuts the tree at its top.
-/

namespace Sszpp

open Library

variable {α : Type} {K : Nat → Prop} (H : PairHash)

/-! ### The serial path -/

lemma lastChunk_append (made : Bytes) (c : Chunk) : lastChunk (made ++ c.1) = c := by
  have hlen : (made ++ c.1).length - BYTES_PER_CHUNK = made.length := by
    rw [List.length_append, c.2, Nat.add_sub_cancel]
  rw [lastChunk, hlen, List.drop_left, Chunk.ofBytes_self]

lemma chunksOf_of_length_le {bytes : Bytes} (hne : bytes ≠ []) (hle : bytes.length ≤ 32) :
    chunksOf bytes = [Chunk.ofBytes bytes] := by
  rw [chunksOf_of_ne_nil hne, List.drop_eq_nil_of_le hle]
  rfl

/-- A tree of depth 0 is a copy of its one chunk. -/
lemma yields_copiedChunk {bytes : Bytes} (hle : bytes.length ≤ 32) :
    Yields K (do
        let tree ← sparseHashTreeInPlace H 0 bytes 0 (zeros 32)
        return lastChunk tree) (Chunk.ofBytes bytes) [] := by
  have hread : Yields K (readInput 0 bytes.length bytes) ((bytes.drop 0).take bytes.length) [] :=
    yields_readInput (by omega)
  have hstore : Yields K (storeNodes 0 bytes ([] ++ zeros bytes.length ++ zeros (32 - bytes.length)))
      ([] ++ bytes ++ zeros (32 - bytes.length)) [] := yields_storeNodes rfl (by rw [length_zeros])
  rw [List.drop_zero, List.take_length] at hread
  rw [List.nil_append, List.nil_append, ← zeros_add, Nat.add_sub_of_le hle] at hstore
  have hall := (hread.bind (f := fun bytes => storeNodes 0 bytes (zeros 32)) hstore).bind_pure lastChunk
  have hlast : lastChunk (bytes ++ zeros (32 - bytes.length)) = Chunk.ofBytes bytes := by
    rw [lastChunk, List.length_append, length_zeros, Nat.add_sub_of_le hle, Nat.sub_self,
      List.drop_zero, Chunk.ofBytes_append_zeros]
  rw [hlast] at hall
  exact hall.mono (by simp)

/-- The root that one tree buffer ends with. -/
theorem yields_htrLittleEndian {bytes : Bytes} {limit : Nat}
    (hlimit : limit = 0 ∨ (chunksOf bytes).length ≤ limit)
    (hK : ∀ i ≤ treeDepth limit (chunksOf bytes).length, K i) :
    Yields K (htrLittleEndian H bytes limit)
      (sparseRoot H (zeroNode H) (treeDepth limit (chunksOf bytes).length) (chunksOf bytes))
      (treeBlocks H (zeroNode H) (treeDepth limit (chunksOf bytes).length) (chunksOf bytes)) := by
  have hle := le_two_pow_treeDepth hlimit
  rw [length_chunksOf] at hK hle ⊢
  simp only [htrLittleEndian, sparseHashTree]
  by_cases hnil : bytes = []
  · subst hnil
    have hroot := ((yields_zeroHashAt H (hK _ (le_refl _))).bind_pure fun zero =>
      zeros 32 ++ zero.1).bind_pure lastChunk
    rw [lastChunk_append] at hroot
    have hchunks : chunksOf [] = [] := rfl
    rw [hchunks, sparseRoot_nil, treeBlocks_nil]
    exact hroot
  · have hpos := List.length_pos_of_ne_nil hnil
    rw [if_neg (Nat.ne_of_gt (chunkCount_pos hpos))]
    cases hdepth : treeDepth limit (chunkCount bytes.length) with
    | zero =>
      have hbytes : bytes.length ≤ 32 := by
        rw [hdepth] at hle
        change (bytes.length + 31) / 32 ≤ 1 at hle
        omega
      rw [chunksOf_of_length_le hnil hbytes]
      exact yields_copiedChunk H hbytes
    | succ depth =>
      rw [hdepth, ← length_chunksOf] at hle
      have hne : chunksOf bytes ≠ [] := by
        apply List.ne_nil_of_length_pos
        rw [length_chunksOf]
        exact chunkCount_pos hpos
      have hbelow : ∀ i ≤ depth, K i := fun i hi => hK i (by omega)
      obtain ⟨made, htree⟩ := yields_inPlace (K := K) H hnil hbelow
      rw [climb_eq_root H _ 0 _ hne hle] at htree
      have hall := htree.bind_pure lastChunk
      simp only [bytesOf_cons, bytesOf_nil, List.append_nil, lastChunk_append, Nat.zero_add] at hall
      exact hall.mono (by simpa using treeBlocks_subset_climbBlocks H (zeroNode H) 0 (depth + 1) _)

/-! ### Splits -/

/-- Zero hashes up to a deeper root. -/
lemma yields_extendRoot {leaves : List Chunk} (hne : leaves ≠ []) {i : Nat}
    (hle : leaves.length ≤ 2 ^ i) (count : Nat) (hK : ∀ k < i + count, K k) :
    ∃ blocks, Yields K (extendRoot H count i (sparseRoot H (zeroNode H) i leaves))
        (sparseRoot H (zeroNode H) (i + count) leaves) blocks ∧
      treeBlocks H (zeroNode H) (i + count) leaves ⊆ treeBlocks H (zeroNode H) i leaves ++ blocks := by
  induction count generalizing i with
  | zero => exact ⟨[], yields_pure _, by simp⟩
  | succ count ih =>
    have hroot := sparseRoot_succ_of_le H (zeroNode H) hne hle
    have hblocks := treeBlocks_succ_of_le H (zeroNode H) hne hle
    have hpow : leaves.length ≤ 2 ^ (i + 1) := by
      rw [pow_succ]
      omega
    have hend : i + (count + 1) = i + 1 + count := by omega
    rw [hend] at hK ⊢
    obtain ⟨blocks, hyields, hsub⟩ := ih hpow hK
    rw [hroot] at hyields
    refine ⟨_, (yields_zeroHashAt H (hK i (by omega))).bind
      ((yields_hash2Chunks H _ _).bind hyields), ?_⟩
    intro p hp
    have hmem := hsub hp
    rw [hblocks] at hmem
    simp only [List.mem_append, List.mem_cons, List.nil_append, List.not_mem_nil, or_false] at hmem ⊢
    tauto

/-- The leaves of the two halves of a vector are those of the two halves of the tree. -/
def SplitsLeaves (threshold : Nat) (chunkSize : Nat → Nat) (leaves : List α → List Chunk) : Prop :=
  ∀ r, threshold ≤ r.length → ∃ j, 1 ≤ j ∧ chunkSize (bitCeil r.length / 2) = 2 ^ j ∧
    leaves r = leaves (r.take (bitCeil r.length / 2)) ++ leaves (r.drop (bitCeil r.length / 2)) ∧
    (leaves (r.take (bitCeil r.length / 2))).length = 2 ^ j ∧
    0 < (leaves (r.drop (bitCeil r.length / 2))).length ∧
    (leaves (r.drop (bitCeil r.length / 2))).length ≤ 2 ^ j

lemma treeDepth_two_pow (j count : Nat) : treeDepth (2 ^ j) count = j := by
  have hpos : 0 < 2 ^ j := Nat.pow_pos (by decide)
  rw [treeDepth, if_neg (by omega), log2ceil_eq_clog, Nat.clog_pow 2 j (by decide)]

/-- The depth of a tree that is split at depth `j`. -/
lemma treeDepth_of_split {limit count j : Nat} (hlimit : limit = 0 ∨ count ≤ limit)
    (hlt : 2 ^ j < count) (hle : count ≤ 2 ^ (j + 1)) :
    treeDepth limit count = j + 1 + (log2ceil limit - (j + 1)) := by
  have hcount : Nat.clog 2 count = j + 1 :=
    le_antisymm (Nat.clog_le_of_le_pow hle) ((Nat.lt_clog_iff_pow_lt (by decide)).mpr hlt)
  unfold treeDepth
  split
  · rename_i hzero
    rw [log2ceil_eq_clog, hcount, hzero, log2ceil, if_pos rfl, Nat.zero_sub, Nat.add_zero]
  · rename_i hne
    have hmono := Nat.clog_mono_right 2 (hlimit.resolve_left hne)
    rw [log2ceil_eq_clog]
    omega

/-- The order of the two halves makes no difference. -/
lemma yields_halves {x y : Hashing Chunk} {a b : Chunk} {blocks blocks' : List (Chunk × Chunk)}
    (lastFirst : Bool) (hx : Yields K x a blocks) (hy : Yields K y b blocks') :
    Yields K (if lastFirst then do
        let right ← y
        let left ← x
        return (left, right)
      else do
        let left ← x
        let right ← y
        return (left, right)) (a, b) (blocks ++ blocks') := by
  split
  · exact (hy.bind (hx.bind_pure fun left => (left, b))).mono (by simp)
  · exact hx.bind (hy.bind_pure fun right => (a, right))

/-- The roots of two halves of depth `j`, joined and extended to the depth of the limit. -/
lemma yields_join {limit j : Nat} {leaves left right : List Chunk} (happend : leaves = left ++ right)
    (hleft : left.length = 2 ^ j) (hpos : 0 < right.length) (hright : right.length ≤ 2 ^ j)
    (hlimit : limit = 0 ∨ leaves.length ≤ limit) (hK : ∀ i ≤ treeDepth limit leaves.length, K i)
    {halves : Hashing (Chunk × Chunk)}
    (hhalves : Yields K halves
      (sparseRoot H (zeroNode H) j left, sparseRoot H (zeroNode H) j right)
      (treeBlocks H (zeroNode H) j left ++ treeBlocks H (zeroNode H) j right)) :
    Yields K (do
        let (left, right) ← halves
        let result ← hash2Chunks H left right
        extendRoot H (log2ceil limit - (j + 1)) (j + 1) result)
      (sparseRoot H (zeroNode H) (treeDepth limit leaves.length) leaves)
      (treeBlocks H (zeroNode H) (treeDepth limit leaves.length) leaves) := by
  have hlen : leaves.length = 2 ^ j + right.length := by rw [happend, List.length_append, hleft]
  have hdepth := treeDepth_of_split (j := j) hlimit (by omega) (by rw [pow_succ]; omega)
  have hne : leaves ≠ [] := List.ne_nil_of_length_pos (by omega)
  have htake : leaves.take (2 ^ j) = left := by rw [happend, ← hleft, List.take_left]
  have hdrop : leaves.drop (2 ^ j) = right := by rw [happend, ← hleft, List.drop_left]
  have htop := sparseRoot_of_ne_nil H (zeroNode H) j hne
  have hblocks := treeBlocks_of_ne_nil H (zeroNode H) j hne
  rw [htake, hdrop] at htop hblocks
  obtain ⟨blocks, hextend, hsub⟩ := yields_extendRoot (K := K) H hne
    (i := j + 1) (by rw [pow_succ]; omega) (log2ceil limit - (j + 1)) (fun i hi => hK i (by omega))
  rw [htop] at hextend
  rw [hdepth]
  refine (hhalves.bind ((yields_hash2Chunks H _ _).bind hextend)).mono fun p hp => ?_
  have hmem := hsub hp
  rw [hblocks] at hmem
  simp only [List.mem_append, List.mem_cons, List.not_mem_nil, or_false] at hmem ⊢
  tauto

variable (P : Platform)

/-- The recursion of the vector overloads, from what their serial path returns. -/
theorem yields_hashVector {threshold : Nat} {chunkSize : Nat → Nat} {leaves : List α → List Chunk}
    (hsplit : SplitsLeaves threshold chunkSize leaves) {serial : List α → Nat → Hashing Chunk}
    {whole : List α}
    (hserial : ∀ r ⊆ whole, ∀ limit, (limit = 0 ∨ (leaves r).length ≤ limit) →
      (∀ i ≤ treeDepth limit (leaves r).length, K i) →
      Yields K (serial r limit)
        (sparseRoot P.hashtreeHash (zeroNode P.hashtreeHash) (treeDepth limit (leaves r).length) (leaves r))
        (treeBlocks P.hashtreeHash (zeroNode P.hashtreeHash) (treeDepth limit (leaves r).length) (leaves r)))
    (s : Schedule) {r : List α} (hr : r ⊆ whole) (cpuCount : Nat) {limit : Nat}
    (hlimit : limit = 0 ∨ (leaves r).length ≤ limit)
    (hK : ∀ i ≤ treeDepth limit (leaves r).length, K i) :
    Yields K (hashVector P threshold chunkSize serial s r cpuCount limit)
      (sparseRoot P.hashtreeHash (zeroNode P.hashtreeHash) (treeDepth limit (leaves r).length) (leaves r))
      (treeBlocks P.hashtreeHash (zeroNode P.hashtreeHash) (treeDepth limit (leaves r).length) (leaves r)) := by
  induction hcpus : P.cpus cpuCount using Nat.strong_induction_on generalizing s r cpuCount limit with
  | _ cpus ih =>
    rw [hashVector, hcpus]
    by_cases hserially : cpus < 2 ∨ r.length < threshold
    · rw [if_pos hserially]
      exact hserial r hr limit hlimit hK
    · rw [if_neg hserially]
      rw [not_or, not_lt, not_lt] at hserially
      obtain ⟨j, -, hsize, happend, hfirst, hpos, hlast⟩ := hsplit r hserially.2
      have hlen : (leaves r).length = 2 ^ j + (leaves (r.drop (bitCeil r.length / 2))).length := by
        rw [happend, List.length_append, hfirst]
      have hdepth := treeDepth_of_split (j := j) hlimit (by omega) (by rw [pow_succ]; omega)
      have hbelow : ∀ i ≤ treeDepth (2 ^ j) (leaves (r.take (bitCeil r.length / 2))).length, K i := by
        rw [treeDepth_two_pow]
        exact fun i hi => hK i (by omega)
      have hbelow' : ∀ i ≤ treeDepth (2 ^ j) (leaves (r.drop (bitCeil r.length / 2))).length, K i := by
        rw [treeDepth_two_pow]
        exact fun i hi => hK i (by omega)
      have hleft := ih _ (P.cpus_half_lt hserially.1) s.first
        (fun _ hx => hr (List.mem_of_mem_take hx)) (cpus / 2) (.inr (le_of_eq hfirst)) hbelow rfl
      have hright := ih _ (P.cpus_half_lt hserially.1) s.second
        (fun _ hx => hr (List.mem_of_mem_drop hx)) (cpus / 2) (.inr hlast) hbelow' rfl
      rw [treeDepth_two_pow] at hleft hright
      simp only [hsize, log2ceil_eq_clog (2 ^ j), Nat.clog_pow 2 j (by decide)]
      exact yields_join P.hashtreeHash happend hfirst hpos hlast hlimit hK
        (yields_halves s.lastFirst hleft hright)

/-! ### The three overloads -/

lemma bitCeil_half {n : Nat} (h : 2 ≤ n) : ∃ k, bitCeil n / 2 = 2 ^ k ∧ 2 ^ k < n ∧ n ≤ 2 ^ (k + 1) := by
  have hpos : ¬ bitWidth (n - 1) ≤ 0 := by
    rw [bitWidth_le_iff, pow_zero]
    omega
  obtain ⟨k, hk⟩ : ∃ k, bitWidth (n - 1) = k + 1 := ⟨bitWidth (n - 1) - 1, by omega⟩
  have hlt : n - 1 < 2 ^ (k + 1) := bitWidth_le_iff.mp (le_of_eq hk)
  have hge : ¬ n - 1 < 2 ^ k := by
    rw [← bitWidth_le_iff, hk]
    omega
  refine ⟨k, ?_, by omega, by omega⟩
  rw [bitCeil, if_neg (by omega), hk, pow_succ, Nat.mul_div_cancel _ (by decide)]

/-- Elements of one width, packed. -/
lemma splitsLeaves_packed {threshold t : Nat} (ht : t ≤ 5) {f : α → Bytes}
    (hf : ∀ x, (f x).length = 2 ^ t) (hthreshold : 128 ≤ threshold * 2 ^ t) :
    SplitsLeaves threshold (fun halfSize => (halfSize * 2 ^ t + BYTES_PER_CHUNK - 1) / BYTES_PER_CHUNK)
      fun r : List α => chunksOf (r.flatMap f) := by
  intro r hr
  have hlen : ∀ r : List α, (r.flatMap f).length = r.length * 2 ^ t :=
    fun r => length_flatMap_const f r fun x _ => hf x
  have hwide : 128 ≤ r.length * 2 ^ t := le_trans hthreshold (Nat.mul_le_mul_right _ hr)
  have hwidth : 2 ^ t ≤ 2 ^ 5 := Nat.pow_le_pow_right (by decide) ht
  have htwo : 2 ≤ r.length := by
    by_contra hlt
    have hle : r.length * 2 ^ t ≤ 1 * 2 ^ 5 := Nat.mul_le_mul (by omega) hwidth
    omega
  obtain ⟨k, hhalf, hgt, hle⟩ := bitCeil_half htwo
  have hk : 7 ≤ k + 1 + t := by
    have hpow : 2 ^ 7 ≤ 2 ^ (k + 1 + t) := by
      rw [pow_add]
      exact le_trans hwide (Nat.mul_le_mul_right _ hle)
    exact (Nat.pow_le_pow_iff_right (by decide)).mp hpow
  obtain ⟨j, hj⟩ : ∃ j, k + t = j + 5 := ⟨k + t - 5, by omega⟩
  have hbytes : 2 ^ k * 2 ^ t = 2 ^ j * 32 := by
    rw [← pow_add, hj, pow_add]
    rfl
  have htake : (r.take (2 ^ k)).length = 2 ^ k := List.length_take_of_le (le_of_lt hgt)
  have hrest : (r.drop (2 ^ k)).length = r.length - 2 ^ k := List.length_drop
  have hrestle : (r.length - 2 ^ k) * 2 ^ t ≤ 2 ^ j * 32 := by
    rw [← hbytes]
    rw [pow_succ] at hle
    exact Nat.mul_le_mul_right _ (by omega)
  have hrestpos : 0 < (r.length - 2 ^ k) * 2 ^ t :=
    Nat.mul_pos (by omega) (Nat.pow_pos (by decide))
  refine ⟨j, by omega, ?_, ?_, ?_, ?_, ?_⟩
  · simp only [hhalf, hbytes, BYTES_PER_CHUNK]
    omega
  · rw [hhalf, ← chunksOf_append (by rw [hlen, htake, hbytes]; omega), ← List.flatMap_append,
      List.take_append_drop]
  · rw [hhalf, length_chunksOf, hlen, htake, hbytes]
    change (2 ^ j * 32 + 31) / 32 = 2 ^ j
    omega
  · rw [hhalf, length_chunksOf, hlen, hrest]
    exact chunkCount_pos hrestpos
  · rw [hhalf, length_chunksOf, hlen, hrest]
    change ((r.length - 2 ^ k) * 2 ^ t + 31) / 32 ≤ 2 ^ j
    omega

/-- One leaf for each element. -/
lemma splitsLeaves_map (f : α → Chunk) : SplitsLeaves 4 (fun halfSize => halfSize) (List.map f) := by
  intro r hr
  obtain ⟨k, hhalf, hgt, hle⟩ := bitCeil_half (by omega : 2 ≤ r.length)
  rw [pow_succ] at hle
  have hk : 1 ≤ k := by
    by_contra hzero
    obtain rfl : k = 0 := by omega
    omega
  refine ⟨k, hk, hhalf, ?_, ?_, ?_, ?_⟩
  · rw [← List.map_append, List.take_append_drop]
  · rw [List.length_map, hhalf, List.length_take_of_le (le_of_lt hgt)]
  · rw [List.length_map, hhalf, List.length_drop]
    omega
  · rw [List.length_map, hhalf, List.length_drop]
    omega

section Overloads

variable (s : Schedule) (cpuCount : Nat) {limit : Nat}

/-- The root that the code computes over the leaves for a limit. -/
def vectorRoot (H : PairHash) (limit : Nat) (leaves : List Chunk) : Chunk :=
  sparseRoot H (zeroNode H) (treeDepth limit leaves.length) leaves

/-- The blocks that it hashes. -/
def vectorBlocks (H : PairHash) (limit : Nat) (leaves : List Chunk) : List (Chunk × Chunk) :=
  treeBlocks H (zeroNode H) (treeDepth limit leaves.length) leaves

/-- The limit holds the leaves and its depth is one that `K` allows. -/
structure Admits (K : Nat → Prop) (limit count : Nat) : Prop where
  le : limit = 0 ∨ count ≤ limit
  depth : ∀ i ≤ treeDepth limit count, K i

/-- A basic type has 1, 2, 4, 8 or 32 bytes. -/
def BasicLayout.Packs (layout : BasicLayout α) : Prop := ∃ t ≤ 5, layout.sizeof = 2 ^ t

lemma BasicType.layout_packs (b : BasicType) : b.layout.Packs := by
  cases b with
  | uint8 => exact ⟨0, by decide, rfl⟩
  | uint16 => exact ⟨1, by decide, rfl⟩
  | uint32 => exact ⟨2, by decide, rfl⟩
  | uint64 => exact ⟨3, by decide, rfl⟩
  | boolean => exact ⟨0, by decide, rfl⟩
  | byte => exact ⟨0, by decide, rfl⟩
  | uint256 => exact ⟨5, by decide, rfl⟩

lemma SszType.layout_packs {e : SszType α} {layout : BasicLayout α} (h : e.basicLayout = some layout) :
    layout.Packs := by
  cases e with
  | basic b =>
    cases h
    exact b.layout_packs
  | _ => cases h

lemma BasicLayout.Packs.splitsLeaves {layout : BasicLayout α} (h : layout.Packs) :
    SplitsLeaves (4 * BYTES_PER_CHUNK)
      (fun halfSize => (halfSize * layout.sizeof + BYTES_PER_CHUNK - 1) / BYTES_PER_CHUNK)
      fun r : List α => chunksOf (r.flatMap layout.toBytes) := by
  obtain ⟨t, ht, hsize⟩ := h
  have hthreshold : 128 ≤ 4 * BYTES_PER_CHUNK * 2 ^ t := by
    have hpos : 0 < 2 ^ t := Nat.pow_pos (by decide)
    simp only [BYTES_PER_CHUNK]
    omega
  rw [hsize]
  exact splitsLeaves_packed ht (fun x => (layout.length_toBytes x).trans hsize) hthreshold

lemma splitsLeaves_roots {rootBytes : α → Bytes} (hlen : ∀ x, (rootBytes x).length = 32) :
    SplitsLeaves 4 (fun halfSize => halfSize) fun r : List α => chunksOf (r.flatMap rootBytes) := by
  have hsplit := splitsLeaves_packed (le_refl 5) hlen (by decide : 128 ≤ 4 * 2 ^ 5)
  have hsize : (fun halfSize => (halfSize * 2 ^ 5 + BYTES_PER_CHUNK - 1) / BYTES_PER_CHUNK) =
      fun halfSize => halfSize := by
    funext halfSize
    simp only [BYTES_PER_CHUNK]
    omega
  rwa [hsize] at hsplit

lemma yields_basicVector {layout : BasicLayout α} (hpacks : layout.Packs) (r : List α)
    (hadmits : Admits K limit (chunksOf (r.flatMap layout.toBytes)).length) :
    Yields K (hashTreeRootBasicVector P s layout r cpuCount limit)
      (vectorRoot P.hashtreeHash limit (chunksOf (r.flatMap layout.toBytes)))
      (vectorBlocks P.hashtreeHash limit (chunksOf (r.flatMap layout.toBytes))) := by
  exact yields_hashVector P hpacks.splitsLeaves (fun r _ limit hlimit hK => yields_htrLittleEndian _ hlimit hK) s
    (List.Subset.refl r) cpuCount hadmits.le hadmits.depth

lemma toBytes_byte (x : Byte) : BasicType.byte.toBytes x = [x] := by
  have h := leBytes_leNat [x]
  simpa [BasicType.toBytes, BasicType.sizeof, BasicType.toNumber, leNat] using h

lemma flatMap_byteLayout (bytes : Bytes) : bytes.flatMap byteLayout.toBytes = bytes := by
  induction bytes with
  | nil => rfl
  | cons x xs ih =>
    have hx : byteLayout.toBytes x = [x] := toBytes_byte x
    rw [List.flatMap_cons, ih, hx, List.singleton_append]

lemma yields_bytes (bytes : Bytes) (hadmits : Admits K limit (chunksOf bytes).length) :
    Yields K (hashTreeRootBytes P s bytes cpuCount limit)
      (vectorRoot P.hashtreeHash limit (chunksOf bytes))
      (vectorBlocks P.hashtreeHash limit (chunksOf bytes)) := by
  have hflat := flatMap_byteLayout bytes
  rw [← hflat] at hadmits
  have hpacks : byteLayout.Packs := BasicType.byte.layout_packs
  have h := yields_basicVector P s cpuCount hpacks bytes hadmits
  rwa [hflat] at h

lemma yields_rootVector {rootBytes : α → Bytes} (hlen : ∀ x, (rootBytes x).length = 32) (r : List α)
    (hadmits : Admits K limit (chunksOf (r.flatMap rootBytes)).length) :
    Yields K (hashTreeRootRootVector P s rootBytes r cpuCount limit)
      (vectorRoot P.hashtreeHash limit (chunksOf (r.flatMap rootBytes)))
      (vectorBlocks P.hashtreeHash limit (chunksOf (r.flatMap rootBytes))) := by
  exact yields_hashVector P (splitsLeaves_roots hlen)
    (fun r _ limit hlimit hK => yields_htrLittleEndian _ hlimit hK) s (List.Subset.refl r) cpuCount
    hadmits.le hadmits.depth

/-- The roots of the elements. -/
lemma yields_elementRoots {root : α → Hashing Chunk} {f : α → Chunk} {r : List α}
    (hroot : ∀ x ∈ r, Yields K (root x) (f x) []) :
    Yields K (elementRoots root r) (bytesOf (r.map f)) [] := by
  induction r with
  | nil => exact yields_pure []
  | cons x xs ih =>
    have htail := (ih fun y hy => hroot y (List.mem_cons_of_mem _ hy)).bind_pure fun cs => (f x).1 ++ cs
    exact (hroot x (by simp)).bind htail

lemma yields_vector {root : α → Hashing Chunk} {f : α → Chunk} {r : List α}
    (hroot : ∀ x ∈ r, Yields K (root x) (f x) []) (hadmits : Admits K limit (r.map f).length) :
    Yields K (hashTreeRootVector P s root r cpuCount limit)
      (vectorRoot P.hashtreeHash limit (r.map f)) (vectorBlocks P.hashtreeHash limit (r.map f)) := by
  refine yields_hashVector P (splitsLeaves_map f) (fun r' hr' limit hlimit hK => ?_) s
    (List.Subset.refl r) cpuCount hadmits.le hadmits.depth
  have hchunks := chunksOf_bytesOf (r'.map f)
  have hadmits' : Admits K limit (chunksOf (bytesOf (r'.map f))).length := by
    rw [hchunks]
    exact ⟨hlimit, hK⟩
  have hbytes := yields_bytes P s 1 (bytesOf (r'.map f)) hadmits'
  rw [hchunks] at hbytes
  exact (yields_elementRoots fun x hx => hroot x (hr' hx)).bind hbytes

end Overloads

end Sszpp
