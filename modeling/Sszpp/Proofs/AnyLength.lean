import Sszpp.Proofs.BufferSafety
import Sszpp.Proofs.Threads

/-!
# Lists of any length

The decoders let lists with too many elements through. What `hash_tree_root` returns for them depends on
the number of threads: one thread makes the layers of the limit over all chunks and takes the last node,
which is the root of the last block; two threads split the range and join the whole tree.
-/

namespace Sszpp

open Library

variable {α : Type}

/-- The root of the last block of leaves in a tree of the limit: the tree of the limit, if it is large
enough for the leaves. -/
def blockRoot (H : PairHash) (limit : Nat) (leaves : List Chunk) : Chunk :=
  treeRoot H zeroHash (log2ceil limit) (finalBlock (log2ceil limit) leaves)

/-- What a range of any number of leaves is hashed to, without a limit if it is 0. -/
def rangeRoot (H : PairHash) (split : Bool) (limit : Nat) (leaves : List Chunk) : Chunk :=
  if limit = 0 ∨ (split = true ∧ 2 ^ log2ceil limit < leaves.length) then merkleize H leaves leaves.length
  else blockRoot H limit leaves

/-- The bounds of `zero_hash_array`, and room in the buffer of one chunk for what is hashed in one piece. -/
structure RangeBounds (split : Bool) (limit count : Nat) : Prop where
  fits : split = false → limit = 1 → count ≤ 1
  limit_le : limit ≤ 2 ^ 41
  count_le : count ≤ 2 ^ 41

lemma log2ceil_two_pow (j : Nat) : log2ceil (2 ^ j) = j := by rw [log2ceil_eq_clog, Nat.clog_pow 2 j (by decide)]

lemma log2ceil_le {limit : Nat} (h : limit ≤ 2 ^ 41) : log2ceil limit ≤ 41 := by
  rw [log2ceil_eq_clog]
  exact Nat.clog_le_of_le_pow h

lemma le_two_pow_log2ceil (n : Nat) : n ≤ 2 ^ log2ceil n := by
  rw [log2ceil_eq_clog]
  exact Nat.le_pow_clog (by decide) n

lemma treeDepth_of_two_le {limit : Nat} (h : 2 ≤ limit) (count : Nat) : treeDepth limit count = log2ceil limit := by
  rw [treeDepth, if_neg (by omega)]

lemma zeroNode_of_le {H : PairHash} {limit i : Nat} (h : limit ≤ 2 ^ 41) (hi : i ≤ log2ceil limit) :
    zeroNode H i = zeroRoot H zeroHash i := by
  have hdepth := log2ceil_le h
  exact zeroNode_eq_zeroRoot H (by omega)

lemma blockRoot_of_le (H : PairHash) {limit : Nat} {leaves : List Chunk} (h : leaves.length ≤ 2 ^ log2ceil limit) :
    blockRoot H limit leaves = treeRoot H zeroHash (log2ceil limit) leaves := by
  have hpos : 0 < 2 ^ log2ceil limit := Nat.pow_pos (by decide)
  have hzero : (leaves.length - 1) / 2 ^ log2ceil limit = 0 := Nat.div_eq_of_lt (by omega)
  rw [blockRoot, finalBlock, hzero, Nat.zero_mul, List.drop_zero]

/-- Up to the size of the tree of the limit nothing else counts. -/
lemma rangeRoot_of_le (H : PairHash) (split : Bool) {limit : Nat} {leaves : List Chunk}
    (h : leaves.length ≤ 2 ^ log2ceil limit) : rangeRoot H split limit leaves = merkleize H leaves limit := by
  unfold rangeRoot
  split
  · rename_i hcase
    obtain rfl : limit = 0 := hcase.resolve_right fun hover => Nat.not_lt.mpr h hover.2
    have hdepth : leafDepth leaves.length = leafDepth 0 := Nat.clog_of_right_le_one h 2
    rw [merkleize_eq_treeRoot, merkleize_eq_treeRoot, hdepth]
  · rw [blockRoot_of_le H h, merkleize_eq_treeRoot, leafDepth, log2ceil_eq_clog]

lemma vectorRoot_of_holds (H : PairHash) (split : Bool) {limit : Nat} {leaves : List Chunk}
    (h : LimitHolds limit leaves.length) : vectorRoot H limit leaves = rangeRoot H split limit leaves := by
  rw [vectorRoot_eq_merkleize H h.effectiveLimit_le]
  by_cases hzero : limit = 0
  · rw [hzero, effectiveLimit_zero, rangeRoot, if_pos (.inl rfl)]
  · have hle := h.le.resolve_left hzero
    rw [effectiveLimit_of_le hle, rangeRoot_of_le H split (hle.trans (le_two_pow_log2ceil limit))]

/-! ### One tree buffer -/

/-- The last node of the buffer, whatever the number of chunks. -/
lemma yields_lastNode_of_ne_nil (H : PairHash) {bytes : Bytes} (hne : bytes ≠ []) {limit : Nat}
    (htwo : 2 ≤ limit) (hlimit : limit ≤ 2 ^ 41) :
    Yields (· < 42) (htrLittleEndian H bytes limit) (blockRoot H limit (chunksOf bytes)) [] := by
  have hdepthpos : 0 < log2ceil limit := by
    rw [log2ceil_eq_clog]
    exact Nat.clog_pos (by decide) htwo
  obtain ⟨depth, hdepth⟩ := Nat.exists_eq_succ_of_ne_zero (Nat.ne_of_gt hdepthpos)
  have hle := log2ceil_le hlimit
  have hcount := chunkCount_pos (List.length_pos_of_ne_nil hne)
  have hchunks : chunksOf bytes ≠ [] := by
    apply List.ne_nil_of_length_pos
    rwa [length_chunksOf]
  have hzero : ∀ k ≤ depth + 1, zeroNode H (0 + k) = zeroRoot H zeroHash k := by
    intro k hk
    rw [Nat.zero_add]
    exact zeroNode_of_le hlimit (hdepth ▸ hk)
  have hbelow : ∀ i ≤ depth, i < 42 := fun i hi => by omega
  obtain ⟨made, htree⟩ := yields_inPlace H hne hbelow
  obtain ⟨init, hclimb⟩ := climb_ends H (zeroNode H) 0 (depth + 1) hchunks
  have hroot : sparseRoot H (fun i => zeroNode H (0 + i)) (depth + 1) (finalBlock (depth + 1) (chunksOf bytes)) =
      blockRoot H limit (chunksOf bytes) := by
    rw [sparseRoot_eq_treeRoot H hzero, blockRoot, hdepth]
  rw [hclimb, hroot, bytesOf_append, bytesOf_cons, bytesOf_nil, List.append_nil, ← List.append_assoc] at htree
  have hall := htree.bind_pure lastChunk
  rw [lastChunk_append] at hall
  simp only [htrLittleEndian, sparseHashTree]
  rw [if_neg (Nat.ne_of_gt hcount), treeDepth_of_two_le htwo, hdepth]
  exact hall.mono (List.nil_subset _)

lemma yields_htrLittleEndian_any (H : PairHash) (bytes : Bytes) {limit : Nat} (htwo : 2 ≤ limit)
    (hlimit : limit ≤ 2 ^ 41) :
    Yields (· < 42) (htrLittleEndian H bytes limit) (blockRoot H limit (chunksOf bytes)) [] := by
  by_cases hne : bytes = []
  · subst hne
    have hbound : LimitHolds limit (chunksOf []).length := ⟨.inr (Nat.zero_le _), hlimit, Nat.zero_le _⟩
    have hempty := yields_htrLittleEndian H hbound.admits.le hbound.admits.depth
    rw [← vectorRoot, vectorRoot_of_holds H false hbound, rangeRoot_of_le H false (Nat.zero_le _),
      merkleize_eq_treeRoot, leafDepth, ← log2ceil_eq_clog] at hempty
    rw [blockRoot_of_le H (Nat.zero_le _)]
    exact hempty.mono (List.nil_subset _)
  · exact yields_lastNode_of_ne_nil H hne htwo hlimit

/-! ### Ranges -/

/-- The range is hashed by two threads. -/
def Platform.splits (P : Platform) (cpuCount threshold length : Nat) : Bool :=
  decide (2 ≤ P.cpus cpuCount ∧ threshold ≤ length)

lemma Platform.splits_iff (P : Platform) (cpuCount threshold length : Nat) :
    P.splits cpuCount threshold length = true ↔ ¬ (P.cpus cpuCount < 2 ∨ length < threshold) := by
  rw [Platform.splits, decide_eq_true_iff]
  omega

lemma FitsLimit.rangeBounds {P : Platform} {layout : Option (BasicLayout α)} {f : α → Chunk} {r : List α}
    {limit cpuCount : Nat} (h : FitsLimit P layout limit cpuCount r.length) (hlimit : limit ≤ 2 ^ 41)
    (hcount : (leavesOf layout f r).length ≤ 2 ^ 41) :
    RangeBounds (P.splits cpuCount (splitThreshold layout) r.length) limit (leavesOf layout f r).length where
  fits := by
    intro hsplit hone
    have hserially : P.cpus cpuCount < 2 ∨ r.length < splitThreshold layout := by
      by_contra hsplits
      rw [(P.splits_iff _ _ _).mpr hsplits] at hsplit
      cases hsplit
    have hbytes := h hone hserially
    cases layout with
    | some layout =>
      rw [leavesOf, length_chunksOf, length_flatMap_const _ _ fun x _ => layout.length_toBytes x]
      change r.length * layout.sizeof ≤ 32 at hbytes
      change (r.length * layout.sizeof + 31) / 32 ≤ 1
      omega
    | none =>
      rw [leavesOf, List.length_map]
      change r.length * 32 ≤ 32 at hbytes
      omega
  limit_le := hlimit
  count_le := hcount

section Ranges

variable (P : Platform) {threshold : Nat} {chunkSize : Nat → Nat} {leaves : List α → List Chunk}
  {serial : List α → Nat → Hashing Chunk} (s : Schedule) {r : List α} {cpuCount limit : Nat}

/-- The halves are as deep as the limit asks for: nothing is left for the loop after the split. -/
lemma hashVector_of_over (hsplit : SplitsLeaves threshold chunkSize leaves)
    (hover : 2 ^ log2ceil limit < (leaves r).length)
    (hsplits : ¬ (P.cpus cpuCount < 2 ∨ r.length < threshold)) :
    hashVector P threshold chunkSize serial s r cpuCount limit =
      hashVector P threshold chunkSize serial s r cpuCount 0 := by
  have hlarge : threshold ≤ r.length := by omega
  obtain ⟨j, -, hsize, happend, hfirst, -, hlast⟩ := hsplit r hlarge
  have hcount : (leaves r).length ≤ 2 ^ (j + 1) := by
    rw [happend, List.length_append, hfirst, pow_succ]
    omega
  have hdepth : log2ceil limit < j + 1 := (Nat.pow_lt_pow_iff_right (by decide)).mp (hover.trans_le hcount)
  have hnone : log2ceil limit - (j + 1) = log2ceil 0 - (j + 1) := by
    rw [Nat.sub_eq_zero_of_le (le_of_lt hdepth), log2ceil, if_pos rfl, Nat.zero_sub]
  rw [hashVector.eq_1 P threshold chunkSize serial s r cpuCount limit,
    hashVector.eq_1 P threshold chunkSize serial s r cpuCount 0, if_neg hsplits, if_neg hsplits]
  simp only [hsize, log2ceil_two_pow, hnone]

/-- After a split only the depth of the limit counts. -/
lemma hashVector_of_split (hsplits : ¬ (P.cpus cpuCount < 2 ∨ r.length < threshold)) :
    hashVector P threshold chunkSize serial s r cpuCount limit =
      hashVector P threshold chunkSize serial s r cpuCount (2 ^ log2ceil limit) := by
  rw [hashVector.eq_1 P threshold chunkSize serial s r cpuCount limit,
    hashVector.eq_1 P threshold chunkSize serial s r cpuCount (2 ^ log2ceil limit), if_neg hsplits, if_neg hsplits]
  simp only [log2ceil_two_pow]

/-- The cases: a limit that holds the leaves, one tree buffer, halves in a tree that is large enough, halves
in a tree that is not. -/
lemma yields_hashVector_any (hsplit : SplitsLeaves threshold chunkSize leaves)
    (h : RangeBounds (P.splits cpuCount threshold r.length) limit (leaves r).length)
    (hserial : 2 ≤ limit → Yields (· < 42) (serial r limit) (blockRoot P.hashtreeHash limit (leaves r)) [])
    (hadmits : ∀ limit', Admits (· < 42) limit' (leaves r).length →
      Yields (· < 42) (hashVector P threshold chunkSize serial s r cpuCount limit')
        (vectorRoot P.hashtreeHash limit' (leaves r)) []) :
    Yields (· < 42) (hashVector P threshold chunkSize serial s r cpuCount limit)
      (rangeRoot P.hashtreeHash (P.splits cpuCount threshold r.length) limit (leaves r)) [] := by
  by_cases hholds : limit = 0 ∨ (leaves r).length ≤ limit
  · have hbound : LimitHolds limit (leaves r).length := ⟨hholds, h.limit_le, h.count_le⟩
    rw [← vectorRoot_of_holds P.hashtreeHash _ hbound]
    exact hadmits limit hbound.admits
  rw [not_or, not_le] at hholds
  by_cases hserially : P.cpus cpuCount < 2 ∨ r.length < threshold
  · have hone : P.splits cpuCount threshold r.length = false := by
      rw [← Bool.not_eq_true, P.splits_iff]
      exact not_not.mpr hserially
    have htwo : 2 ≤ limit := by
      by_contra hlt
      have hle := h.fits hone (by omega)
      omega
    rw [hashVector, if_pos hserially, rangeRoot, hone, if_neg (by simp [hholds.1])]
    exact hserial htwo
  by_cases hover : 2 ^ log2ceil limit < (leaves r).length
  · have hsplits := (P.splits_iff cpuCount threshold r.length).mpr hserially
    have hbound : LimitHolds 0 (leaves r).length := ⟨.inl rfl, Nat.zero_le _, h.count_le⟩
    have hyields := hadmits 0 hbound.admits
    rw [vectorRoot_eq_merkleize _ hbound.effectiveLimit_le, effectiveLimit_zero] at hyields
    rw [hashVector_of_over P s hsplit hover hserially, rangeRoot, if_pos (.inr ⟨hsplits, hover⟩)]
    exact hyields
  · have hle : (leaves r).length ≤ 2 ^ log2ceil limit := not_lt.mp hover
    have hpow : 2 ^ log2ceil limit ≤ 2 ^ 41 := Nat.pow_le_pow_right (by decide) (log2ceil_le h.limit_le)
    have hbound : LimitHolds (2 ^ log2ceil limit) (leaves r).length := ⟨.inr hle, hpow, h.count_le⟩
    have hyields := hadmits _ hbound.admits
    rw [vectorRoot_of_holds _ false hbound, rangeRoot_of_le _ _ (by rwa [log2ceil_two_pow]), merkleize_eq_treeRoot,
      leafDepth, Nat.clog_pow 2 _ (by decide)] at hyields
    rw [hashVector_of_split P s hserially, rangeRoot_of_le _ _ hle, merkleize_eq_treeRoot, leafDepth,
      ← log2ceil_eq_clog]
    exact hyields

end Ranges

/-! ### The overloads -/

variable (P : Platform)

section Overloads

variable (s : Schedule) (cpuCount : Nat)

/-- The bytes of the roots of the elements are hashed by one thread. -/
lemma yields_bytes_any (bytes : Bytes) {limit : Nat} (htwo : 2 ≤ limit) (hlimit : limit ≤ 2 ^ 41) :
    Yields (· < 42) (hashTreeRootBytes P s bytes 1 limit) (blockRoot P.hashtreeHash limit (chunksOf bytes)) [] := by
  have hcpus : P.cpus 1 = 1 := rfl
  rw [hashTreeRootBytes, hashTreeRootBasicVector, hashVector, hcpus, if_pos (.inl Nat.one_lt_two),
    flatMap_byteLayout]
  exact yields_htrLittleEndian_any P.hashtreeHash bytes htwo hlimit

/-- Objects of type `Root` are their own leaves. -/
lemma SszType.chunksOf_roots {e : SszType α} {rootBytes : α → Bytes} (h : e.rootBytes = some rootBytes) (H : PairHash)
    (r : List α) : chunksOf (r.flatMap rootBytes) = r.map (e.root H) := by
  have hfacts := SszType.rootBytes_eq_some h
  rw [chunksOf, pieces_flatMap (by decide) _ _ fun x _ => (hfacts x).1, List.map_map]
  apply List.map_congr_left
  intro x _
  rw [(hfacts x).2.2, Function.comp_apply]

lemma SszType.yields_range_any {e : SszType α} {root : α → Hashing Chunk} {f : α → Chunk} {r : List α}
    (hroot : ∀ x ∈ r, Yields (· < 42) (root x) (f x) [])
    (hvalue : ∀ x ∈ r, ∀ rootBytes, e.rootBytes = some rootBytes → f x = e.root P.hashtreeHash x) {limit : Nat}
    (h : RangeBounds (P.splits cpuCount (splitThreshold e.basicLayout) r.length) limit
      (leavesOf e.basicLayout f r).length) :
    Yields (· < 42) (hashTreeRootRange P s e.basicLayout e.rootBytes root r cpuCount limit)
      (rangeRoot P.hashtreeHash (P.splits cpuCount (splitThreshold e.basicLayout) r.length) limit
        (leavesOf e.basicLayout f r)) [] := by
  cases hlayout : e.basicLayout with
  | some layout =>
    have hpacks := SszType.layout_packs hlayout
    rw [hlayout] at h
    exact yields_hashVector_any P s hpacks.splitsLeaves h
      (fun htwo => yields_htrLittleEndian_any P.hashtreeHash _ htwo h.limit_le)
      fun limit' hadmits => (yields_basicVector P s cpuCount hpacks r hadmits).mono (List.nil_subset _)
  | none =>
    rw [hlayout] at h
    cases hbytes : e.rootBytes with
    | some rootBytes =>
      have hmap : chunksOf (r.flatMap rootBytes) = r.map f := by
        rw [SszType.chunksOf_roots hbytes P.hashtreeHash]
        exact List.map_congr_left fun x hx => (hvalue x hx rootBytes hbytes).symm
      have hall : RangeBounds (P.splits cpuCount 4 r.length) limit (chunksOf (r.flatMap rootBytes)).length := by
        rw [hmap]
        exact h
      have hlen : ∀ x, (rootBytes x).length = 32 := fun x => (SszType.rootBytes_eq_some hbytes x).1
      have hyields := yields_hashVector_any P s (splitsLeaves_roots hlen) hall
        (fun htwo => yields_htrLittleEndian_any P.hashtreeHash _ htwo h.limit_le)
        fun limit' hadmits => (yields_rootVector P s cpuCount hlen r hadmits).mono (List.nil_subset _)
      rw [hmap] at hyields
      exact hyields
    | none =>
      have hserial : 2 ≤ limit → Yields (· < 42) (do
          let chunks ← elementRoots root r
          hashTreeRootBytes P s chunks 1 limit) (blockRoot P.hashtreeHash limit (r.map f)) [] := by
        intro htwo
        have hbytes := yields_bytes_any P s (bytesOf (r.map f)) htwo h.limit_le
        rw [chunksOf_bytesOf] at hbytes
        exact (yields_elementRoots hroot).bind hbytes
      exact yields_hashVector_any P s (splitsLeaves_map f) h hserial
        fun limit' hadmits => (yields_vector P s cpuCount hroot hadmits).mono (List.nil_subset _)

end Overloads

/-! ### Objects -/

mutual

/-- The root of any object, hashed with a number of threads. -/
def SszType.rootWith {α : Type} (P : Platform) : SszType α → α → (cpuCount : Nat) → Chunk
  | .basic b, v, _ => Chunk.ofBytes (b.toBytes v)
  | .array e _, v, _ =>
    let leaves := leavesOf e.basicLayout (fun x => e.rootWith P x 1) v.1
    merkleize P.hashtreeHash leaves leaves.length
  | .vector e, v, _ =>
    let leaves := leavesOf e.basicLayout (fun x => e.rootWith P x 1) v
    merkleize P.hashtreeHash leaves leaves.length
  | .list e limit, v, cpuCount =>
    let split := P.splits cpuCount (splitThreshold e.basicLayout) v.length
    let leaves := leavesOf e.basicLayout (fun x => e.rootWith P x 1) v
    withLength P.hashtreeHash (rangeRoot P.hashtreeHash split (chunkLimit e.basicLayout limit) leaves) v.length
  | .bitlist limit, v, cpuCount =>
    let split := P.splits cpuCount (splitThreshold (some byteLayout)) ((v.length + 7) / 8)
    withLength P.hashtreeHash (rangeRoot P.hashtreeHash split ((limit + 255) / 256) (chunksOf (packBits v))) v.length
  | .bitset n, v, _ => merkleize P.hashtreeHash (chunksOf (packBits v.1)) ((n + 255) / 256)
  | .container _ ms, v, cpuCount => merkleize P.hashtreeHash (ms.rootsWith P v cpuCount) ms.count

def Members.rootsWith {α : Type} (P : Platform) : Members α → α → (cpuCount : Nat) → List Chunk
  | .nil, _, _ => []
  | .cons m ms, (v, vs), cpuCount => m.rootWith P v cpuCount :: ms.rootsWith P vs cpuCount

end

mutual

/-- Every range in the object has at most `2 ^ 41` leaves, and so has the tree of its limit. -/
def SszType.LeavesBounded {α : Type} : SszType α → α → Prop
  | .basic _, _ => True
  | .array e _, v =>
    (leavesOf e.basicLayout (fun _ => zeroHash) v.1).length ≤ 2 ^ 41 ∧ ∀ x ∈ v.1, e.LeavesBounded x
  | .vector e, v => (leavesOf e.basicLayout (fun _ => zeroHash) v).length ≤ 2 ^ 41 ∧ ∀ x ∈ v, e.LeavesBounded x
  | .list e limit, v =>
    chunkLimit e.basicLayout limit ≤ 2 ^ 41 ∧ (leavesOf e.basicLayout (fun _ => zeroHash) v).length ≤ 2 ^ 41 ∧
      ∀ x ∈ v, e.LeavesBounded x
  | .bitlist limit, v => (limit + 255) / 256 ≤ 2 ^ 41 ∧ (v.length + 255) / 256 ≤ 2 ^ 41
  | .bitset n, _ => (n + 255) / 256 ≤ 2 ^ 41
  | .container _ ms, v => ms.count ≤ 2 ^ 41 ∧ ms.LeavesBounded v

def Members.LeavesBounded {α : Type} : Members α → α → Prop
  | .nil, _ => True
  | .cons m ms, (v, vs) => m.LeavesBounded v ∧ ms.LeavesBounded vs

end

mutual

/-- The trees of an object within its limits are those of its type. -/
theorem SszType.leavesBounded_of_withinLimits : {α : Type} → (τ : SszType α) → τ.treesBounded = true → (v : α) →
    τ.WithinLimits v → τ.LeavesBounded v
  | _, .basic _, _, _, _ => trivial
  | _, .array e n, htrees, v, h => by
    simp only [SszType.treesBounded, Bool.and_eq_true, decide_eq_true_iff] at htrees
    have hle := length_leavesOf_le e.basicLayout (fun _ => zeroHash) (le_of_eq v.2)
    exact ⟨hle.trans htrees.1, fun x hx => e.leavesBounded_of_withinLimits htrees.2 x (h x hx)⟩
  | _, .vector _, htrees, _, _ => by cases htrees
  | _, .list e limit, htrees, v, h => by
    simp only [SszType.treesBounded, Bool.and_eq_true, decide_eq_true_iff] at htrees
    have hle := length_leavesOf_le e.basicLayout (fun _ => zeroHash) h.1
    exact ⟨htrees.1, hle.trans htrees.1, fun x hx => e.leavesBounded_of_withinLimits htrees.2 x (h.2 x hx)⟩
  | _, .bitlist limit, htrees, v, h => by
    simp only [SszType.treesBounded, decide_eq_true_iff] at htrees
    have hle : v.length ≤ limit := h
    exact ⟨htrees, by omega⟩
  | _, .bitset _, htrees, _, _ => by
    simp only [SszType.treesBounded, decide_eq_true_iff] at htrees
    exact htrees
  | _, .container _ ms, htrees, v, h => by
    simp only [SszType.treesBounded, Bool.and_eq_true, decide_eq_true_iff] at htrees
    exact ⟨htrees.1, ms.leavesBounded_of_withinLimits htrees.2 v h⟩

theorem Members.leavesBounded_of_withinLimits : {α : Type} → (ms : Members α) → ms.treesBounded = true →
    (v : α) → ms.WithinLimits v → ms.LeavesBounded v
  | _, .nil, _, _, _ => trivial
  | _, .cons m ms, htrees, (v, vs), h => by
    rw [Members.treesBounded, Bool.and_eq_true] at htrees
    exact ⟨m.leavesBounded_of_withinLimits htrees.1 v h.1, ms.leavesBounded_of_withinLimits htrees.2 vs h.2⟩

end

lemma length_chunksOf_packBits (bits : List Bool) :
    (chunksOf (packBits bits)).length = (bits.length + 255) / 256 := by
  rw [length_chunksOf, length_packBits]
  change ((bits.length + 7) / 8 + 31) / 32 = (bits.length + 255) / 256
  omega

mutual

/-- An object within its limits has the reference root. -/
theorem SszType.rootWith_eq_root (P : Platform) : {α : Type} → (τ : SszType α) → (v : α) → τ.WithinLimits v →
    (cpuCount : Nat) → τ.rootWith P v cpuCount = τ.root P.hashtreeHash v
  | _, .basic _, _, _, _ => rfl
  | _, .array e _, v, h, _ => by
    have hleaves := leavesOf_congr e.basicLayout fun x hx => SszType.rootWith_eq_root P e x (h x hx) 1
    rw [SszType.rootWith, SszType.root, hleaves]
  | _, .vector e, v, h, _ => by
    have hleaves := leavesOf_congr e.basicLayout fun x hx => SszType.rootWith_eq_root P e x (h x hx) 1
    rw [SszType.rootWith, SszType.root, hleaves]
  | _, .list e limit, v, h, cpuCount => by
    have hleaves := leavesOf_congr e.basicLayout fun x hx => SszType.rootWith_eq_root P e x (h.2 x hx) 1
    have hle := length_leavesOf_le e.basicLayout (e.root P.hashtreeHash) h.1
    rw [SszType.rootWith, SszType.root, hleaves, rangeRoot_of_le _ _ (hle.trans (le_two_pow_log2ceil _))]
  | _, .bitlist limit, v, h, cpuCount => by
    have hle : (chunksOf (packBits v)).length ≤ (limit + 255) / 256 := length_chunksOf_packBits_le h
    rw [SszType.rootWith, SszType.root, rangeRoot_of_le _ _ (hle.trans (le_two_pow_log2ceil _))]
  | _, .bitset _, _, _, _ => rfl
  | _, .container _ ms, v, h, cpuCount => by
    rw [SszType.rootWith, SszType.root, Members.rootsWith_eq_roots P ms v h cpuCount]

theorem Members.rootsWith_eq_roots (P : Platform) : {α : Type} → (ms : Members α) → (v : α) → ms.WithinLimits v →
    (cpuCount : Nat) → ms.rootsWith P v cpuCount = ms.roots P.hashtreeHash v
  | _, .nil, _, _, _ => rfl
  | _, .cons m ms, (v, vs), h, cpuCount => by
    rw [Members.rootsWith, Members.roots, SszType.rootWith_eq_root P m v h.1 cpuCount,
      Members.rootsWith_eq_roots P ms vs h.2 cpuCount]

end

/-- `Root` has no limits. -/
lemma SszType.rootWith_of_rootBytes {e : SszType α} {rootBytes : α → Bytes} (h : e.rootBytes = some rootBytes)
    (x : α) (cpuCount : Nat) : e.rootWith P x cpuCount = e.root P.hashtreeHash x := by
  apply e.rootWith_eq_root P x
  cases e with
  | array e n =>
    cases e with
    | basic b => exact fun _ _ => trivial
    | _ => cases h
  | _ => cases h

section Ranges

variable (s : Schedule) (cpuCount : Nat)

lemma SszType.yields_range_with {e : SszType α} {r : List α}
    (hroot : ∀ x ∈ r, Yields (· < 42) (e.hashTreeRoot P s x 1 zeroHash) (e.rootWith P x 1) [])
    {limit : Nat} (hfits : FitsLimit P e.basicLayout limit cpuCount r.length) (hlimit : limit ≤ 2 ^ 41)
    (hcount : (leavesOf e.basicLayout (fun _ => zeroHash) r).length ≤ 2 ^ 41) :
    Yields (· < 42)
      (hashTreeRootRange P s e.basicLayout e.rootBytes (fun x => e.hashTreeRoot P s x 1 zeroHash) r cpuCount limit)
      (rangeRoot P.hashtreeHash (P.splits cpuCount (splitThreshold e.basicLayout) r.length) limit
        (leavesOf e.basicLayout (fun x => e.rootWith P x 1) r)) [] := by
  rw [← length_leavesOf e.basicLayout fun x => e.rootWith P x 1] at hcount
  exact SszType.yields_range_any P s cpuCount hroot
    (fun x _ rootBytes hbytes => SszType.rootWith_of_rootBytes P hbytes x 1) (hfits.rangeBounds hlimit hcount)

/-- A range without a limit. -/
lemma SszType.yields_vector_with {e : SszType α} {r : List α}
    (hroot : ∀ x ∈ r, Yields (· < 42) (e.hashTreeRoot P s x 1 zeroHash) (e.rootWith P x 1) [])
    (hcount : (leavesOf e.basicLayout (fun _ => zeroHash) r).length ≤ 2 ^ 41) :
    Yields (· < 42)
      (hashTreeRootRange P s e.basicLayout e.rootBytes (fun x => e.hashTreeRoot P s x 1 zeroHash) r cpuCount 0)
      (merkleize P.hashtreeHash (leavesOf e.basicLayout (fun x => e.rootWith P x 1) r)
        (leavesOf e.basicLayout (fun x => e.rootWith P x 1) r).length) [] := by
  have hyields := SszType.yields_range_with P s cpuCount hroot (fitsLimit_zero P _ _ _) (Nat.zero_le _) hcount
  rwa [rangeRoot, if_pos (.inl rfl)] at hyields

lemma yields_bytes_with (bytes : Bytes) {limit : Nat}
    (hfits : FitsLimit P (some byteLayout) limit cpuCount bytes.length) (hlimit : limit ≤ 2 ^ 41)
    (hcount : (chunksOf bytes).length ≤ 2 ^ 41) :
    Yields (· < 42) (hashTreeRootBytes P s bytes cpuCount limit)
      (rangeRoot P.hashtreeHash (P.splits cpuCount (splitThreshold (some byteLayout)) bytes.length) limit
        (chunksOf bytes)) [] := by
  have hflat := flatMap_byteLayout bytes
  have hpacks : byteLayout.Packs := BasicType.byte.layout_packs
  have hleaves : leavesOf (some byteLayout) (fun _ => zeroHash) bytes = chunksOf bytes := by rw [leavesOf, hflat]
  rw [← hleaves] at hcount ⊢
  have hbounds := hfits.rangeBounds hlimit hcount
  exact yields_hashVector_any P s hpacks.splitsLeaves hbounds
    (fun htwo => yields_htrLittleEndian_any P.hashtreeHash _ htwo hlimit)
    fun limit' hadmits => (yields_basicVector P s cpuCount hpacks bytes hadmits).mono (List.nil_subset _)

end Ranges

/-- The length of a list with so many leaves has 64 bits. -/
lemma SszType.lt_of_leaves {e : SszType α} {f : α → Chunk} {v : List α}
    (h : (leavesOf e.basicLayout f v).length ≤ 2 ^ 41) : v.length < 2 ^ 64 := by
  cases hlayout : e.basicLayout with
  | some layout =>
    have hsize : 0 < layout.sizeof := by
      obtain ⟨t, -, ht⟩ := SszType.layout_packs hlayout
      rw [ht]
      exact Nat.pow_pos (by decide)
    have hmul : v.length ≤ v.length * layout.sizeof := Nat.le_mul_of_pos_right _ hsize
    rw [hlayout, leavesOf, length_chunksOf, length_flatMap_const _ _ fun x _ => layout.length_toBytes x, chunkCount,
      BYTES_PER_CHUNK] at h
    omega
  | none =>
    rw [hlayout, leavesOf, List.length_map] at h
    omega

mutual

/-- The induction over types. -/
theorem SszType.yields_rootWith (P : Platform) : {α : Type} → (τ : SszType α) → (v : α) → τ.LeavesBounded v →
    (s : Schedule) → (cpuCount : Nat) → τ.TreesFit P cpuCount v →
    Yields (· < 42) (τ.hashTreeRoot P s v cpuCount zeroHash) (τ.rootWith P v cpuCount) []
  | _, .basic b, v, _, _, _, _ => yields_pure _
  | _, .array e _, v, h, s, cpuCount, hfit =>
    SszType.yields_vector_with P s cpuCount
      (fun x hx => SszType.yields_rootWith P e x (h.2 x hx) s 1 (hfit x hx)) h.1
  | _, .vector e, v, h, s, cpuCount, hfit =>
    SszType.yields_vector_with P s cpuCount
      (fun x hx => SszType.yields_rootWith P e x (h.2 x hx) s 1 (hfit x hx)) h.1
  | _, .list e limit, v, h, s, cpuCount, hfit => by
    have hlimit := listLimit_eq (lt_of_chunkLimit h.1)
    have hfits := hfit.1
    rw [hlimit] at hfits
    have hrange := SszType.yields_range_with P s cpuCount
      (fun x hx => SszType.yields_rootWith P e x (h.2.2 x hx) s 1 (hfit.2 x hx)) hfits h.1 h.2.1
    rw [SszType.hashTreeRoot, hlimit, SszType.rootWith, withLength_eq P.hashtreeHash _ (SszType.lt_of_leaves h.2.1)]
    exact (hrange.bind (yields_mixInLength P.hashtreeHash _ v.length)).mono (List.nil_subset _)
  | _, .bitlist limit, v, h, s, cpuCount, hfit => by
    have hser : (SszType.bitlist limit).serialize v = .ok (packBits (v ++ [true])) :=
      (SszType.bitlist limit).serialize_eq_of_fits trivial v trivial
    have hbound : (limit + 255) / 256 ≤ 2 ^ 41 := h.1
    have hlimit : bitLimit limit = (limit + 255) / 256 := bitLimit_eq (by omega)
    have hfits : FitsLimit P (some byteLayout) ((limit + 255) / 256) cpuCount (packBits v).length := by
      rw [length_packBits, ← hlimit]
      exact hfit
    have hcount : (chunksOf (packBits v)).length ≤ 2 ^ 41 := by
      rw [length_chunksOf_packBits]
      exact h.2
    have hbytes := yields_bytes_with P s cpuCount (packBits v) hfits h.1 hcount
    have hlen : v.length < 2 ^ 64 := by
      rw [length_chunksOf_packBits] at hcount
      omega
    rw [length_packBits] at hbytes
    rw [SszType.hashTreeRoot, hlimit, SszType.rootWith, withLength_eq P.hashtreeHash _ hlen]
    exact ((yields_lift hser).bind ((yields_lift (removeDelimiter_packBits v)).bind
      (hbytes.bind (yields_mixInLength P.hashtreeHash _ v.length)))).mono (List.nil_subset _)
  | _, .bitset n, v, h, s, cpuCount, _ => by
    obtain ⟨c, hyields, hvalue⟩ := SszType.exists_root P (fun _ hi => hi) (.bitset n) v trivial
      (SszType.TreesWithin.limitsFit (τ := .bitset n) h) (.inr h)
    have hroot : (SszType.bitset n).rootWith P v cpuCount = c := (hvalue h).symm
    rw [hroot]
    exact hyields s cpuCount
  | _, .container _ ms, v, h, s, cpuCount, hfit => by
    obtain ⟨hlen, hroots⟩ := Members.yields_rootsWith P ms v h.2 s.first cpuCount hfit
    have hchunks := chunksOf_bytesOf (ms.rootsWith P v cpuCount)
    have hcount : (chunksOf (bytesOf (ms.rootsWith P v cpuCount))).length ≤ 2 ^ 41 := by
      rw [hchunks, hlen]
      exact h.1
    have hbytes := yields_bytes_with P s.second cpuCount _ (fitsLimit_zero P _ _ _) (Nat.zero_le _) hcount
    rw [rangeRoot, if_pos (.inl rfl), hchunks, hlen] at hbytes
    exact (hroots.bind hbytes).mono (List.nil_subset _)

theorem Members.yields_rootsWith (P : Platform) : {α : Type} → (ms : Members α) → (v : α) → ms.LeavesBounded v →
    (s : Schedule) → (cpuCount : Nat) → ms.TreesFit P cpuCount v →
    (ms.rootsWith P v cpuCount).length = ms.count ∧
      Yields (· < 42) (ms.memberRoots P s v cpuCount) (bytesOf (ms.rootsWith P v cpuCount)) []
  | _, .nil, _, _, _, _, _ => ⟨rfl, yields_pure []⟩
  | _, .cons m ms, (v, vs), h, s, cpuCount, hfit => by
    have hroot := SszType.yields_rootWith P m v h.1 s.first cpuCount hfit.1
    obtain ⟨hlen, hroots⟩ := Members.yields_rootsWith P ms vs h.2 s.second cpuCount hfit.2
    refine ⟨by rw [Members.rootsWith, List.length_cons, hlen, Members.count], ?_⟩
    exact hroot.bind (hroots.bind_pure fun rest => (m.rootWith P v cpuCount).1 ++ rest)

end

/-- `hash_tree_root` of an object with lists of any length, as long as no write leaves its buffer: every access
is in range, and a list that is too long for the tree of its limit gets the root of the whole tree where two
threads hash it and that of its last block where one does. An object within its limits gets the reference
root. -/
theorem hashTreeRoot_anyLength (τ : SszType α) {v : α} (h : τ.LeavesBounded v) (s : Schedule) (cpuCount : Nat)
    (hsafe : Safe (τ.hashTreeRoot P s v cpuCount zeroHash)) :
    (∃ events, (τ.hashTreeRoot P s v cpuCount zeroHash).run = .ok (τ.rootWith P v cpuCount, events) ∧
      ∀ e ∈ events, e.Within (· < 42)) ∧
    (τ.WithinLimits v → τ.rootWith P v cpuCount = τ.root P.hashtreeHash v) := by
  have hfit := (τ.safeIff P s v cpuCount).safe_iff.mp hsafe
  obtain ⟨events, hrun, hin, -⟩ := SszType.yields_rootWith P τ v h s cpuCount hfit
  exact ⟨⟨events, hrun, hin⟩, fun hwithin => τ.rootWith_eq_root P v hwithin cpuCount⟩

/-- Three words in a list of at most two, hashed by one thread. -/
theorem hashTreeRoot_anyLength_sample :
    ∃ events, ((SszType.list (.basic .uint256) 2).hashTreeRoot samplePlatform (fun _ => true) [1, 2, 3] 1
      zeroHash).run = .ok ((SszType.list (.basic .uint256) 2).rootWith samplePlatform [1, 2, 3] 1, events) := by
  have hbounded : (SszType.list (.basic .uint256) 2).LeavesBounded [1, 2, 3] :=
    ⟨by decide, by decide, fun _ _ => trivial⟩
  have hfit : (SszType.list (.basic .uint256) 2).TreesFit samplePlatform 1 [1, 2, 3] :=
    ⟨fun hone => absurd hone (by decide), fun _ _ => trivial⟩
  have hsafe :=
    ((SszType.list (.basic .uint256) 2).safeIff samplePlatform (fun _ => true) [1, 2, 3] 1).safe_iff.mpr hfit
  obtain ⟨⟨events, hrun, -⟩, -⟩ :=
    hashTreeRoot_anyLength samplePlatform (.list (.basic .uint256) 2) hbounded (fun _ => true) 1 hsafe
  exact ⟨events, hrun⟩

end Sszpp
