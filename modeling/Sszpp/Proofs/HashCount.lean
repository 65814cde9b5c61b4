import Sszpp.Proofs.Root

/-!
# The number of pair hashes

How often the pair hash is called depends on the numbers of leaves only. A split moves calls from one
thread to another: the halves, the node over them and the nodes up to the depth of the limit are the
layers of the serial tree.
-/

namespace Sszpp

open Library

variable {α β : Type}

/-! ### Counting -/

def Event.isDigest : Event → Bool
  | .digest _ _ => true
  | _ => false

/-- The calls of the pair hash in a run. -/
def digestCount (events : List Event) : Nat := events.countP Event.isDigest

/-- Every run that returns has called the pair hash `n` times and returned a value with `Q`. -/
def Costs (x : Hashing α) (Q : α → Prop) (n : Nat) : Prop :=
  ∀ a events, x.run = .ok (a, events) → Q a ∧ digestCount events = n

section Rules

variable {Q : α → Prop} {R : β → Prop} {m n : Nat}

lemma costs_pure {a : α} (h : Q a) : Costs (pure a) Q 0 := by
  intro b events hrun
  cases hrun
  exact ⟨h, rfl⟩

lemma Costs.bind {x : Hashing α} {f : α → Hashing β} (hx : Costs x Q m) (hf : ∀ a, Q a → Costs (f a) R n) :
    Costs (x >>= f) R (m + n) := by
  intro b events hrun
  obtain ⟨a, first, second, hfirst, hsecond, rfl⟩ := run_bind_eq_ok hrun
  obtain ⟨ha, hm⟩ := hx a first hfirst
  obtain ⟨hb, hn⟩ := hf a ha b second hsecond
  exact ⟨hb, by rw [digestCount, List.countP_append]; exact congrArg₂ (· + ·) hm hn⟩

lemma Costs.mono {x : Hashing α} {Q' : α → Prop} (h : Costs x Q n) (hQ : ∀ a, Q a → Q' a) : Costs x Q' n := by
  intro a events hrun
  obtain ⟨ha, hn⟩ := h a events hrun
  exact ⟨hQ a ha, hn⟩

/-- An outcome calls no hash. -/
lemma Costs.lift {x : Outcome α} {a : α} {f : α → Hashing β} (hx : x = .ok a) (hf : Costs (f a) R n) :
    Costs (liftM x >>= f) R n := by
  subst hx
  have hpure : Costs (liftM (.ok a : Outcome α) : Hashing α) (· = a) 0 := costs_pure rfl
  rw [← Nat.zero_add n]
  exact hpure.bind fun b hb => hb ▸ hf

end Rules

variable (H : PairHash)

lemma costs_hash2Chunks (a b : Chunk) : Costs (hash2Chunks H a b) (fun _ => True) 1 := by
  intro c events hrun
  cases hrun
  exact ⟨trivial, rfl⟩

lemma costs_zeroHashAt (i : Nat) : Costs (zeroHashAt H i) (fun _ => True) 0 := by
  intro c events hrun
  cases hrun
  exact ⟨trivial, rfl⟩

lemma costs_loadNodes (pos len : Nat) (buf : Bytes) : Costs (loadNodes pos len buf) (fun _ => True) 0 := by
  intro bytes events hrun
  cases hrun
  exact ⟨trivial, rfl⟩

lemma costs_storeNodes (pos : Nat) (bytes buf : Bytes) : Costs (storeNodes pos bytes buf) (fun _ => True) 0 := by
  intro out events hrun
  cases hrun
  exact ⟨trivial, rfl⟩

lemma costs_readInput (pos len : Nat) (chunks : Bytes) : Costs (readInput pos len chunks) (fun _ => True) 0 := by
  intro bytes events hrun
  cases hrun
  exact ⟨trivial, rfl⟩

lemma costs_hashtreeHash (count : Nat) (input : Bytes) :
    Costs (hashtreeHash H count input) (fun _ => True) count := by
  induction count generalizing input with
  | zero => exact costs_pure trivial
  | succ count ih =>
    have hrest := (costs_hash2Chunks H (Chunk.ofBytes input) (Chunk.ofBytes (input.drop BYTES_PER_CHUNK))).bind
      fun c _ => (ih (input.drop (2 * BYTES_PER_CHUNK))).bind
        fun cs _ => costs_pure (Q := fun _ => True) (a := c.1 ++ cs) trivial
    rwa [Nat.add_zero, Nat.add_comm] at hrest

/-! ### The sparse tree -/

/-- The position moves over the hashes. -/
lemma costs_hashInto (output : Nat) (input : Bytes) (count : Nat) (buf : Bytes) :
    Costs (hashInto H output input count buf) (fun p => p.1 = output + count * 32) count :=
  (costs_hashtreeHash H count input).bind fun nodes _ =>
    (costs_storeNodes output nodes buf).bind fun buf _ =>
      costs_pure (Q := fun p : Nat × Bytes => p.1 = output + count * 32)
        (a := (output + count * BYTES_PER_CHUNK, buf)) rfl

lemma costs_hashFirstLayer (hashTree : Nat) {chunks : Bytes} (hne : chunks ≠ []) (buf : Bytes) :
    Costs (hashFirstLayer H hashTree chunks buf)
      (fun p => p.1 = hashTree + (chunkCount chunks.length + 1) / 2 * 32)
      ((chunkCount chunks.length + 1) / 2) := by
  have hpos := chunkCount_pos (List.length_pos_of_ne_nil hne)
  simp only [hashFirstLayer]
  split
  · rename_i heven
    have hhalf : chunkCount chunks.length / 2 = (chunkCount chunks.length + 1) / 2 := by omega
    have hall := (costs_readInput 0 (chunkCount chunks.length / 2 * (2 * BYTES_PER_CHUNK)) chunks).bind
      fun input _ => costs_hashInto H hashTree input (chunkCount chunks.length / 2) buf
    rw [Nat.zero_add, hhalf] at hall
    rwa [hhalf]
  · obtain ⟨m, hm⟩ : ∃ m, m = (chunkCount chunks.length - 1) / 2 := ⟨_, rfl⟩
    rw [← hm]
    have hfirst : Costs (if m ≠ 0 then do
          let input ← readInput 0 (m * (2 * BYTES_PER_CHUNK)) chunks
          hashInto H hashTree input m buf
        else pure (hashTree, buf)) (fun p => p.1 = hashTree + m * 32) m := by
      split
      · have hread := (costs_readInput 0 (m * (2 * BYTES_PER_CHUNK)) chunks).bind
          fun input _ => costs_hashInto H hashTree input m buf
        rwa [Nat.zero_add] at hread
      · rename_i hzero
        obtain rfl : m = 0 := not_not.mp hzero
        exact costs_pure (by simp)
    have hhalf : (chunkCount chunks.length + 1) / 2 = m + (0 + 1) := by omega
    rw [hhalf]
    exact hfirst.bind fun p hp => (costs_readInput _ _ chunks).bind fun rest _ =>
      (costs_hashInto H p.1 _ 1 p.2).mono fun q hq => by rw [hq, hp]; omega

/-- One layer over `k` nodes. -/
lemma costs_hashLayer (height first k : Nat) (buf : Bytes) :
    Costs (hashLayer H height first (first + k * 32) buf)
      (fun p => p.1 = first + k * 32 + (k + 1) / 2 * 32) ((k + 1) / 2) := by
  have hdist : (first + k * 32 - first) / 32 = k := by omega
  have hpairs : Costs (if 1 < k then do
        let input ← loadNodes first (k / 2 * (2 * 32)) buf
        hashInto H (first + k * 32) input (k / 2) buf
      else pure (first + k * 32, buf)) (fun p => p.1 = first + k * 32 + k / 2 * 32) (k / 2) := by
    split
    · have hload := (costs_loadNodes first (k / 2 * (2 * 32)) buf).bind
        fun input _ => costs_hashInto H (first + k * 32) input (k / 2) buf
      rwa [Nat.zero_add] at hload
    · have hzero : k / 2 = 0 := by omega
      rw [hzero]
      exact costs_pure (by simp)
  have hlast : ∀ p : Nat × Bytes, p.1 = first + k * 32 + k / 2 * 32 → Costs (if k % 2 = 1 then do
        let node ← loadNodes (first + k * 32 - 32) 32 p.2
        let zero ← zeroHashAt H height
        hashInto H p.1 (node ++ zero.1) 1 p.2
      else pure p) (fun q => q.1 = first + k * 32 + (k + 1) / 2 * 32) (k % 2) := by
    intro p hp
    split
    · rename_i hodd
      rw [hodd]
      exact (costs_loadNodes _ 32 p.2).bind fun node _ => (costs_zeroHashAt H height).bind fun zero _ =>
        (costs_hashInto H p.1 (node ++ zero.1) 1 p.2).mono fun q hq => by rw [hq, hp]; omega
    · have heven : k % 2 = 0 := by omega
      rw [heven]
      exact costs_pure (by rw [hp]; omega)
  have hhalf : (k + 1) / 2 = k / 2 + k % 2 := by omega
  simp only [hashLayer, BYTES_PER_CHUNK, hdist]
  rw [hhalf] at hlast ⊢
  exact hpairs.bind hlast

lemma hashtreeSizeLoop_eq_layersSize (depth k : Nat) : hashtreeSizeLoop depth k 0 = layersSize depth k := by
  induction depth generalizing k with
  | zero => rfl
  | succ depth ih => rw [hashtreeSizeLoop_succ, hashtreeSizeLoop_eq_add, ih, Nat.zero_add, layersSize]

lemma costs_sparseHashLayers (count height first k : Nat) (buf : Bytes) :
    Costs (sparseHashLayers H count height first (first + k * 32) buf) (fun _ => True) (layersSize count k) := by
  induction count generalizing height first k buf with
  | zero => exact costs_pure trivial
  | succ count ih =>
    refine (costs_hashLayer H height first k buf).bind fun p hp => ?_
    obtain ⟨last, buf⟩ := p
    obtain rfl : last = _ := hp
    exact ih (height + 1) (first + k * 32) ((k + 1) / 2) buf

/-- `sparse_hash_tree` calls the pair hash once for each node over the leaves. -/
theorem costs_sparseHashTree (chunks : Bytes) (limit : Nat) :
    Costs (sparseHashTree H chunks limit) (fun _ => True)
      (layersSize (treeDepth limit (chunkCount chunks.length)) (chunkCount chunks.length)) := by
  simp only [sparseHashTree]
  split
  · rename_i hzero
    rw [hzero, layersSize_empty]
    exact (costs_zeroHashAt H _).bind fun zero _ =>
      costs_pure (Q := fun _ => True) (a := zeros BYTES_PER_CHUNK ++ zero.1) trivial
  · rename_i hcount
    have hne : chunks ≠ [] := by
      rintro rfl
      exact hcount rfl
    cases treeDepth limit (chunkCount chunks.length) with
    | zero =>
      exact (costs_readInput 0 chunks.length chunks).bind fun bytes _ => costs_storeNodes 0 bytes _
    | succ depth =>
      refine (costs_hashFirstLayer H 0 hne _).bind fun p hp => ?_
      obtain ⟨last, buf⟩ := p
      obtain rfl : last = _ := hp
      exact costs_sparseHashLayers H depth 1 0 _ buf

lemma costs_htrLittleEndian (bytes : Bytes) (limit : Nat) :
    Costs (htrLittleEndian H bytes limit) (fun _ => True)
      (layersSize (treeDepth limit (chunksOf bytes).length) (chunksOf bytes).length) := by
  rw [length_chunksOf]
  exact (costs_sparseHashTree H bytes limit).bind fun tree _ =>
    costs_pure (Q := fun _ => True) (a := lastChunk tree) trivial

/-- The tree of a non-empty input: the pair hash is called once for each node of the buffer, and its
calls are those that join the chunks and at most one for each level. -/
theorem sparseHashTree_hashes {chunks : Bytes} (hne : chunks ≠ []) {limit : Nat}
    (hlimit : limit = 0 ∨ chunkCount chunks.length ≤ limit) :
    ∃ tree events, (sparseHashTree H chunks limit).run = .ok (tree, events) ∧
      (treeDepth limit (chunkCount chunks.length) ≠ 0 → digestCount events * 32 =
        computeHashtreeSize (chunkCount chunks.length) (treeDepth limit (chunkCount chunks.length))) ∧
      chunkCount chunks.length ≤ digestCount events + 1 ∧
      digestCount events + 1 ≤ chunkCount chunks.length + treeDepth limit (chunkCount chunks.length) := by
  have hlimit' := hlimit
  rw [← length_chunksOf] at hlimit'
  obtain ⟨events, hrun, -, -⟩ := yields_htrLittleEndian (K := fun _ => True) H hlimit' fun _ _ => trivial
  obtain ⟨tree, first, -, htree, -, -⟩ := run_bind_eq_ok hrun
  obtain ⟨-, hcount⟩ := costs_sparseHashTree H chunks limit tree first htree
  have hbounds := layersSize_bounds (chunkCount_pos (List.length_pos_of_ne_nil hne)) (le_two_pow_treeDepth hlimit)
  refine ⟨tree, first, htree, fun hdepth => ?_, ?_⟩
  · rw [hcount, computeHashtreeSize, if_neg hdepth, hashtreeSizeLoop_eq_layersSize]
  · rwa [hcount]

/-- Two chunks and room for nine. -/
theorem sparseHashTree_hashes_sample :
    ∃ tree events, (sparseHashTree samplePlatform.hashtreeHash (zeros 33) 9).run = .ok (tree, events) ∧
      2 ≤ digestCount events + 1 ∧ digestCount events + 1 ≤ 2 + 4 := by
  have hne : zeros 33 ≠ [] := by decide
  have hlimit : 9 = 0 ∨ chunkCount (zeros 33).length ≤ 9 := .inr (by decide)
  obtain ⟨tree, events, hrun, -, hbounds⟩ := sparseHashTree_hashes samplePlatform.hashtreeHash hne hlimit
  exact ⟨tree, events, hrun, hbounds⟩

/-! ### Splits -/

lemma costs_extendRoot (count i : Nat) (c : Chunk) : Costs (extendRoot H count i c) (fun _ => True) count := by
  induction count generalizing i c with
  | zero => exact costs_pure trivial
  | succ count ih =>
    have hrest := (costs_zeroHashAt H i).bind fun zero _ =>
      (costs_hash2Chunks H c zero).bind fun result _ => ih (i + 1) result
    have hcount : 0 + (1 + count) = count + 1 := by omega
    rwa [hcount] at hrest

variable (P : Platform)

/-- The serial path over `r`: the layers over its leaves, and what its elements cost. -/
def SerialCost (leaves : List α → List Chunk) (inner : List α → Nat) (whole : List α)
    (serial : List α → Nat → Hashing Chunk) : Prop :=
  ∀ r ⊆ whole, ∀ limit, (limit = 0 ∨ (leaves r).length ≤ limit) →
    Costs (serial r limit) (fun _ => True)
      (layersSize (treeDepth limit (leaves r).length) (leaves r).length + inner r)

/-- Splitting a vector changes neither the calls for its tree nor those for its elements. -/
theorem costs_hashVector {threshold : Nat} {chunkSize : Nat → Nat} {leaves : List α → List Chunk}
    (hsplit : SplitsLeaves threshold chunkSize leaves) (inner : List α → Nat)
    (hinner : ∀ xs ys, inner (xs ++ ys) = inner xs + inner ys) {serial : List α → Nat → Hashing Chunk}
    {whole : List α} (hserial : SerialCost leaves inner whole serial) (s : Schedule) {r : List α}
    (hr : r ⊆ whole) (cpuCount : Nat) {limit : Nat} (hlimit : limit = 0 ∨ (leaves r).length ≤ limit) :
    Costs (hashVector P threshold chunkSize serial s r cpuCount limit) (fun _ => True)
      (layersSize (treeDepth limit (leaves r).length) (leaves r).length + inner r) := by
  induction hcpus : P.cpus cpuCount using Nat.strong_induction_on generalizing s r cpuCount limit with
  | _ cpus ih =>
    rw [hashVector, hcpus]
    by_cases hserially : cpus < 2 ∨ r.length < threshold
    · rw [if_pos hserially]
      exact hserial r hr limit hlimit
    · rw [if_neg hserially]
      rw [not_or, not_lt, not_lt] at hserially
      obtain ⟨j, -, hsize, happend, hfirst, hpos, hlast⟩ := hsplit r hserially.2
      have hlen : (leaves r).length = 2 ^ j + (leaves (r.drop (bitCeil r.length / 2))).length := by
        rw [happend, List.length_append, hfirst]
      have hdepth := treeDepth_of_split (j := j) hlimit (by omega) (by rw [pow_succ]; omega)
      have hleft := ih _ (P.cpus_half_lt hserially.1) s.first
        (fun _ hx => hr (List.mem_of_mem_take hx)) (cpus / 2) (.inr (le_of_eq hfirst)) rfl
      have hright := ih _ (P.cpus_half_lt hserially.1) s.second
        (fun _ hx => hr (List.mem_of_mem_drop hx)) (cpus / 2) (.inr hlast) rfl
      rw [treeDepth_two_pow] at hleft hright
      have hsum := hinner (r.take (bitCeil r.length / 2)) (r.drop (bitCeil r.length / 2))
      rw [List.take_append_drop] at hsum
      have htotal : layersSize (treeDepth limit (leaves r).length) (leaves r).length + inner r =
          layersSize j (leaves (r.take (bitCeil r.length / 2))).length + inner (r.take (bitCeil r.length / 2)) +
            (layersSize j (leaves (r.drop (bitCeil r.length / 2))).length +
              inner (r.drop (bitCeil r.length / 2))) + (1 + (log2ceil limit - (j + 1))) := by
        rw [hdepth, hlen, layersSize_split _ hpos hlast, hfirst, hsum]
        omega
      simp only [hsize, log2ceil_eq_clog (2 ^ j), Nat.clog_pow 2 j (by decide)]
      rw [htotal]
      refine Costs.bind (Q := fun _ => True) ?_ fun halves _ =>
        (costs_hash2Chunks P.hashtreeHash halves.1 halves.2).bind fun result _ =>
          costs_extendRoot P.hashtreeHash _ _ result
      split
      · rw [Nat.add_comm]
        exact hright.bind fun right _ => hleft.bind fun left _ =>
          costs_pure (Q := fun _ => True) (a := (left, right)) trivial
      · exact hleft.bind fun left _ => hright.bind fun right _ =>
          costs_pure (Q := fun _ => True) (a := (left, right)) trivial

/-! ### The overloads for vectors -/

section Overloads

variable (s : Schedule) (cpuCount : Nat) {limit : Nat}

lemma costs_basicVector {layout : BasicLayout α} (hpacks : layout.Packs) (r : List α)
    (hlimit : limit = 0 ∨ (chunksOf (r.flatMap layout.toBytes)).length ≤ limit) :
    Costs (hashTreeRootBasicVector P s layout r cpuCount limit) (fun _ => True)
      (layersSize (treeDepth limit (chunksOf (r.flatMap layout.toBytes)).length)
        (chunksOf (r.flatMap layout.toBytes)).length) :=
  costs_hashVector P hpacks.splitsLeaves (fun _ => 0) (fun _ _ => rfl)
    (fun _ _ limit _ => costs_htrLittleEndian P.hashtreeHash _ limit) s (List.Subset.refl r) cpuCount hlimit

lemma costs_bytes (bytes : Bytes) (hlimit : limit = 0 ∨ chunkCount bytes.length ≤ limit) :
    Costs (hashTreeRootBytes P s bytes cpuCount limit) (fun _ => True)
      (layersSize (treeDepth limit (chunkCount bytes.length)) (chunkCount bytes.length)) := by
  have hlen : (chunksOf (bytes.flatMap byteLayout.toBytes)).length = chunkCount bytes.length := by
    rw [flatMap_byteLayout, length_chunksOf]
  have hpacks : byteLayout.Packs := BasicType.byte.layout_packs
  rw [← hlen] at hlimit ⊢
  exact costs_basicVector P s cpuCount hpacks bytes hlimit

lemma costs_rootVector {rootBytes : α → Bytes} (hbytes : ∀ x, (rootBytes x).length = 32) (r : List α)
    (hlimit : limit = 0 ∨ r.length ≤ limit) :
    Costs (hashTreeRootRootVector P s rootBytes r cpuCount limit) (fun _ => True)
      (layersSize (treeDepth limit r.length) r.length) := by
  have hlen : (chunksOf (r.flatMap rootBytes)).length = r.length := by
    rw [length_chunksOf, length_flatMap_const _ _ fun x _ => hbytes x]
    change (r.length * 32 + 31) / 32 = r.length
    omega
  rw [← hlen] at hlimit ⊢
  exact costs_hashVector P (splitsLeaves_roots hbytes) (fun _ => 0) (fun _ _ => rfl)
    (fun _ _ limit _ => costs_htrLittleEndian P.hashtreeHash _ limit) s (List.Subset.refl r) cpuCount hlimit

lemma costs_elementRoots {root : α → Hashing Chunk} {hashes : α → Nat} {r : List α}
    (hroot : ∀ x ∈ r, Costs (root x) (fun _ => True) (hashes x)) :
    Costs (elementRoots root r) (fun bytes => bytes.length = r.length * 32) (r.map hashes).sum := by
  induction r with
  | nil => exact costs_pure rfl
  | cons x xs ih =>
    have htail := ih fun y hy => hroot y (List.mem_cons_of_mem _ hy)
    refine (hroot x List.mem_cons_self).bind fun c _ => htail.bind fun cs hcs => costs_pure ?_
    rw [List.length_append, c.length, hcs, List.length_cons]
    omega

lemma costs_vector {root : α → Hashing Chunk} {hashes : α → Nat} {r : List α}
    (hroot : ∀ x ∈ r, Costs (root x) (fun _ => True) (hashes x)) (hlimit : limit = 0 ∨ r.length ≤ limit) :
    Costs (hashTreeRootVector P s root r cpuCount limit) (fun _ => True)
      (layersSize (treeDepth limit r.length) r.length + (r.map hashes).sum) := by
  have hsum : ∀ xs ys : List α, ((xs ++ ys).map hashes).sum = (xs.map hashes).sum + (ys.map hashes).sum :=
    fun xs ys => by rw [List.map_append, List.sum_append]
  have hlen : ∀ r : List α, (r.map fun _ => zeroHash).length = r.length := fun r => List.length_map _
  have hserial : SerialCost (List.map fun _ => zeroHash) (fun r => (r.map hashes).sum) r
      (fun r limit => elementRoots root r >>= fun chunks => hashTreeRootBytes P s chunks 1 limit) := by
    intro r' hr' limit hlimit
    rw [hlen] at hlimit ⊢
    rw [Nat.add_comm]
    refine (costs_elementRoots fun x hx => hroot x (hr' hx)).bind fun chunks hchunks => ?_
    have hcount : chunkCount chunks.length = r'.length := by
      rw [hchunks]
      change (r'.length * 32 + 31) / 32 = r'.length
      omega
    rw [← hcount] at hlimit ⊢
    exact costs_bytes P s 1 chunks hlimit
  rw [← hlen r] at hlimit ⊢
  exact costs_hashVector P (splitsLeaves_map fun _ => zeroHash) _ hsum hserial s (List.Subset.refl r) cpuCount
    hlimit

end Overloads

/-! ### The induction over types -/

/-- The calls for the elements of a range: scalars and `Root` objects are leaves themselves. -/
def SszType.elementHashes (e : SszType α) (hashes : α → Nat) (vs : List α) : Nat :=
  if e.basicLayout.isSome || e.rootBytes.isSome then 0 else (vs.map hashes).sum

/-- The calls for the tree over `count` leaves with room for `limit`. -/
def treeHashes (limit count : Nat) : Nat := layersSize (leafDepth limit) count

mutual

/-- How often the pair hash is called for the root of a value. -/
def SszType.hashes {α : Type} : SszType α → α → Nat
  | .basic _, _ => 0
  | .array e _, v =>
    treeHashes (chunkLimit e.basicLayout v.1.length) (chunkLimit e.basicLayout v.1.length) +
      e.elementHashes e.hashes v.1
  | .vector e, v =>
    treeHashes (chunkLimit e.basicLayout v.length) (chunkLimit e.basicLayout v.length) +
      e.elementHashes e.hashes v
  | .list e limit, v =>
    treeHashes (chunkLimit e.basicLayout limit) (chunkLimit e.basicLayout v.length) +
      e.elementHashes e.hashes v + 1
  | .bitlist limit, v => treeHashes ((limit + 255) / 256) ((v.length + 255) / 256) + 1
  | .bitset n, _ => treeHashes ((n + 255) / 256) ((n + 255) / 256)
  | .container _ ms, v => ms.hashes v + treeHashes ms.count ms.count

def Members.hashes {α : Type} : Members α → α → Nat
  | .nil, _ => 0
  | .cons m ms, (v, vs) => m.hashes v + ms.hashes vs

end

lemma layersSize_treeDepth (limit count : Nat) :
    layersSize (treeDepth limit count) count = treeHashes (effectiveLimit limit count) count := by
  rw [treeDepth_eq, treeHashes]

lemma SszType.costs_range {e : SszType α} {root : α → Hashing Chunk} {hashes : α → Nat} {r : List α}
    (hroot : ∀ x ∈ r, Costs (root x) (fun _ => True) (hashes x)) (s : Schedule) (cpuCount : Nat) {limit : Nat}
    (hlimit : limit = 0 ∨ chunkLimit e.basicLayout r.length ≤ limit) :
    Costs (hashTreeRootRange P s e.basicLayout e.rootBytes root r cpuCount limit) (fun _ => True)
      (treeHashes (effectiveLimit limit (chunkLimit e.basicLayout r.length)) (chunkLimit e.basicLayout r.length) +
        e.elementHashes hashes r) := by
  rw [← layersSize_treeDepth]
  cases hlayout : e.basicLayout with
  | some layout =>
    have hlen : (chunksOf (r.flatMap layout.toBytes)).length = chunkLimit (some layout) r.length := by
      rw [length_chunksOf, length_flatMap_const _ _ fun x _ => layout.length_toBytes x]
      rfl
    have hzero : e.elementHashes hashes r = 0 := by simp [SszType.elementHashes, hlayout]
    rw [hlayout, ← hlen] at hlimit
    rw [hzero, ← hlen]
    exact costs_basicVector P s cpuCount (SszType.layout_packs hlayout) r hlimit
  | none =>
    rw [hlayout] at hlimit
    cases hbytes : e.rootBytes with
    | some rootBytes =>
      have hzero : e.elementHashes hashes r = 0 := by simp [SszType.elementHashes, hbytes]
      rw [hzero]
      exact costs_rootVector P s cpuCount (fun x => (SszType.rootBytes_eq_some hbytes x).1) r hlimit
    | none =>
      have hsum : e.elementHashes hashes r = (r.map hashes).sum := by
        simp [SszType.elementHashes, hlayout, hbytes]
      rw [hsum]
      exact costs_vector P s cpuCount hroot hlimit

lemma chunkLimit_mono (layout : Option (BasicLayout α)) {m n : Nat} (h : m ≤ n) :
    chunkLimit layout m ≤ chunkLimit layout n := by
  cases layout with
  | some layout =>
    have hmul := Nat.mul_le_mul_right layout.sizeof h
    rw [chunkLimit, chunkLimit]
    omega
  | none => exact h

/-- The calls for packed bits. -/
lemma costs_packBits (s : Schedule) (cpuCount : Nat) {bits : List Bool} {n : Nat} (hfit : n + 255 < 2 ^ 64)
    (hle : bits.length ≤ n) :
    Costs (hashTreeRootBytes P s (packBits bits) cpuCount (bitLimit n)) (fun _ => True)
      (treeHashes ((n + 255) / 256) ((bits.length + 255) / 256)) := by
  have hcount : chunkCount (packBits bits).length = (bits.length + 255) / 256 := by
    rw [length_packBits]
    change ((bits.length + 7) / 8 + 31) / 32 = _
    omega
  have hlimit : (bits.length + 255) / 256 ≤ (n + 255) / 256 := by omega
  have hfits : (n + 255) / 256 = 0 ∨ chunkCount (packBits bits).length ≤ (n + 255) / 256 := .inr (by rwa [hcount])
  have hcost := costs_bytes P s cpuCount (packBits bits) hfits
  rw [hcount, layersSize_treeDepth, effectiveLimit_of_le hlimit] at hcost
  rwa [bitLimit_eq hfit]

mutual

/-- Every call for the root of a value, whatever its schedule and its number of threads. -/
theorem SszType.costs_hashTreeRoot : {α : Type} → (τ : SszType α) → (v : α) → τ.WithinLimits v → τ.LimitsFit v →
    (s : Schedule) → (cpuCount : Nat) → (result : Chunk) →
    Costs (τ.hashTreeRoot P s v cpuCount result) (fun _ => True) (τ.hashes v)
  | _, .basic _, _, _, _, _, _, _ => costs_pure trivial
  | _, .array e _, v, hwithin, hfit, s, cpuCount, _ =>
    SszType.costs_range P (fun x hx => SszType.costs_hashTreeRoot e x (hwithin x hx) (hfit x hx) s 1 zeroHash) s
      cpuCount (.inl rfl)
  | _, .vector e, v, hwithin, hfit, s, cpuCount, _ =>
    SszType.costs_range P (fun x hx => SszType.costs_hashTreeRoot e x (hwithin x hx) (hfit x hx) s 1 zeroHash) s
      cpuCount (.inl rfl)
  | _, .list e n, v, hwithin, hfit, s, cpuCount, _ => by
    have hle : chunkLimit e.basicLayout v.length ≤ chunkLimit e.basicLayout n :=
      chunkLimit_mono e.basicLayout hwithin.1
    have hrange := SszType.costs_range P
      (fun x hx => SszType.costs_hashTreeRoot e x (hwithin.2 x hx) (hfit.2 x hx) s 1 zeroHash) s cpuCount (.inr hle)
    rw [effectiveLimit_of_le hle] at hrange
    rw [SszType.hashTreeRoot, listLimit_eq hfit.1]
    exact hrange.bind fun hash _ => costs_hash2Chunks P.hashtreeHash hash _
  | _, .bitlist n, v, hwithin, hfit, s, cpuCount, _ => by
    have hser : (SszType.bitlist n).serialize v = .ok (packBits (v ++ [true])) :=
      (SszType.bitlist n).serialize_eq_of_fits trivial v trivial
    exact .lift hser (.lift (removeDelimiter_packBits v) ((costs_packBits P s cpuCount hfit hwithin).bind
      fun hash _ => costs_hash2Chunks P.hashtreeHash hash _))
  | _, .bitset n, v, _, hfit, s, cpuCount, _ => by
    have hser : (SszType.bitset n).serialize v = .ok (packBits v.1) :=
      (SszType.bitset n).serialize_eq_of_fits trivial v trivial
    have hcost := costs_packBits P s cpuCount hfit (le_of_eq v.2)
    rw [v.2] at hcost
    exact .lift hser hcost
  | _, .container _ ms, v, hwithin, hfit, s, cpuCount, _ => by
    refine (Members.costs_memberRoots ms v hwithin hfit s.first cpuCount).bind fun bytes hbytes => ?_
    have hcount : chunkCount bytes.length = ms.count := by
      rw [hbytes]
      change (ms.count * 32 + 31) / 32 = ms.count
      omega
    have hcost := costs_bytes P s.second cpuCount bytes (.inl (rfl : 0 = 0))
    rwa [hcount, layersSize_treeDepth, effectiveLimit_zero] at hcost

theorem Members.costs_memberRoots : {α : Type} → (ms : Members α) → (v : α) → ms.WithinLimits v → ms.LimitsFit v →
    (s : Schedule) → (cpuCount : Nat) →
    Costs (ms.memberRoots P s v cpuCount) (fun bytes => bytes.length = ms.count * 32) (ms.hashes v)
  | _, .nil, _, _, _, _, _ => costs_pure rfl
  | _, .cons m ms, (v, vs), hwithin, hfit, s, cpuCount => by
    refine (SszType.costs_hashTreeRoot m v hwithin.1 hfit.1 s.first cpuCount zeroHash).bind fun c _ =>
      (Members.costs_memberRoots ms vs hwithin.2 hfit.2 s.second cpuCount).bind fun cs hcs => costs_pure ?_
    rw [List.length_append, c.length, hcs, Members.count]
    omega

end

/-- The pair hash is called equally often for every order of the halves and every number of threads:
once for each node of the serial trees. -/
theorem hashTreeRoot_hashes (τ : SszType α) (v : α) (hwithin : τ.WithinLimits v) (hfit : τ.LimitsFit v)
    (s : Schedule) (cpuCount : Nat) :
    ∃ root events, (τ.hashTreeRoot P s v cpuCount zeroHash).run = .ok (root, events) ∧
      digestCount events = τ.hashes v := by
  obtain ⟨root, hyields, -⟩ :=
    SszType.exists_root (K := fun _ => True) P (fun _ _ => trivial) τ v hwithin hfit (.inl fun _ => trivial)
  obtain ⟨events, hrun, -, -⟩ := hyields s cpuCount
  exact ⟨root, events, hrun, (SszType.costs_hashTreeRoot P τ v hwithin hfit s cpuCount zeroHash root events hrun).2⟩

/-- Five roots in a list of at most eight, split between four threads. -/
theorem hashTreeRoot_hashes_sample :
    ∃ root events, ((SszType.list (.array (.basic .byte) 32) 8).hashTreeRoot samplePlatform (fun _ => true)
        (List.replicate 5 zeroHash) 0 zeroHash).run = .ok (root, events) ∧ digestCount events = 7 :=
  hashTreeRoot_hashes samplePlatform (.list (.array (.basic .byte) 32) 8) (List.replicate 5 zeroHash)
    ⟨by decide, fun _ _ _ _ => trivial⟩ ⟨nofun, fun _ _ _ _ => trivial⟩ (fun _ => true) 0

end Sszpp
