import Sszpp.Proofs.Threads

/-!
# How the tree buffer is filled

`sparse_hash_tree` writes its buffer from the beginning to the end: every write begins where the
last one ended, and no node is read before it is written. Three computations of one size have to
agree for that: the positions the layers return, the loop of `compute_hashtree_size`, and the
number of layers of the tree.
-/

namespace Sszpp

open Library

/-- The position after the last write, if every write begins where the one before it ended and
stays inside the buffer, every node read is already written, and the input is read inside its
`length` bytes and `zero_hash_array` inside its 42 chunks. -/
def frontier (length : Nat) : (written : Nat) → List Event → Option Nat
  | n, [] => some n
  | n, .digest _ _ :: events => frontier length n events
  | n, .input pos len _ :: events => if pos + len ≤ length then frontier length n events else none
  | n, .load pos len _ :: events => if pos + len ≤ n then frontier length n events else none
  | n, .store pos len size :: events =>
    if pos = n ∧ pos + len ≤ size then frontier length (n + len) events else none
  | n, .zeroHash i :: events => if i < zeroHashDepth then frontier length n events else none

lemma frontier_append (length n : Nat) (events events' : List Event) :
    frontier length n (events ++ events') =
      (frontier length n events).bind fun m => frontier length m events' := by
  induction events generalizing n with
  | nil => rfl
  | cons e events ih =>
    cases e with
    | digest a b => exact ih n
    | _ =>
      simp only [List.cons_append, frontier, ih]
      split <;> rfl

section Fills

variable {α β : Type} {length n m k : Nat} {Q : α → Prop} {R : β → Prop}

/-- The function returns a value with `Q` and moves the frontier from `n` to `m`. -/
def Fills (length n m : Nat) (x : Hashing α) (Q : α → Prop) : Prop :=
  ∃ a events, x.run = .ok (a, events) ∧ frontier length n events = some m ∧ Q a

lemma Fills.bind {x : Hashing α} {f : α → Hashing β} (hx : Fills length n m x Q)
    (hf : ∀ a, Q a → Fills length m k (f a) R) : Fills length n k (x >>= f) R := by
  obtain ⟨a, events, hrun, hfront, ha⟩ := hx
  obtain ⟨b, events', hrun', hfront', hb⟩ := hf a ha
  refine ⟨b, events ++ events', ?_, ?_, hb⟩
  · change (x.run >>= fun p => (fun q => (q.1, p.2 ++ q.2)) <$> (f p.1).run) = _
    rw [hrun, Outcome.ok_bind, hrun']
    rfl
  · rw [frontier_append, hfront, Option.bind_some, hfront']

lemma fills_pure {a : α} (ha : Q a) : Fills length n n (pure a : Hashing α) Q :=
  ⟨a, [], rfl, rfl, ha⟩

lemma Fills.mono {x : Hashing α} {Q' : α → Prop} (hx : Fills length n m x Q) (h : ∀ a, Q a → Q' a) :
    Fills length n m x Q' := by
  obtain ⟨a, events, hrun, hfront, ha⟩ := hx
  exact ⟨a, events, hrun, hfront, h a ha⟩

lemma fills_readInput {pos len : Nat} {chunks : Bytes} (h : pos + len ≤ length) :
    Fills length n n (readInput pos len chunks) (fun bytes => bytes.length ≤ len) := by
  refine ⟨_, [.input pos len chunks.length], rfl, ?_, List.length_take_le _ _⟩
  simp only [frontier, if_pos h]

lemma fills_loadNodes {pos len : Nat} (buf : Bytes) (h : pos + len ≤ n) :
    Fills length n n (loadNodes pos len buf) (fun _ => True) := by
  refine ⟨_, [.load pos len buf.length], rfl, ?_, trivial⟩
  simp only [frontier, if_pos h]

lemma fills_storeNodes {bytes buf : Bytes} (h : n + bytes.length ≤ buf.length) :
    Fills length n (n + bytes.length) (storeNodes n bytes buf) (fun out => out.length = buf.length) := by
  refine ⟨_, [.store n bytes.length buf.length], rfl, ?_, ?_⟩
  · rw [frontier, if_pos ⟨rfl, h⟩, frontier]
  · simp only [List.length_take, List.length_append, List.length_drop]
    omega

lemma fills_zeroHashAt (H : PairHash) {i : Nat} (h : i < zeroHashDepth) :
    Fills length n n (zeroHashAt H i) (fun _ => True) := by
  refine ⟨_, [.zeroHash i], rfl, ?_, trivial⟩
  simp only [frontier, if_pos h]

lemma fills_hashtreeHash (H : PairHash) (count : Nat) (input : Bytes) :
    Fills length n n (hashtreeHash H count input) (fun nodes => nodes.length = count * 32) := by
  induction count generalizing input with
  | zero => exact fills_pure rfl
  | succ count ih =>
    have hdigest : ∀ a b : Chunk, Fills length n n (hash2Chunks H a b) (fun _ => True) :=
      fun a b => ⟨_, [.digest a b], rfl, rfl, trivial⟩
    apply (hdigest _ _).bind
    intro c _
    apply (ih _).bind
    intro cs hcs
    apply fills_pure
    rw [List.length_append, c.2, hcs]
    ring

/-- Hashing into the buffer: the position after the hashes is the new frontier. -/
lemma fills_hashInto (H : PairHash) {count : Nat} (input : Bytes) {buf : Bytes} {size : Nat}
    (hsize : buf.length = size) (h : n + count * 32 ≤ size) :
    Fills length n (n + count * 32) (hashInto H n input count buf)
      (fun p => p.1 = n + count * 32 ∧ p.2.length = size) := by
  apply (fills_hashtreeHash H count input).bind
  intro nodes hnodes
  rw [← hnodes] at h ⊢
  apply (fills_storeNodes (by omega)).bind
  intro out hout
  apply fills_pure
  exact ⟨by rw [hnodes], hout.trans hsize⟩

/-! ### The layers -/

lemma fills_hashFirstLayer (H : PairHash) {chunks buf : Bytes} {size : Nat} (hsize : buf.length = size)
    (hpos : 0 < chunks.length) (h : n + (chunkCount chunks.length + 1) / 2 * 32 ≤ size) :
    Fills chunks.length n (n + (chunkCount chunks.length + 1) / 2 * 32) (hashFirstLayer H n chunks buf)
      (fun p => p.1 = n + (chunkCount chunks.length + 1) / 2 * 32 ∧ p.2.length = size) := by
  have hcount : chunkCount chunks.length = (chunks.length + 31) / 32 := rfl
  simp only [hashFirstLayer, BYTES_PER_CHUNK]
  split
  · rename_i heven
    have hhalf : (chunkCount chunks.length + 1) / 2 = chunkCount chunks.length / 2 := by omega
    rw [hhalf] at h ⊢
    apply (fills_readInput (by omega)).bind
    intro input _
    exact fills_hashInto H input hsize h
  · rename_i hodd
    obtain ⟨b, hb⟩ : ∃ b, b = (chunkCount chunks.length - 1) / 2 := ⟨_, rfl⟩
    have hhalf : (chunkCount chunks.length + 1) / 2 = b + 1 := by omega
    have hend : n + (b + 1) * 32 = n + b * 32 + 1 * 32 := by ring
    rw [hhalf, hend] at h ⊢
    rw [← hb]
    have hfirst : Fills chunks.length n (n + b * 32)
        (if b ≠ 0 then do
          let input ← readInput 0 (b * (2 * 32)) chunks
          hashInto H n input b buf
        else pure (n, buf)) (fun p => p.1 = n + b * 32 ∧ p.2.length = size) := by
      split
      · apply (fills_readInput (by omega)).bind
        intro input _
        exact fills_hashInto H input hsize (by omega)
      · rename_i hzero
        obtain rfl : b = 0 := not_not.mp hzero
        exact fills_pure ⟨rfl, hsize⟩
    apply hfirst.bind
    rintro ⟨pos, buf⟩ ⟨rfl, hbuf⟩
    apply (fills_readInput (by omega)).bind
    intro rest _
    exact fills_hashInto H _ hbuf h

/-- The `k` nodes below the frontier from `first` on. -/
lemma fills_hashLayer (H : PairHash) {height : Nat} (hheight : height < zeroHashDepth)
    {first k : Nat} (hfirst : first + k * 32 = n) {buf : Bytes} {size : Nat}
    (hsize : buf.length = size) (h : n + (k + 1) / 2 * 32 ≤ size) :
    Fills length n (n + (k + 1) / 2 * 32) (hashLayer H height first n buf)
      (fun p => p.1 = n + (k + 1) / 2 * 32 ∧ p.2.length = size) := by
  have hdist : (n - first) / 32 = k := by omega
  have hpairs : Fills length n (n + k / 2 * 32)
      (if 1 < k then do
        let input ← loadNodes first (k / 2 * (2 * 32)) buf
        hashInto H n input (k / 2) buf
      else pure (n, buf)) (fun p => p.1 = n + k / 2 * 32 ∧ p.2.length = size) := by
    split
    · apply (fills_loadNodes buf (by omega)).bind
      intro input _
      exact fills_hashInto H input hsize (by omega)
    · have hzero : k / 2 = 0 := by omega
      rw [hzero, Nat.zero_mul, Nat.add_zero]
      exact fills_pure ⟨rfl, hsize⟩
  simp only [hashLayer, BYTES_PER_CHUNK, hdist]
  apply hpairs.bind
  rintro ⟨pos, buf⟩ ⟨rfl, hbuf⟩
  split
  · rename_i hodd
    have hend : n + (k + 1) / 2 * 32 = n + k / 2 * 32 + 1 * 32 := by omega
    rw [hend] at h ⊢
    apply (fills_loadNodes buf (by omega)).bind
    intro node _
    apply (fills_zeroHashAt H hheight).bind
    intro zero _
    exact fills_hashInto H _ hbuf h
  · have hend : (k + 1) / 2 = k / 2 := by omega
    rw [hend]
    exact fills_pure ⟨rfl, hbuf⟩

lemma fills_sparseHashLayers (H : PairHash) {count height : Nat} (hheight : height + count ≤ zeroHashDepth)
    {first k : Nat} (hfirst : first + k * 32 = n) {buf : Bytes} {size : Nat}
    (hsize : buf.length = size) (h : n + hashtreeSizeLoop count k 0 * 32 = size) :
    Fills length n size (sparseHashLayers H count height first n buf) (fun out => out.length = size) := by
  induction count generalizing height first k n buf with
  | zero =>
    obtain rfl : n = size := by simpa [hashtreeSizeLoop] using h
    exact fills_pure hsize
  | succ count ih =>
    rw [hashtreeSizeLoop_succ, hashtreeSizeLoop_eq_add] at h
    apply (fills_hashLayer H (by omega) hfirst hsize (by omega)).bind
    rintro ⟨next, buf⟩ ⟨rfl, hbuf⟩
    exact ih (by omega) rfl hbuf (by omega)

/-- A tree with layers above the chunks fills its buffer. -/
lemma fills_inPlace (H : PairHash) {chunks : Bytes} (hpos : 0 < chunks.length) {depth : Nat}
    (hdepth : depth < zeroHashDepth) {buf : Bytes}
    (hsize : buf.length = computeHashtreeSize (chunkCount chunks.length) (depth + 1)) :
    Fills chunks.length 0 buf.length (sparseHashTreeInPlace H 0 chunks (depth + 1) buf)
      (fun out => out.length = buf.length) := by
  rw [computeHashtreeSize, if_neg (Nat.succ_ne_zero depth), hashtreeSizeLoop_succ,
    hashtreeSizeLoop_eq_add, BYTES_PER_CHUNK] at hsize
  apply (fills_hashFirstLayer H rfl hpos (by omega)).bind
  rintro ⟨last, out⟩ ⟨rfl, hout⟩
  exact fills_sparseHashLayers H (by omega) (k := (chunkCount chunks.length + 1) / 2) rfl hout (by omega)

/-- A tree of depth 0 is a copy of the input. -/
lemma fills_copy (H : PairHash) {chunks buf : Bytes} (h : chunks.length ≤ buf.length) :
    Fills chunks.length 0 chunks.length (sparseHashTreeInPlace H 0 chunks 0 buf)
      (fun out => out.length = buf.length) := by
  have hread : (chunks.drop 0).take chunks.length = chunks := by
    rw [List.drop_zero, List.take_length]
  have hstore : Fills chunks.length 0 (0 + chunks.length) (storeNodes 0 chunks buf)
      (fun out => out.length = buf.length) := fills_storeNodes (by omega)
  rw [Nat.zero_add] at hstore
  have hinput : Fills chunks.length 0 0 (readInput 0 chunks.length chunks) (· = chunks) :=
    ⟨_, [.input 0 chunks.length chunks.length], rfl, by simp [frontier], hread⟩
  apply hinput.bind
  rintro bytes rfl
  exact hstore

end Fills

/-! ### The tree -/

/-- The run returns a buffer whose last chunk is the root of the complete tree over the chunks of the
input, it writes the first `written` bytes of that buffer in order, and the buffer has the size
that `compute_hashtree_size` gives unless there is no input. -/
def BuildsTree (H : PairHash) (bytes : Bytes) (limit written : Nat) : Prop :=
  ∃ tree events, (sparseHashTree H bytes limit).run = .ok (tree, events) ∧
    lastChunk tree =
      merkleize H (chunksOf bytes) (effectiveLimit limit (chunkCount bytes.length)) ∧
    frontier bytes.length 0 events = some written ∧
    (bytes ≠ [] → tree.length =
      computeHashtreeSize (chunkCount bytes.length) (treeDepth limit (chunkCount bytes.length)))

lemma fills_sparseHashTree (H : PairHash) {bytes : Bytes} {limit : Nat}
    (h : LimitHolds limit (chunkCount bytes.length)) :
    Fills bytes.length 0
      (if bytes = [] ∨ treeDepth limit (chunkCount bytes.length) = 0 then bytes.length
      else computeHashtreeSize (chunkCount bytes.length) (treeDepth limit (chunkCount bytes.length)))
      (sparseHashTree H bytes limit) (fun tree => bytes ≠ [] → tree.length =
        computeHashtreeSize (chunkCount bytes.length) (treeDepth limit (chunkCount bytes.length))) := by
  have hdepth := treeDepth_le h.effectiveLimit_le
  have hle := le_two_pow_treeDepth h.le
  simp only [sparseHashTree]
  by_cases hnil : bytes = []
  · subst hnil
    have hcount : chunkCount ([] : Bytes).length = 0 := rfl
    rw [if_pos (.inl rfl), if_pos hcount]
    apply (fills_zeroHashAt H (Nat.lt_succ_of_le hdepth)).bind
    intro zero _
    exact fills_pure fun hne => absurd rfl hne
  · have hpos := List.length_pos_of_ne_nil hnil
    rw [if_neg (Nat.ne_of_gt (chunkCount_pos hpos))]
    cases hd : treeDepth limit (chunkCount bytes.length) with
    | zero =>
      rw [hd] at hle
      have hbytes : bytes.length ≤ 32 := by
        change (bytes.length + 31) / 32 ≤ 1 at hle
        omega
      rw [if_pos (.inr rfl)]
      exact (fills_copy H hbytes).mono fun out hout _ => hout
    | succ depth =>
      have hne : ¬ (bytes = [] ∨ depth + 1 = 0) := by simp [hnil]
      have hsize := length_zeros (computeHashtreeSize (chunkCount bytes.length) (depth + 1))
      have hfill := fills_inPlace H hpos (show depth < 42 by omega) hsize
      rw [hsize] at hfill
      rw [if_neg hne]
      exact hfill.mono fun out hout _ => hout

/-- The root of a tree is what the function that calls `sparse_hash_tree` returns. -/
lemma lastChunk_of_returns {H : PairHash} {bytes tree : Bytes} {limit : Nat} {events : List Event}
    (hrun : (sparseHashTree H bytes limit).run = .ok (tree, events)) {c : Chunk}
    (h : Returns (htrLittleEndian H bytes limit) c) : lastChunk tree = c := by
  obtain ⟨events', hroot⟩ := h
  have hbind : (htrLittleEndian H bytes limit).run = .ok (lastChunk tree, events ++ []) := by
    change ((sparseHashTree H bytes limit).run >>= fun p => _) = _
    rw [hrun]
    rfl
  rw [hbind] at hroot
  exact (Prod.mk.inj (Except.ok.inj hroot)).1

/-- `sparse_hash_tree` reads the input only, writes every byte of its buffer once and in order, and
leaves the root at its end. A tree of depth 0 is the one chunk of the input, of which only the bytes
of the input are written: the rest of the new buffer is zero. -/
theorem sparseHashTree_builds (H : PairHash) (bytes : Bytes) (limit : Nat)
    (h : LimitHolds limit (chunkCount bytes.length)) :
    BuildsTree H bytes limit
      (if bytes = [] ∨ treeDepth limit (chunkCount bytes.length) = 0 then bytes.length
      else computeHashtreeSize (chunkCount bytes.length) (treeDepth limit (chunkCount bytes.length))) := by
  have hlen := length_chunksOf bytes
  have hadmits := h.admits
  rw [← hlen] at hadmits
  have hroot := (yields_htrLittleEndian H hadmits.le hadmits.depth).returns
  have heffective : effectiveLimit limit (chunksOf bytes).length ≤ 2 ^ 41 := by
    rw [hlen]
    exact h.effectiveLimit_le
  have hvalue := vectorRoot_eq_merkleize H heffective
  rw [← vectorRoot, hvalue, hlen] at hroot
  obtain ⟨tree, events, hrun, hfront, hsize⟩ := fills_sparseHashTree H h
  exact ⟨tree, events, hrun, lastChunk_of_returns hrun hroot, hfront, hsize⟩

/-- Five bytes in a tree with room for three chunks. -/
theorem sparseHashTree_builds_sample :
    BuildsTree samplePlatform.hashtreeHash [1, 2, 3, 4, 5] 3 64 :=
  sparseHashTree_builds samplePlatform.hashtreeHash [1, 2, 3, 4, 5] 3 ⟨by decide, by decide, by decide⟩

/-- One byte is the only one written of a tree of depth 0, which has 32 bytes. -/
theorem sparseHashTree_copies :
    LimitHolds 0 (chunkCount 1) ∧ computeHashtreeSize (chunkCount 1) (treeDepth 0 (chunkCount 1)) = 32 ∧
      ¬ BuildsTree samplePlatform.hashtreeHash [7] 0 32 := by
  refine ⟨⟨by decide, by decide, by decide⟩, by decide, ?_⟩
  rintro ⟨tree, events, hrun, -, hfront, -⟩
  have hevents : events = [.input 0 1 1, .store 0 1 32] := (Prod.mk.inj (Except.ok.inj hrun)).2.symm
  rw [hevents] at hfront
  exact absurd hfront (by decide)

end Sszpp
