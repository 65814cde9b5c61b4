import Sszpp.Spec.Root

/-!
# The sparse tree

`sparse_hash_tree` computes the layers of the tree one after another in one buffer. The invariant of
a layer: the bytes from `first` up to `last` are its nodes and what follows has room for exactly
the layers above.
-/

namespace Sszpp

open Library

variable {α β : Type}

/-! ### Results and events -/

/-- The access is in range; the index of a zero hash satisfies `K`. -/
def Event.Within (K : Nat → Prop) : Event → Prop
  | .digest _ _ => True
  | .input pos len size => pos + len ≤ size
  | .load pos len size => pos + len ≤ size
  | .store pos len size => pos + len ≤ size
  | .zeroHash i => K i

/-- The function returns `a`, every access is in range, and it hashes the given blocks. -/
def Yields (K : Nat → Prop) (x : Hashing α) (a : α) (blocks : List (Chunk × Chunk)) : Prop :=
  ∃ events, x.run = .ok (a, events) ∧ (∀ e ∈ events, e.Within K) ∧
    ∀ p ∈ blocks, Event.digest p.1 p.2 ∈ events

/-- The function returns `a`. -/
def Returns (x : Hashing α) (a : α) : Prop := ∃ events, x.run = .ok (a, events)

variable {K : Nat → Prop}

lemma Yields.returns {x : Hashing α} {a : α} {blocks : List (Chunk × Chunk)} (h : Yields K x a blocks) :
    Returns x a := by
  obtain ⟨events, hrun, -, -⟩ := h
  exact ⟨events, hrun⟩

lemma yields_pure (a : α) : Yields K (pure a : Hashing α) a [] :=
  ⟨[], rfl, by simp, by simp⟩

lemma yields_tell {e : Event} (h : e.Within K) : Yields K (tell [e] : Hashing PUnit) ⟨⟩ [] :=
  ⟨[e], rfl, by simpa using h, by simp⟩

lemma run_bind_eq_ok {x : Hashing α} {f : α → Hashing β} {b : β} {events : List Event}
    (h : (x >>= f).run = .ok (b, events)) :
    ∃ a first second, x.run = .ok (a, first) ∧ (f a).run = .ok (b, second) ∧ events = first ++ second := by
  change (x.run >>= fun p => (fun q => (q.1, p.2 ++ q.2)) <$> (f p.1).run) = _ at h
  obtain ⟨⟨a, first⟩, hx, hrest⟩ := Outcome.bind_eq_ok.mp h
  cases hf : (f a).run with
  | error stop =>
    rw [hf] at hrest
    cases hrest
  | ok result =>
    obtain ⟨b', second⟩ := result
    rw [hf] at hrest
    cases hrest
    exact ⟨a, first, second, hx, hf, rfl⟩

lemma Yields.bind {x : Hashing α} {f : α → Hashing β} {a : α} {b : β}
    {blocks blocks' : List (Chunk × Chunk)} (hx : Yields K x a blocks)
    (hf : Yields K (f a) b blocks') : Yields K (x >>= f) b (blocks ++ blocks') := by
  obtain ⟨events, hrun, hin, hblocks⟩ := hx
  obtain ⟨events', hrun', hin', hblocks'⟩ := hf
  refine ⟨events ++ events', ?_, ?_, ?_⟩
  · change (x.run >>= fun p => (fun q => (q.1, p.2 ++ q.2)) <$> (f p.1).run) = _
    rw [hrun, Outcome.ok_bind, hrun']
    rfl
  · intro e he
    rcases List.mem_append.mp he with he | he
    · exact hin e he
    · exact hin' e he
  · intro p hp
    rcases List.mem_append.mp hp with hp | hp
    · exact List.mem_append_left _ (hblocks p hp)
    · exact List.mem_append_right _ (hblocks' p hp)

lemma Yields.bind_pure {x : Hashing α} {a : α} {blocks : List (Chunk × Chunk)}
    (hx : Yields K x a blocks) (f : α → β) : Yields K (x >>= fun a => pure (f a)) (f a) blocks := by
  have h := hx.bind (f := fun a => pure (f a)) (yields_pure (f a))
  rwa [List.append_nil] at h

lemma Yields.mono {x : Hashing α} {a : α} {blocks blocks' : List (Chunk × Chunk)}
    (h : Yields K x a blocks) (hsub : blocks' ⊆ blocks) : Yields K x a blocks' := by
  obtain ⟨events, hrun, hin, hblocks⟩ := h
  exact ⟨events, hrun, hin, fun p hp => hblocks p (hsub hp)⟩

variable (H : PairHash)

lemma yields_hash2Chunks (a b : Chunk) : Yields K (hash2Chunks H a b) (H a b) [(a, b)] :=
  ⟨[.digest a b], rfl, by simp [Event.Within], by simp⟩

/-- What the code uses as the root of an empty tree of depth `i`. -/
def zeroNode (i : Nat) : Chunk := (zeroHashArray H).getD i zeroHash

lemma yields_zeroHashAt {i : Nat} (h : K i) : Yields K (zeroHashAt H i) (zeroNode H i) [] :=
  ⟨[.zeroHash i], rfl, by simpa [Event.Within] using h, by simp⟩

/-! ### Chunks -/

lemma Chunk.length (c : Chunk) : c.1.length = 32 := c.2

lemma Chunk.ofBytes_append (c : Chunk) (rest : Bytes) : Chunk.ofBytes (c.1 ++ rest) = c := by
  apply Subtype.ext
  have htake : (c.1 ++ rest).take 32 = c.1 := List.take_left' c.2
  simp only [Chunk.ofBytes, Chunk.copy, BYTES_PER_CHUNK, htake]
  rw [List.drop_eq_nil_of_le (by rw [zeroHash.2, c.2]), List.append_nil]

lemma Chunk.ofBytes_self (c : Chunk) : Chunk.ofBytes c.1 = c := by
  simpa using Chunk.ofBytes_append c []

lemma Chunk.val_ofBytes {bytes : Bytes} (h : bytes.length ≤ 32) :
    (Chunk.ofBytes bytes).1 = bytes ++ zeros (32 - bytes.length) := by
  simp only [Chunk.ofBytes, Chunk.copy, BYTES_PER_CHUNK, List.take_of_length_le h, zeroHash, zeros,
    List.drop_replicate]

lemma Chunk.val_ofBytes_of_le {bytes : Bytes} (h : 32 ≤ bytes.length) :
    (Chunk.ofBytes bytes).1 = bytes.take 32 := by
  have hlen : (bytes.take 32).length = 32 := List.length_take_of_le h
  simp only [Chunk.ofBytes, Chunk.copy, BYTES_PER_CHUNK, hlen]
  rw [List.drop_eq_nil_of_le (le_of_eq zeroHash.2), List.append_nil]

lemma Chunk.ofBytes_take (bytes : Bytes) : Chunk.ofBytes (bytes.take 32) = Chunk.ofBytes bytes := by
  simp only [Chunk.ofBytes, Chunk.copy, BYTES_PER_CHUNK, List.take_take, Nat.min_self]

lemma Chunk.ofBytes_append_zeros (bytes : Bytes) (k : Nat) :
    Chunk.ofBytes (bytes ++ zeros k) = Chunk.ofBytes bytes := by
  rcases Nat.lt_or_ge bytes.length 32 with hlt | hge
  · apply Subtype.ext
    rw [Chunk.val_ofBytes (le_of_lt hlt), ← Chunk.ofBytes_take, Chunk.val_ofBytes (by simp),
      List.take_append, List.take_of_length_le (le_of_lt hlt), List.append_assoc, zeros,
      List.take_replicate, zeros, zeros, ← List.replicate_add]
    congr 2
    simp only [List.length_append, List.length_replicate]
    omega
  · rw [← Chunk.ofBytes_take, List.take_append_of_le_length hge, Chunk.ofBytes_take]

/-- The bytes of a layer. -/
def bytesOf (nodes : List Chunk) : Bytes := nodes.flatMap Subtype.val

@[simp] lemma bytesOf_nil : bytesOf [] = [] := rfl

@[simp] lemma bytesOf_cons (c : Chunk) (cs : List Chunk) : bytesOf (c :: cs) = c.1 ++ bytesOf cs := rfl

@[simp] lemma bytesOf_append (cs ds : List Chunk) : bytesOf (cs ++ ds) = bytesOf cs ++ bytesOf ds :=
  List.flatMap_append

@[simp] lemma length_bytesOf (nodes : List Chunk) : (bytesOf nodes).length = nodes.length * 32 :=
  length_flatMap_const _ _ fun c _ => c.2

lemma chunksOf_bytesOf_append (nodes : List Chunk) (bytes : Bytes) :
    chunksOf (bytesOf nodes ++ bytes) = nodes ++ chunksOf bytes := by
  induction nodes with
  | nil => rfl
  | cons c cs ih =>
    rw [bytesOf_cons, List.append_assoc, chunksOf, pieces_append (by decide) c.2, List.map_cons,
      Chunk.ofBytes_self, ← chunksOf, ih, List.cons_append]

lemma chunksOf_bytesOf (nodes : List Chunk) : chunksOf (bytesOf nodes) = nodes := by
  simpa [chunksOf] using chunksOf_bytesOf_append nodes []

@[simp] lemma length_chunksOf (bytes : Bytes) : (chunksOf bytes).length = chunkCount bytes.length := by
  rw [chunksOf, List.length_map, length_pieces, chunkCount]

/-- Whole chunks. -/
lemma bytesOf_chunksOf {bytes : Bytes} (h : bytes.length % 32 = 0) : bytesOf (chunksOf bytes) = bytes := by
  have hchunk : ∀ p ∈ pieces BYTES_PER_CHUNK bytes, (Chunk.ofBytes p).1 = p := by
    intro p hp
    have hlen : p.length = 32 := length_of_mem_pieces (by decide) h hp
    rw [Chunk.val_ofBytes_of_le (le_of_eq hlen.symm), List.take_of_length_le (le_of_eq hlen)]
  rw [bytesOf, chunksOf, List.flatMap_map, List.flatMap_def, List.map_congr_left hchunk,
    List.map_id', flatten_pieces (by decide)]

lemma chunksOf_append {xs : Bytes} (h : xs.length % 32 = 0) (ys : Bytes) :
    chunksOf (xs ++ ys) = chunksOf xs ++ chunksOf ys := by
  have happend := chunksOf_bytesOf_append (chunksOf xs) ys
  rwa [bytesOf_chunksOf h] at happend

lemma chunksOf_of_ne_nil {bytes : Bytes} (h : bytes ≠ []) :
    chunksOf bytes = Chunk.ofBytes bytes :: chunksOf (bytes.drop 32) := by
  rw [chunksOf, pieces_of_ne_nil (by decide) h, List.map_cons, Chunk.ofBytes_take, chunksOf]

/-! ### Hashing into the buffer -/

/-- The hashes of the first nodes of the input; their number is even. -/
lemma yields_hashtreeHash (z : Chunk) {count : Nat} {nodes : List Chunk}
    (hlen : nodes.length = 2 * count) (rest : Bytes) :
    Yields K (hashtreeHash H count (bytesOf nodes ++ rest)) (bytesOf (pairUp H z nodes)) (pairs z nodes) := by
  induction count generalizing nodes with
  | zero =>
    obtain rfl : nodes = [] := List.length_eq_zero_iff.mp hlen
    exact yields_pure []
  | succ count ih =>
    match nodes with
    | [] => simp at hlen
    | [a] =>
      rw [List.length_singleton] at hlen
      omega
    | a :: b :: nodes =>
      have hfirst : Chunk.ofBytes (bytesOf (a :: b :: nodes) ++ rest) = a := by
        rw [bytesOf_cons, List.append_assoc, Chunk.ofBytes_append]
      have hsecond : Chunk.ofBytes ((bytesOf (a :: b :: nodes) ++ rest).drop 32) = b := by
        rw [bytesOf_cons, List.append_assoc, List.drop_left' a.2, bytesOf_cons, List.append_assoc,
          Chunk.ofBytes_append]
      have hdrop : (bytesOf (a :: b :: nodes) ++ rest).drop 64 = bytesOf nodes ++ rest := by
        have hsplit : bytesOf (a :: b :: nodes) ++ rest = a.1 ++ b.1 ++ (bytesOf nodes ++ rest) := by
          simp
        have hblock : (a.1 ++ b.1).length = 64 := by
          rw [List.length_append, a.length, b.length]
        rw [hsplit, List.drop_left' hblock]
      simp only [List.length_cons] at hlen
      simp only [hashtreeHash, BYTES_PER_CHUNK, hfirst, hsecond, Nat.reduceMul, hdrop]
      have hcount : nodes.length = 2 * count := by omega
      have htail := (ih hcount).bind_pure fun cs => (H a b).1 ++ cs
      exact ((yields_hash2Chunks H a b).bind htail).mono (by simp [pairs])

lemma yields_readInput {pos len : Nat} {chunks : Bytes} (h : pos + len ≤ chunks.length) :
    Yields K (readInput pos len chunks) ((chunks.drop pos).take len) [] :=
  (yields_tell (by simpa [Event.Within] using h)).bind (yields_pure _)

lemma yields_loadNodes {pos len : Nat} {pre mid post : Bytes} (hpos : pos = pre.length)
    (hlen : len = mid.length) : Yields K (loadNodes pos len (pre ++ mid ++ post)) mid [] := by
  have hload : ((pre ++ mid ++ post).drop pos).take len = mid := by
    rw [hpos, hlen, List.append_assoc, List.drop_left, List.take_left]
  have hin : pos + len ≤ (pre ++ mid ++ post).length := by
    simp only [List.length_append]
    omega
  have hyields : Yields K (loadNodes pos len (pre ++ mid ++ post))
      (((pre ++ mid ++ post).drop pos).take len) [] :=
    (yields_tell (e := .load pos len (pre ++ mid ++ post).length) hin).bind (yields_pure _)
  rwa [hload] at hyields

lemma yields_storeNodes {pos : Nat} {bytes pre old post : Bytes} (hpos : pos = pre.length)
    (hlen : bytes.length = old.length) :
    Yields K (storeNodes pos bytes (pre ++ old ++ post)) (pre ++ bytes ++ post) [] := by
  have hstore : ((pre ++ old ++ post).take pos ++ bytes ++
      (pre ++ old ++ post).drop (pos + bytes.length)).take (pre ++ old ++ post).length =
        pre ++ bytes ++ post := by
    have hdrop : (pre ++ old ++ post).drop (pos + bytes.length) = post := by
      rw [hpos, hlen, ← List.length_append, List.drop_left]
    rw [hdrop, hpos, List.append_assoc pre, List.take_left, List.take_of_length_le]
    simp [hlen]
  have hin : pos + bytes.length ≤ (pre ++ old ++ post).length := by
    simp only [List.length_append]
    omega
  have hyields : Yields K (storeNodes pos bytes (pre ++ old ++ post))
      (((pre ++ old ++ post).take pos ++ bytes ++
        (pre ++ old ++ post).drop (pos + bytes.length)).take (pre ++ old ++ post).length) [] :=
    (yields_tell (e := .store pos bytes.length (pre ++ old ++ post).length) hin).bind (yields_pure _)
  rwa [hstore] at hyields

lemma yields_hashInto (z : Chunk) {output count : Nat} {nodes : List Chunk}
    (hcount : nodes.length = 2 * count) (rest : Bytes) {pre old : Bytes} (post : Bytes)
    (houtput : output = pre.length) (hold : old.length = count * 32) :
    Yields K (hashInto H output (bytesOf nodes ++ rest) count (pre ++ old ++ post))
      (output + count * 32, pre ++ bytesOf (pairUp H z nodes) ++ post) (pairs z nodes) := by
  have hlen : (bytesOf (pairUp H z nodes)).length = old.length := by
    rw [length_bytesOf, length_pairUp, hcount, hold]
    omega
  have hstore : Yields K (storeNodes output (bytesOf (pairUp H z nodes)) (pre ++ old ++ post))
      (pre ++ bytesOf (pairUp H z nodes) ++ post) [] := yields_storeNodes houtput hlen
  exact ((yields_hashtreeHash H z hcount rest).bind
    (hstore.bind_pure fun buf => (output + count * BYTES_PER_CHUNK, buf))).mono (by simp)

/-! ### The first layer -/

/-- The last one or two chunks of the input, completed to a block. -/
lemma lastBlock {bytes : Bytes} (hne : bytes ≠ []) (hle : bytes.length ≤ 64) :
    ∃ a b, pairs zeroHash (chunksOf bytes) = [(a, b)] ∧
      bytes ++ zeros (64 - bytes.length) = bytesOf [a, b] := by
  have hpos := List.length_pos_of_ne_nil hne
  refine ⟨Chunk.ofBytes bytes, Chunk.ofBytes (bytes.drop 32), ?_, ?_⟩
  · rw [chunksOf_of_ne_nil hne]
    by_cases hnil : bytes.drop 32 = []
    · rw [hnil]
      rfl
    · have hlast : (bytes.drop 32).drop 32 = [] :=
        List.drop_eq_nil_of_le (by rw [List.length_drop]; omega)
      rw [chunksOf_of_ne_nil hnil, hlast]
      rfl
  · have hlen : (bytes ++ zeros (64 - bytes.length)).length = 64 := by
      rw [List.length_append, length_zeros]
      omega
    have hne' : bytes ++ zeros (64 - bytes.length) ≠ [] := List.ne_nil_of_length_pos (by omega)
    have hdrop : (bytes ++ zeros (64 - bytes.length)).drop 32 =
        bytes.drop 32 ++ zeros (32 - (bytes.drop 32).length) := by
      rw [List.drop_append, zeros, List.drop_replicate, zeros, List.length_drop]
      congr 2
      omega
    have hdrop' : ((bytes ++ zeros (64 - bytes.length)).drop 32).drop 32 = [] :=
      List.drop_eq_nil_of_le (by simp only [List.length_drop, hlen]; decide)
    have hne'' : (bytes ++ zeros (64 - bytes.length)).drop 32 ≠ [] :=
      List.ne_nil_of_length_pos (by rw [List.length_drop, hlen]; decide)
    have hchunks : chunksOf (bytes ++ zeros (64 - bytes.length)) =
        [Chunk.ofBytes bytes, Chunk.ofBytes (bytes.drop 32)] := by
      rw [chunksOf_of_ne_nil hne', chunksOf_of_ne_nil hne'', hdrop', Chunk.ofBytes_append_zeros,
        hdrop, Chunk.ofBytes_append_zeros]
      rfl
    rw [← hchunks, bytesOf_chunksOf (by rw [hlen])]

/-- `m` full blocks and the last one. -/
lemma chunksOf_blocks {bytes : Bytes} {m : Nat} (hlt : m * 64 < bytes.length)
    (hle : bytes.length ≤ m * 64 + 64) :
    ∃ init a b, bytes.take (m * 64) = bytesOf init ∧ init.length = 2 * m ∧
      pairs zeroHash (chunksOf bytes) = pairs zeroHash init ++ [(a, b)] ∧
      bytes.drop (m * 64) ++ zeros (64 - (bytes.drop (m * 64)).length) = bytesOf [a, b] := by
  have htake : (bytes.take (m * 64)).length = m * 64 := List.length_take_of_le (by omega)
  have hdrop : (bytes.drop (m * 64)).length = bytes.length - m * 64 := List.length_drop
  have hne : bytes.drop (m * 64) ≠ [] := List.ne_nil_of_length_pos (by omega)
  obtain ⟨a, b, hpairs, hblock⟩ := lastBlock hne (by omega)
  have hinit : (chunksOf (bytes.take (m * 64))).length = 2 * m := by
    rw [length_chunksOf, htake]
    change (m * 64 + 31) / 32 = 2 * m
    omega
  refine ⟨chunksOf (bytes.take (m * 64)), a, b, (bytesOf_chunksOf (by omega)).symm, hinit, ?_, hblock⟩
  rw [← hpairs, ← pairs_append _ (by omega), ← chunksOf_append (by omega), List.take_append_drop]

lemma pairUp_append (z : Chunk) {xs : List Chunk} (h : xs.length % 2 = 0) (ys : List Chunk) :
    pairUp H z (xs ++ ys) = pairUp H z xs ++ pairUp H z ys := by
  rw [pairUp, pairs_append z h, List.map_append]
  rfl

/-- The first blocks, if any. -/
lemma yields_firstBlocks {count pos : Nat} {nodes : List Chunk}
    (hcount : nodes.length = 2 * count) {read : Hashing Bytes} {pre old : Bytes} (post : Bytes)
    (hpos : pos = pre.length) (hold : old.length = count * 32)
    (hread : Yields K read (bytesOf nodes) []) {c : Prop} [Decidable c] (hc : ¬ c → count = 0) (z : Chunk) :
    Yields K (if c then do
        let input ← read
        hashInto H pos input count (pre ++ old ++ post)
      else pure (pos, pre ++ old ++ post))
      (pos + count * 32, pre ++ bytesOf (pairUp H z nodes) ++ post) (pairs z nodes) := by
  split
  · have hhash := yields_hashInto (K := K) H z hcount [] post hpos hold
    rw [List.append_nil] at hhash
    exact (hread.bind hhash).mono (by simp)
  · rename_i hzero
    obtain rfl := hc hzero
    obtain rfl : nodes = [] := List.length_eq_zero_iff.mp hcount
    obtain rfl : old = [] := List.length_eq_zero_iff.mp (by omega)
    simpa using yields_pure (K := K) (pos, pre ++ post)

/-- The first layer is written over the leaves, whatever their number and the length of the last. -/
lemma yields_hashFirstLayer {chunks : Bytes} (hne : chunks ≠ []) {pre old post : Bytes}
    (hold : old.length = (chunkCount chunks.length + 1) / 2 * 32) :
    Yields K (hashFirstLayer H pre.length chunks (pre ++ old ++ post))
      (pre.length + (chunkCount chunks.length + 1) / 2 * 32,
        pre ++ bytesOf (pairUp H zeroHash (chunksOf chunks)) ++ post)
      (pairs zeroHash (chunksOf chunks)) := by
  have hpos := List.length_pos_of_ne_nil hne
  have hcount : chunkCount chunks.length = (chunks.length + 31) / 32 := rfl
  have hlen := length_chunksOf chunks
  simp only [hashFirstLayer, BYTES_PER_CHUNK]
  split
  · rename_i heven
    have hbytes := bytesOf_chunksOf heven.2
    have hread : Yields K (readInput 0 (chunkCount chunks.length / 2 * (2 * 32)) chunks)
        (bytesOf (chunksOf chunks) ++ []) [] := by
      have hread := yields_readInput (K := K) (le_of_eq (Nat.zero_add chunks.length))
      rw [List.drop_zero, List.take_length] at hread
      have hall : chunkCount chunks.length / 2 * (2 * 32) = chunks.length := by omega
      rwa [hall, hbytes, List.append_nil]
    have hhash : Yields K (hashInto H pre.length (bytesOf (chunksOf chunks) ++ [])
        (chunkCount chunks.length / 2) (pre ++ old ++ post)) _ _ :=
      yields_hashInto H zeroHash (by omega) [] post rfl (by omega)
    have hhalf : (chunkCount chunks.length + 1) / 2 = chunkCount chunks.length / 2 := by omega
    rw [hhalf]
    exact hread.bind hhash
  · rename_i hodd
    obtain ⟨m, hm⟩ : ∃ m, m = (chunkCount chunks.length - 1) / 2 := ⟨_, rfl⟩
    have hhalf : (chunkCount chunks.length + 1) / 2 = m + 1 := by omega
    obtain ⟨init, a, b, htake, hinit, hpairs, hblock⟩ :=
      chunksOf_blocks (show m * 64 < chunks.length by omega) (by omega)
    obtain ⟨old₁, old₂, rfl, hold₁, hold₂⟩ :=
      exists_append_of_length (show old.length = m * 32 + 1 * 32 by omega)
    have hbuf : pre ++ (old₁ ++ old₂) ++ post = pre ++ old₁ ++ (old₂ ++ post) := by simp
    have hread : Yields K (readInput 0 (m * (2 * 32)) chunks) (bytesOf init) [] := by
      rw [← htake]
      exact yields_readInput (by omega)
    have hrest : Yields K (readInput (m * (2 * 32)) (chunks.length - m * (2 * 32)) chunks)
        ((chunks.drop (m * (2 * 32))).take (chunks.length - m * (2 * 32))) [] :=
      yields_readInput (by omega)
    rw [List.take_of_length_le (le_of_eq List.length_drop)] at hrest
    have hfirst : Yields K (if m ≠ 0 then do
          let input ← readInput 0 (m * (2 * 32)) chunks
          hashInto H pre.length input m (pre ++ old₁ ++ (old₂ ++ post))
        else pure (pre.length, pre ++ old₁ ++ (old₂ ++ post))) _ _ :=
      yields_firstBlocks H hinit _ rfl hold₁ hread (by simp) zeroHash
    have hhash : Yields K (hashInto H (pre.length + m * 32) (bytesOf [a, b] ++ []) 1
        (pre ++ bytesOf (pairUp H zeroHash init) ++ old₂ ++ post)) _ _ :=
      yields_hashInto H zeroHash rfl [] post (by simp [hinit]; omega) hold₂
    rw [List.append_nil, ← hblock, List.append_assoc _ old₂] at hhash
    have hup : pairUp H zeroHash (chunksOf chunks) =
        pairUp H zeroHash init ++ pairUp H zeroHash [a, b] := by
      rw [pairUp, hpairs, List.map_append]
      rfl
    have hend : pre.length + (m + 1) * 32 = pre.length + m * 32 + 1 * 32 := by ring
    simp only [← hm]
    have hblocks : pairs zeroHash (chunksOf chunks) =
        pairs zeroHash init ++ ([] ++ pairs zeroHash [a, b]) := hpairs
    rw [hbuf, hup, hhalf, hend, hblocks, bytesOf_append, ← List.append_assoc pre]
    exact Yields.bind hfirst (Yields.bind hrest hhash)

/-! ### The layers above -/

/-- The last node of an odd number, beside the root of an empty tree. -/
lemma yields_lastNode {height : Nat} (hK : K height) (init : List Chunk) {tail : List Chunk}
    {k next last : Nat} (hle : tail.length ≤ 1) (hk : k % 2 = tail.length) {pre old : Bytes}
    (made post : Bytes)
    (hnext : next = (pre ++ bytesOf (init ++ tail)).length)
    (hlast : last = (pre ++ bytesOf (init ++ tail) ++ made).length) (hold : old.length = tail.length * 32) :
    Yields K (if k % 2 = 1 then do
        let node ← loadNodes (next - 32) 32 (pre ++ bytesOf (init ++ tail) ++ made ++ (old ++ post))
        let zero ← zeroHashAt H height
        hashInto H last (node ++ zero.1) 1 (pre ++ bytesOf (init ++ tail) ++ made ++ (old ++ post))
      else pure (last, pre ++ bytesOf (init ++ tail) ++ made ++ (old ++ post)))
      (last + tail.length * 32,
        pre ++ bytesOf (init ++ tail) ++ made ++ bytesOf (pairUp H (zeroNode H height) tail) ++ post)
      (pairs (zeroNode H height) tail) := by
  match tail, hle with
  | [], _ =>
    rw [if_neg (by rw [hk]; decide), List.length_eq_zero_iff.mp hold]
    simpa using yields_pure (K := K) (last, pre ++ (bytesOf init ++ (made ++ post)))
  | [a], _ =>
    have hodd : k % 2 = 1 := hk
    rw [if_pos hodd]
    have hload : Yields K (loadNodes (next - 32) 32
        (pre ++ bytesOf init ++ a.1 ++ (made ++ (old ++ post)))) a.1 [] := by
      have hpos : next - 32 = (pre ++ bytesOf init).length := by
        simp only [hnext, List.length_append, length_bytesOf, List.length_singleton]
        omega
      exact yields_loadNodes hpos a.length.symm
    have hbuf : pre ++ bytesOf init ++ a.1 ++ (made ++ (old ++ post)) =
        pre ++ bytesOf (init ++ [a]) ++ made ++ (old ++ post) := by simp
    have hhash : Yields K (hashInto H last (bytesOf [a, zeroNode H height] ++ []) 1
        (pre ++ bytesOf (init ++ [a]) ++ made ++ old ++ post)) _ _ :=
      yields_hashInto H (zeroNode H height) rfl [] post hlast hold
    have hnode : bytesOf [a, zeroNode H height] ++ [] = a.1 ++ (zeroNode H height).1 := by simp
    rw [hbuf] at hload
    rw [hnode, List.append_assoc _ old] at hhash
    generalize pre ++ bytesOf (init ++ [a]) ++ made ++ (old ++ post) = buf at hload hhash ⊢
    have hzero : Yields K (zeroHashAt H height >>= fun zero => hashInto H last (a.1 ++ zero.1) 1 buf) _ _ :=
      Yields.bind (yields_zeroHashAt H hK) hhash
    exact Yields.bind hload hzero

/-- One layer over nodes that are in the buffer. -/
lemma yields_hashLayer {height : Nat} (hK : K height) {nodes : List Chunk} {pre old : Bytes}
    (post : Bytes) (hold : old.length = (nodes.length + 1) / 2 * 32) :
    Yields K (hashLayer H height pre.length (pre.length + nodes.length * 32)
        (pre ++ bytesOf nodes ++ (old ++ post)))
      (pre.length + nodes.length * 32 + (nodes.length + 1) / 2 * 32,
        pre ++ bytesOf nodes ++ bytesOf (pairUp H (zeroNode H height) nodes) ++ post)
      (pairs (zeroNode H height) nodes) := by
  have hdist : (pre.length + nodes.length * 32 - pre.length) / 32 = nodes.length := by omega
  obtain ⟨m, hm⟩ : ∃ m, m = nodes.length / 2 := ⟨_, rfl⟩
  obtain ⟨init, tail, hnodes, hinit, htail⟩ :=
    exists_append_of_length (show nodes.length = 2 * m + nodes.length % 2 by omega)
  obtain ⟨old₁, old₂, rfl, hold₁, hold₂⟩ :=
    exists_append_of_length (show old.length = m * 32 + tail.length * 32 by omega)
  have hlast : pre.length + nodes.length * 32 = (pre ++ bytesOf nodes).length := by
    rw [List.length_append, length_bytesOf]
  have hbuf : pre ++ bytesOf nodes ++ (old₁ ++ old₂ ++ post) =
      pre ++ bytesOf nodes ++ old₁ ++ (old₂ ++ post) := by simp
  have hread : Yields K (loadNodes pre.length (m * (2 * 32))
      (pre ++ bytesOf nodes ++ (old₁ ++ old₂ ++ post))) (bytesOf init) [] := by
    have hread : Yields K (loadNodes pre.length (m * (2 * 32))
        (pre ++ bytesOf init ++ (bytesOf tail ++ (old₁ ++ old₂ ++ post)))) (bytesOf init) [] :=
      yields_loadNodes rfl (by rw [length_bytesOf]; omega)
    simpa [hnodes] using hread
  have hfirst : Yields K (if 1 < nodes.length then do
        let input ← loadNodes pre.length (m * (2 * 32)) (pre ++ bytesOf nodes ++ (old₁ ++ old₂ ++ post))
        hashInto H (pre.length + nodes.length * 32) input m (pre ++ bytesOf nodes ++ old₁ ++ (old₂ ++ post))
      else pure (pre.length + nodes.length * 32, pre ++ bytesOf nodes ++ old₁ ++ (old₂ ++ post))) _ _ :=
    yields_firstBlocks H hinit _ hlast hold₁ hread (by omega) (zeroNode H height)
  rw [← hbuf] at hfirst
  have hnext : pre.length + nodes.length * 32 = (pre ++ bytesOf (init ++ tail)).length := by
    rw [hlast, hnodes]
  have hmade : pre.length + nodes.length * 32 + m * 32 =
      (pre ++ bytesOf (init ++ tail) ++ bytesOf (pairUp H (zeroNode H height) init)).length := by
    rw [List.length_append, ← hnext, length_bytesOf, length_pairUp, hinit]
    omega
  have hodd := yields_lastNode H hK init (by omega) htail.symm _ post hnext hmade hold₂
  rw [← hnodes] at hodd
  have hhalf : (nodes.length + 1) / 2 = m + tail.length := by omega
  have hup : pairUp H (zeroNode H height) nodes =
      pairUp H (zeroNode H height) init ++ pairUp H (zeroNode H height) tail := by
    rw [hnodes, pairUp_append H _ (by omega)]
  have hpairs : pairs (zeroNode H height) nodes =
      pairs (zeroNode H height) init ++ pairs (zeroNode H height) tail := by
    rw [hnodes, pairs_append _ (by omega)]
  simp only [hashLayer, BYTES_PER_CHUNK, hdist, ← hm, hhalf, hup, hpairs, bytesOf_append, Nat.add_mul,
    ← Nat.add_assoc, ← List.append_assoc] at hodd hfirst ⊢
  exact hfirst.bind hodd

lemma hashtreeSizeLoop_succ (depth k ret : Nat) :
    hashtreeSizeLoop (depth + 1) k ret = hashtreeSizeLoop depth ((k + 1) / 2) (ret + (k + 1) / 2) := by
  have hhalf : (if k % 2 = 1 then k + 1 else k) / 2 = (k + 1) / 2 := by split <;> omega
  simp only [hashtreeSizeLoop, hhalf]

lemma hashtreeSizeLoop_eq_add (depth k ret : Nat) :
    hashtreeSizeLoop depth k ret = ret + hashtreeSizeLoop depth k 0 := by
  induction depth generalizing k ret with
  | zero => rfl
  | succ depth ih =>
    rw [hashtreeSizeLoop_succ, hashtreeSizeLoop_succ, ih, ih _ (0 + _)]
    omega

/-- All the layers above, in a buffer with room for exactly them. -/
lemma yields_sparseHashLayers (count height : Nat) (hK : ∀ i < height + count, K i)
    (nodes : List Chunk) (pre room : Bytes)
    (hroom : room.length = hashtreeSizeLoop count nodes.length 0 * 32) :
    ∃ made : Bytes, Yields K (sparseHashLayers H count height pre.length
        (pre.length + nodes.length * 32) (pre ++ bytesOf nodes ++ room))
      (made ++ bytesOf (climb H (zeroNode H) height count nodes))
      (climbBlocks H (zeroNode H) height count nodes) := by
  induction count generalizing height nodes pre room with
  | zero =>
    obtain rfl : room = [] := List.length_eq_zero_iff.mp hroom
    refine ⟨pre, ?_⟩
    rw [List.append_nil]
    exact yields_pure _
  | succ count ih =>
    rw [hashtreeSizeLoop_succ, hashtreeSizeLoop_eq_add, Nat.zero_add, Nat.add_mul] at hroom
    obtain ⟨old, post, rfl, hold, hpost⟩ := exists_append_of_length hroom
    have hnodes := length_pairUp H (zeroNode H height) nodes
    obtain ⟨made, hrest⟩ := ih (height + 1) (fun i hi => hK i (by omega))
      (pairUp H (zeroNode H height) nodes) (pre ++ bytesOf nodes) post (by rw [hnodes, hpost])
    rw [hnodes, List.length_append, length_bytesOf] at hrest
    exact ⟨made, (yields_hashLayer H (hK height (by omega)) post hold).bind hrest⟩

/-! ### The depth of the tree -/

lemma bitWidth_le_iff {m k : Nat} : bitWidth m ≤ k ↔ m < 2 ^ k := by
  unfold bitWidth
  split
  · rename_i hzero
    have hpos : 0 < 2 ^ k := Nat.pow_pos (by decide)
    omega
  · rename_i hne
    exact Nat.log2_lt hne

lemma log2ceil_eq_clog (n : Nat) : log2ceil n = Nat.clog 2 n := by
  unfold log2ceil
  split
  · rename_i hzero
    rw [hzero, Nat.clog_zero_right]
  · rename_i hne
    have hiff : ∀ k, bitWidth (n - 1) ≤ k ↔ Nat.clog 2 n ≤ k := by
      intro k
      rw [bitWidth_le_iff, Nat.clog_le_iff_le_pow (by decide)]
      omega
    exact le_antisymm ((hiff _).mpr (le_refl _)) ((hiff _).mp (le_refl _))

lemma chunkCount_pos {n : Nat} (h : 0 < n) : 0 < chunkCount n := by
  change 0 < (n + 31) / 32
  omega

lemma le_two_pow_treeDepth {limit count : Nat} (h : limit = 0 ∨ count ≤ limit) :
    count ≤ 2 ^ treeDepth limit count := by
  unfold treeDepth
  split
  · rw [log2ceil_eq_clog]
    exact Nat.le_pow_clog (by decide) count
  · rename_i hne
    rw [log2ceil_eq_clog]
    exact le_trans (h.resolve_left hne) (Nat.le_pow_clog (by decide) limit)

/-! ### The tree -/

/-- A tree with at least one layer above the leaves, in a buffer of `compute_hashtree_size`. -/
lemma yields_inPlace {chunks : Bytes} (hne : chunks ≠ []) {depth : Nat} (hK : ∀ i ≤ depth, K i) :
    ∃ made : Bytes, Yields K (sparseHashTreeInPlace H 0 chunks (depth + 1)
        (zeros (computeHashtreeSize (chunkCount chunks.length) (depth + 1))))
      (made ++ bytesOf (climb H (zeroNode H) 0 (depth + 1) (chunksOf chunks)))
      (climbBlocks H (zeroNode H) 0 (depth + 1) (chunksOf chunks)) := by
  obtain ⟨k, hk⟩ : ∃ k, k = (chunkCount chunks.length + 1) / 2 := ⟨_, rfl⟩
  have hsize : computeHashtreeSize (chunkCount chunks.length) (depth + 1) =
      k * 32 + hashtreeSizeLoop depth k 0 * 32 := by
    rw [computeHashtreeSize, if_neg (Nat.succ_ne_zero depth), hashtreeSizeLoop_succ,
      hashtreeSizeLoop_eq_add, ← hk]
    ring
  have hnodes : (pairUp H zeroHash (chunksOf chunks)).length = k := by
    rw [length_pairUp, length_chunksOf, hk]
  have hfirst : Yields K (hashFirstLayer H ([] : Bytes).length chunks
      ([] ++ zeros (k * 32) ++ zeros (hashtreeSizeLoop depth k 0 * 32))) _ _ :=
    yields_hashFirstLayer H hne (by rw [length_zeros, hk])
  obtain ⟨made, hrest⟩ := yields_sparseHashLayers (K := K) H depth 1 (fun i hi => hK i (by omega))
    (pairUp H zeroHash (chunksOf chunks)) [] (zeros (hashtreeSizeLoop depth k 0 * 32))
    (by rw [length_zeros, hnodes])
  rw [hnodes] at hrest
  rw [← hk] at hfirst
  rw [hsize, zeros_add]
  exact ⟨made, hfirst.bind hrest⟩

end Sszpp
