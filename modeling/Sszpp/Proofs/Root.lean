import Mathlib.Data.List.Iterate
import Sszpp.Proofs.Bitlist
import Sszpp.Proofs.Encoding
import Sszpp.Proofs.VectorRoot

/-!
# The roots are the reference roots

The sparse trees of the code are the complete trees of the reference as long as `zero_hash_array` is
long enough; the rest is an induction over types.
-/

namespace Sszpp

open Library

variable {α : Type} {K : Nat → Prop}

/-! ### The table of zero hashes -/

lemma iterate_eq_zeroRoot (H : PairHash) (i : Nat) :
    (fun c => H c c)^[i] zeroHash = zeroRoot H zeroHash i := by
  induction i with
  | zero => rfl
  | succ i ih => rw [Function.iterate_succ_apply', ih, zeroRoot]

lemma zeroNode_eq_zeroRoot (H : PairHash) {i : Nat} (h : i < 42) :
    zeroNode H i = zeroRoot H zeroHash i := by
  rw [zeroNode, zeroHashArray, List.getD_eq_getElem?_getD, List.getElem?_iterate _ _ _ _ h,
    Option.getD_some, iterate_eq_zeroRoot]

/-- The limit, or the number of leaves where there is none. -/
def effectiveLimit (limit count : Nat) : Nat := if limit = 0 then count else limit

lemma effectiveLimit_zero (count : Nat) : effectiveLimit 0 count = count := rfl

lemma effectiveLimit_of_le {limit count : Nat} (h : count ≤ limit) : effectiveLimit limit count = limit := by
  unfold effectiveLimit
  split <;> omega

lemma treeDepth_eq (limit count : Nat) : treeDepth limit count = leafDepth (effectiveLimit limit count) := by
  unfold treeDepth effectiveLimit
  split <;> rw [log2ceil_eq_clog, leafDepth]

lemma treeDepth_le {limit count : Nat} (h : effectiveLimit limit count ≤ 2 ^ 41) :
    treeDepth limit count ≤ 41 := by
  rw [treeDepth_eq]
  exact Nat.clog_le_of_le_pow h

lemma merkleize_eq_treeRoot (H : PairHash) (leaves : List Chunk) (limit : Nat) :
    merkleize H leaves limit = treeRoot H zeroHash (leafDepth limit) leaves :=
  treeRoot_append_replicate H zeroHash _ _ leaves

theorem vectorRoot_eq_merkleize (H : PairHash) {limit : Nat} {leaves : List Chunk}
    (h : effectiveLimit limit leaves.length ≤ 2 ^ 41) :
    vectorRoot H limit leaves = merkleize H leaves (effectiveLimit limit leaves.length) := by
  have hdepth := treeDepth_le h
  rw [merkleize_eq_treeRoot, ← treeDepth_eq, vectorRoot]
  exact sparseRoot_eq_treeRoot H (fun i hi => zeroNode_eq_zeroRoot H (by omega)) leaves

lemma Admits.of_bound {limit count : Nat} (hle : limit = 0 ∨ count ≤ limit) (hK : ∀ i < 42, K i)
    (h : (∀ i, K i) ∨ effectiveLimit limit count ≤ 2 ^ 41) : Admits K limit count := by
  refine ⟨hle, fun i hi => ?_⟩
  rcases h with hall | hbound
  · exact hall i
  · have hdepth := treeDepth_le hbound
    exact hK i (by omega)

/-! ### Limits -/

lemma listLimit_eq {layout : Option (BasicLayout α)} {n : Nat}
    (h : ∀ l, layout = some l → n * l.sizeof + 31 < 2 ^ 64) : listLimit layout n = chunkLimit layout n := by
  cases layout with
  | some layout =>
    change (n * layout.sizeof + 31) % 2 ^ 64 / 32 = (n * layout.sizeof + 31) / 32
    rw [Nat.mod_eq_of_lt (h layout rfl)]
  | none => rfl

lemma bitLimit_eq {n : Nat} (h : n + 255 < 2 ^ 64) : bitLimit n = (n + 255) / 256 := if_pos h

/-- A limit with so few chunks does not wrap. -/
lemma lt_of_chunkLimit {layout : Option (BasicLayout α)} {n : Nat} (h : chunkLimit layout n ≤ 2 ^ 41) :
    ∀ l, layout = some l → n * l.sizeof + 31 < 2 ^ 64 := by
  rintro l rfl
  rw [chunkLimit] at h
  omega

mutual

/-- Small trees have limits that do not wrap. -/
theorem SszType.TreesWithin.limitsFit : {α : Type} → {τ : SszType α} → {v : α} → τ.TreesWithin v → τ.LimitsFit v
  | _, .basic _, _, _ => trivial
  | _, .array _ _, _, h => fun x hx => SszType.TreesWithin.limitsFit (h.2 x hx)
  | _, .vector _, _, h => fun x hx => SszType.TreesWithin.limitsFit (h.2 x hx)
  | _, .list _ _, _, h => ⟨lt_of_chunkLimit h.1, fun x hx => SszType.TreesWithin.limitsFit (h.2 x hx)⟩
  | _, .bitlist limit, _, h => by
    change (limit + 255) / 256 ≤ 2 ^ 41 at h
    change limit + 255 < 2 ^ 64
    omega
  | _, .bitset n, _, h => by
    change (n + 255) / 256 ≤ 2 ^ 41 at h
    change n + 255 < 2 ^ 64
    omega
  | _, .container _ _, _, h => Members.TreesWithin.limitsFit h.2

theorem Members.TreesWithin.limitsFit : {α : Type} → {ms : Members α} → {v : α} → ms.TreesWithin v → ms.LimitsFit v
  | _, .nil, _, _ => trivial
  | _, .cons _ _, (_, _), h => ⟨SszType.TreesWithin.limitsFit h.1, Members.TreesWithin.limitsFit h.2⟩

end

/-! ### Leaves -/

@[simp] lemma length_leavesOf (layout : Option (BasicLayout α)) (f : α → Chunk) (vs : List α) :
    (leavesOf layout f vs).length = (leavesOf layout (fun _ => zeroHash) vs).length := by
  cases layout with
  | some layout => rfl
  | none => simp [leavesOf]

lemma leavesOf_congr (layout : Option (BasicLayout α)) {f g : α → Chunk} {vs : List α}
    (h : ∀ x ∈ vs, f x = g x) : leavesOf layout f vs = leavesOf layout g vs := by
  cases layout with
  | some layout => rfl
  | none => exact List.map_congr_left h

lemma length_leavesOf_le (layout : Option (BasicLayout α)) (f : α → Chunk) {vs : List α} {limit : Nat}
    (h : vs.length ≤ limit) : (leavesOf layout f vs).length ≤ chunkLimit layout limit := by
  cases layout with
  | some layout =>
    have hmul := Nat.mul_le_mul_right layout.sizeof h
    rw [leavesOf, chunkLimit, length_chunksOf, length_flatMap_const _ _ fun x _ => layout.length_toBytes x]
    change (vs.length * layout.sizeof + 31) / 32 ≤ _
    omega
  | none => simpa [leavesOf, chunkLimit] using h

lemma length_leavesOf_le_listLimit {layout : Option (BasicLayout α)} {n : Nat} (hn : chunkLimit layout n ≤ 2 ^ 41)
    (f : α → Chunk) {vs : List α} (h : vs.length ≤ n) : (leavesOf layout f vs).length ≤ listLimit layout n := by
  rw [listLimit_eq (lt_of_chunkLimit hn)]
  exact length_leavesOf_le layout f h

lemma merkleize_singleton (H : PairHash) (c : Chunk) : merkleize H [c] 1 = c := by
  simp [merkleize, leafDepth, treeRoot]

/-- The root of a `Root` is its bytes. -/
lemma SszType.rootBytes_eq_some {e : SszType α} {rootBytes : α → Bytes} (h : e.rootBytes = some rootBytes)
    (x : α) : (rootBytes x).length = 32 ∧ e.TreesWithin x ∧
      ∀ H, e.root H x = Chunk.ofBytes (rootBytes x) := by
  cases e with
  | array e n =>
    cases e with
    | basic b =>
      cases b with
      | byte =>
        simp only [SszType.rootBytes] at h
        split at h
        · rename_i hn
          have hbytes : rootBytes = fun v => v.1.flatMap BasicType.byte.toBytes :=
            (Option.some.inj h).symm
          have hlen : (x.1.flatMap BasicType.byte.toBytes).length = 32 := by
            rw [length_flatMap_const _ _ fun y _ => BasicType.length_toBytes _ y, x.2, hn]
            rfl
          have hchunks : chunksOf (x.1.flatMap BasicType.byte.toBytes) =
              [Chunk.ofBytes (x.1.flatMap BasicType.byte.toBytes)] :=
            chunksOf_of_length_le (List.ne_nil_of_length_pos (by omega)) (le_of_eq hlen)
          have hleaves : ∀ f, leavesOf (SszType.basic BasicType.byte).basicLayout f x.1 =
              [Chunk.ofBytes (x.1.flatMap BasicType.byte.toBytes)] := fun _ => hchunks
          subst hbytes
          refine ⟨hlen, ⟨?_, fun _ _ => trivial⟩, fun H => ?_⟩
          · rw [hleaves, List.length_singleton]
            decide
          · rw [SszType.root, hleaves]
            exact merkleize_singleton H _
        · cases h
      | _ => cases h
    | _ => cases h
  | _ => cases h

mutual

theorem SszType.treesWithin_of_bounded : {α : Type} → (τ : SszType α) → τ.treesBounded = true → (v : α) →
    τ.TreesWithin v
  | _, .basic _, _, _ => trivial
  | _, .array e n, h, v => by
    simp only [SszType.treesBounded, Bool.and_eq_true, decide_eq_true_iff] at h
    refine ⟨?_, fun x _ => e.treesWithin_of_bounded h.2 x⟩
    exact (length_leavesOf_le e.basicLayout _ (le_of_eq v.2)).trans h.1
  | _, .vector _, h, _ => by cases h
  | _, .list e limit, h, v => by
    simp only [SszType.treesBounded, Bool.and_eq_true, decide_eq_true_iff] at h
    exact ⟨h.1, fun x _ => e.treesWithin_of_bounded h.2 x⟩
  | _, .bitlist _, h, _ => by
    simp only [SszType.treesBounded, decide_eq_true_iff] at h
    exact h
  | _, .bitset _, h, _ => by
    simp only [SszType.treesBounded, decide_eq_true_iff] at h
    exact h
  | _, .container _ ms, h, v => by
    simp only [SszType.treesBounded, Bool.and_eq_true, decide_eq_true_iff] at h
    exact ⟨h.1, ms.treesWithin_of_bounded h.2 v⟩

theorem Members.treesWithin_of_bounded : {α : Type} → (ms : Members α) → ms.treesBounded = true → (v : α) →
    ms.TreesWithin v
  | _, .nil, _, _ => trivial
  | _, .cons m ms, h, (v, vs) => by
    simp only [Members.treesBounded, Bool.and_eq_true] at h
    exact ⟨m.treesWithin_of_bounded h.1 v, ms.treesWithin_of_bounded h.2 vs⟩

end

variable (P : Platform)

/-- The choice among the overloads, from the roots of the elements. -/
lemma SszType.yields_range {e : SszType α} {root : α → Hashing Chunk} {f : α → Chunk} {r : List α}
    (hroot : ∀ x ∈ r, Yields K (root x) (f x) [])
    (hvalue : ∀ x ∈ r, e.TreesWithin x → f x = e.root P.hashtreeHash x) (s : Schedule)
    (cpuCount : Nat) {limit : Nat} (hadmits : Admits K limit (leavesOf e.basicLayout f r).length) :
    Yields K (hashTreeRootRange P s e.basicLayout e.rootBytes root r cpuCount limit)
      (vectorRoot P.hashtreeHash limit (leavesOf e.basicLayout f r))
      (vectorBlocks P.hashtreeHash limit (leavesOf e.basicLayout f r)) := by
  cases hlayout : e.basicLayout with
  | some layout =>
    have hpacks := SszType.layout_packs hlayout
    rw [hlayout] at hadmits
    exact yields_basicVector P s cpuCount hpacks r hadmits
  | none =>
    rw [hlayout] at hadmits
    cases hbytes : e.rootBytes with
    | some rootBytes =>
      have hfacts := SszType.rootBytes_eq_some hbytes
      have hmap : chunksOf (r.flatMap rootBytes) = r.map f := by
        rw [chunksOf, pieces_flatMap (by decide) _ _ fun x _ => (hfacts x).1, List.map_map]
        apply List.map_congr_left
        intro x hx
        rw [hvalue x hx (hfacts x).2.1, (hfacts x).2.2, Function.comp_apply]
      have hadmits' : Admits K limit (chunksOf (r.flatMap rootBytes)).length := by
        rw [hmap]
        exact hadmits
      have h := yields_rootVector P s cpuCount (fun x => (hfacts x).1) r hadmits'
      rw [hmap] at h
      exact h
    | none => exact yields_vector P s cpuCount hroot hadmits

/-! ### Lengths -/

lemma yields_lift {x : Outcome α} {a : α} (h : x = .ok a) : Yields K (liftM x : Hashing α) a [] := by
  subst h
  exact ⟨[], rfl, by simp, by simp⟩

lemma yields_mixInLength (H : PairHash) (c : Chunk) (n : Nat) :
    Yields K (mixInLength H c n) (H c (Chunk.ofBytes (leBytes 8 n)))
      [(c, Chunk.ofBytes (leBytes 8 n))] :=
  yields_hash2Chunks H c _

lemma withLength_eq (H : PairHash) (c : Chunk) {n : Nat} (h : n < 2 ^ 64) :
    withLength H c n = H c (Chunk.ofBytes (leBytes 8 n)) := by
  have hbytes : leBytes BYTES_PER_CHUNK n = leBytes 8 n ++ zeros 24 := leBytes_add 24 h
  rw [withLength, hbytes, Chunk.ofBytes_append_zeros]

/-- A list whose tree is in bounds has a length of 64 bits. -/
lemma lt_of_chunkLimit_le {layout : Option (BasicLayout α)} {limit n : Nat} (hn : n ≤ limit)
    (h : chunkLimit layout limit ≤ 2 ^ 41) (hpos : ∀ l, layout = some l → 0 < l.sizeof) : n < 2 ^ 64 := by
  cases layout with
  | some layout =>
    have hmul : limit ≤ limit * layout.sizeof := Nat.le_mul_of_pos_right limit (hpos layout rfl)
    rw [chunkLimit] at h
    omega
  | none =>
    rw [chunkLimit] at h
    omega

/-! ### The induction over types -/

/-- A root for every element of a range, from one for each. -/
lemma SszType.exists_elementRoots {e : SszType α} {vs : List α}
    (helem : ∀ x ∈ vs, ∃ c, (∀ s cpuCount, Yields K (e.hashTreeRoot P s x cpuCount zeroHash) c []) ∧
      (e.TreesWithin x → c = e.root P.hashtreeHash x)) :
    ∃ g : α → Chunk, (∀ x ∈ vs, ∀ s cpuCount, Yields K (e.hashTreeRoot P s x cpuCount zeroHash) (g x) []) ∧
      ∀ x ∈ vs, e.TreesWithin x → g x = e.root P.hashtreeHash x := by
  classical
  choose f hf using helem
  obtain ⟨g, hg⟩ : ∃ g : α → Chunk, ∀ x (hx : x ∈ vs), g x = f x hx :=
    ⟨fun x => if hx : x ∈ vs then f x hx else zeroHash, fun x hx => dif_pos hx⟩
  refine ⟨g, fun x hx => ?_, fun x hx => ?_⟩
  · rw [hg x hx]
    exact (hf x hx).1
  · rw [hg x hx]
    exact (hf x hx).2

/-- The root over the elements of a range, from those of the elements. -/
lemma SszType.exists_rangeRoot (hK : ∀ i < 42, K i) {e : SszType α} {vs : List α} {limit : Nat}
    (helem : ∀ x ∈ vs, ∃ c, (∀ s cpuCount, Yields K (e.hashTreeRoot P s x cpuCount zeroHash) c []) ∧
      (e.TreesWithin x → c = e.root P.hashtreeHash x))
    (hlimit : limit = 0 ∨ (leavesOf e.basicLayout (fun _ => zeroHash) vs).length ≤ limit)
    (htrees : (∀ i, K i) ∨
      effectiveLimit limit (leavesOf e.basicLayout (fun _ => zeroHash) vs).length ≤ 2 ^ 41) :
    ∃ c, (∀ s cpuCount, Yields K (hashTreeRootRange P s e.basicLayout e.rootBytes
        (fun x => e.hashTreeRoot P s x 1 zeroHash) vs cpuCount limit) c []) ∧
      (effectiveLimit limit (leavesOf e.basicLayout (fun _ => zeroHash) vs).length ≤ 2 ^ 41 →
        (∀ x ∈ vs, e.TreesWithin x) →
        c = merkleize P.hashtreeHash (leavesOf e.basicLayout (e.root P.hashtreeHash) vs)
          (effectiveLimit limit (leavesOf e.basicLayout (fun _ => zeroHash) vs).length)) := by
  obtain ⟨g, hroot, hvalue⟩ := SszType.exists_elementRoots P helem
  have hlen := length_leavesOf e.basicLayout g vs
  rw [← hlen] at hlimit htrees ⊢
  refine ⟨vectorRoot P.hashtreeHash limit (leavesOf e.basicLayout g vs), fun s cpuCount => ?_,
    fun hbound hall => ?_⟩
  · exact (SszType.yields_range P (fun x hx => hroot x hx s 1) hvalue s cpuCount
      (.of_bound hlimit hK htrees)).mono (by simp)
  · rw [vectorRoot_eq_merkleize _ hbound,
      leavesOf_congr e.basicLayout fun x hx => hvalue x hx (hall x hx)]

/-- A range whose tree has a leaf for each element. -/
lemma SszType.exists_vectorRoot (hK : ∀ i < 42, K i) {e : SszType α} {vs : List α}
    (helem : ∀ x ∈ vs, ∃ c, (∀ s cpuCount, Yields K (e.hashTreeRoot P s x cpuCount zeroHash) c []) ∧
      (e.TreesWithin x → c = e.root P.hashtreeHash x))
    (htrees : (∀ i, K i) ∨ (leavesOf e.basicLayout (fun _ => zeroHash) vs).length ≤ 2 ^ 41) :
    ∃ c, (∀ s cpuCount, Yields K (hashTreeRootRange P s e.basicLayout e.rootBytes
        (fun x => e.hashTreeRoot P s x 1 zeroHash) vs cpuCount 0) c []) ∧
      ((leavesOf e.basicLayout (fun _ => zeroHash) vs).length ≤ 2 ^ 41 → (∀ x ∈ vs, e.TreesWithin x) →
        c = merkleize P.hashtreeHash (leavesOf e.basicLayout (e.root P.hashtreeHash) vs)
          (leavesOf e.basicLayout (e.root P.hashtreeHash) vs).length) := by
  obtain ⟨c, hyields, hvalue⟩ := SszType.exists_rangeRoot P hK helem (.inl rfl) htrees
  refine ⟨c, hyields, fun hbound hall => ?_⟩
  rw [hvalue hbound hall, effectiveLimit_zero, ← length_leavesOf e.basicLayout (e.root P.hashtreeHash)]

/-- A list: the tree of its limit, then the length. -/
lemma SszType.exists_listRoot (hK : ∀ i < 42, K i) {e : SszType α} {n : Nat} {vs : List α}
    (hwithin : vs.length ≤ n) (hfit : ∀ l, e.basicLayout = some l → n * l.sizeof + 31 < 2 ^ 64)
    (helem : ∀ x ∈ vs, ∃ c, (∀ s cpuCount, Yields K (e.hashTreeRoot P s x cpuCount zeroHash) c []) ∧
      (e.TreesWithin x → c = e.root P.hashtreeHash x))
    (htrees : (∀ i, K i) ∨ chunkLimit e.basicLayout n ≤ 2 ^ 41) :
    ∃ c, (∀ s cpuCount,
        Yields K ((SszType.list e n).hashTreeRoot P s vs cpuCount zeroHash) c []) ∧
      ((SszType.list e n).TreesWithin vs → c = (SszType.list e n).root P.hashtreeHash vs) := by
  have hle : (leavesOf e.basicLayout (fun _ => zeroHash) vs).length ≤ chunkLimit e.basicLayout n :=
    length_leavesOf_le e.basicLayout _ hwithin
  have hlimit := effectiveLimit_of_le hle
  obtain ⟨c, hyields, hvalue⟩ := SszType.exists_rangeRoot P hK helem (.inr hle)
    (htrees.imp_right fun h => hlimit.trans_le h)
  refine ⟨P.hashtreeHash c (Chunk.ofBytes (leBytes 8 vs.length)), fun s cpuCount => ?_, fun h => ?_⟩
  · rw [← listLimit_eq hfit] at hyields
    exact ((hyields s cpuCount).bind (yields_mixInLength P.hashtreeHash c vs.length)).mono (by simp)
  · have hlen : vs.length < 2 ^ 64 := by
      refine lt_of_chunkLimit_le hwithin h.1 fun l hl => ?_
      cases e with
      | basic b =>
        cases hl
        exact b.sizeof_pos
      | _ => cases hl
    rw [← withLength_eq P.hashtreeHash c hlen, hvalue (hlimit.trans_le h.1) h.2, hlimit]
    rfl

lemma length_chunksOf_packBits_le {bits : List Bool} {n : Nat} (h : bits.length ≤ n) :
    (chunksOf (packBits bits)).length ≤ (n + 255) / 256 := by
  rw [length_chunksOf, length_packBits]
  simp only [chunkCount, BYTES_PER_CHUNK]
  omega

lemma length_chunksOf_packBits_le_bitLimit {bits : List Bool} {n : Nat} (hn : (n + 255) / 256 ≤ 2 ^ 41)
    (h : bits.length ≤ n) : (chunksOf (packBits bits)).length ≤ bitLimit n := by
  rw [bitLimit_eq (by omega)]
  exact length_chunksOf_packBits_le h

/-- The root over packed bits. -/
lemma exists_bitsRoot (hK : ∀ i < 42, K i) {bits : List Bool} {n : Nat} (hle : bits.length ≤ n)
    (hfit : n + 255 < 2 ^ 64) (htrees : (∀ i, K i) ∨ (n + 255) / 256 ≤ 2 ^ 41) :
    ∃ c, (∀ s cpuCount, Yields K (hashTreeRootBytes P s (packBits bits) cpuCount (bitLimit n)) c []) ∧
      ((n + 255) / 256 ≤ 2 ^ 41 →
        c = merkleize P.hashtreeHash (chunksOf (packBits bits)) ((n + 255) / 256)) := by
  have hle' := length_chunksOf_packBits_le hle
  have hlimit := effectiveLimit_of_le hle'
  rw [bitLimit_eq hfit]
  refine ⟨vectorRoot P.hashtreeHash ((n + 255) / 256) (chunksOf (packBits bits)), fun s cpuCount => ?_,
    fun h => ?_⟩
  · have hadmits := Admits.of_bound (.inr hle') hK (htrees.imp_right fun h => hlimit.trans_le h)
    exact (yields_bytes P s cpuCount _ hadmits).mono (by simp)
  · rw [vectorRoot_eq_merkleize _ (hlimit.trans_le h), hlimit]

mutual

/-- The in-place call returns one chunk, whatever the order of the halves and the number of threads.
Within `zero_hash_array` it is the reference root. -/
theorem SszType.exists_root (hK : ∀ i < 42, K i) : {α : Type} → (τ : SszType α) → (v : α) →
    τ.WithinLimits v → τ.LimitsFit v → ((∀ i, K i) ∨ τ.TreesWithin v) →
    ∃ c, (∀ s cpuCount, Yields K (τ.hashTreeRoot P s v cpuCount zeroHash) c []) ∧
      (τ.TreesWithin v → c = τ.root P.hashtreeHash v)
  | _, .basic b, v, _, _, _ => ⟨Chunk.ofBytes (b.toBytes v), fun _ _ => yields_pure _, fun _ => rfl⟩
  | _, .array e n, v, hwithin, hfit, htrees => by
    obtain ⟨c, hyields, hvalue⟩ := SszType.exists_vectorRoot P hK (fun x hx =>
      SszType.exists_root hK e x (hwithin x hx) (hfit x hx) (htrees.imp_right fun h => h.2 x hx))
      (htrees.imp_right fun h => h.1)
    exact ⟨c, hyields, fun h => hvalue h.1 h.2⟩
  | _, .vector e, v, hwithin, hfit, htrees => by
    obtain ⟨c, hyields, hvalue⟩ := SszType.exists_vectorRoot P hK (fun x hx =>
      SszType.exists_root hK e x (hwithin x hx) (hfit x hx) (htrees.imp_right fun h => h.2 x hx))
      (htrees.imp_right fun h => h.1)
    exact ⟨c, hyields, fun h => hvalue h.1 h.2⟩
  | _, .list e n, v, hwithin, hfit, htrees =>
    SszType.exists_listRoot P hK hwithin.1 hfit.1 (fun x hx =>
      SszType.exists_root hK e x (hwithin.2 x hx) (hfit.2 x hx) (htrees.imp_right fun h => h.2 x hx))
      (htrees.imp_right fun h => h.1)
  | _, .bitlist n, v, hwithin, hfit, htrees => by
    have hser : (SszType.bitlist n).serialize v = .ok (packBits (v ++ [true])) :=
      (SszType.bitlist n).serialize_eq_of_fits trivial v trivial
    have hle : v.length ≤ n := hwithin
    obtain ⟨c, hyields, hvalue⟩ := exists_bitsRoot P hK hle hfit htrees
    refine ⟨P.hashtreeHash c (Chunk.ofBytes (leBytes 8 v.length)), fun s cpuCount => ?_, fun h => ?_⟩
    · exact ((yields_lift hser).bind ((yields_lift (removeDelimiter_packBits v)).bind
        ((hyields s cpuCount).bind (yields_mixInLength P.hashtreeHash c v.length)))).mono (by simp)
    · have hbound : (n + 255) / 256 ≤ 2 ^ 41 := h
      have hlen : v.length < 2 ^ 64 := by omega
      rw [← withLength_eq P.hashtreeHash c hlen, hvalue h]
      rfl
  | _, .bitset n, v, _, hfit, htrees => by
    have hser : (SszType.bitset n).serialize v = .ok (packBits v.1) :=
      (SszType.bitset n).serialize_eq_of_fits trivial v trivial
    obtain ⟨c, hyields, hvalue⟩ := exists_bitsRoot P hK (le_of_eq v.2) hfit htrees
    refine ⟨c, fun s cpuCount => ?_, fun h => ?_⟩
    · exact ((yields_lift hser).bind (hyields s cpuCount)).mono (by simp)
    · rw [hvalue h]
      rfl
  | _, .container variableSize ms, v, hwithin, hfit, htrees => by
    obtain ⟨cs, hlen, hyields, hvalue⟩ :=
      Members.exists_roots hK ms v hwithin hfit (htrees.imp_right fun h => h.2)
    have hchunks := chunksOf_bytesOf cs
    have hadmits : Admits K 0 (chunksOf (bytesOf cs)).length := by
      rw [hchunks]
      exact .of_bound (.inl rfl) hK (htrees.imp_right fun h => by
        rw [effectiveLimit_zero, hlen]
        exact h.1)
    refine ⟨vectorRoot P.hashtreeHash 0 cs, fun s cpuCount => ?_, fun h => ?_⟩
    · have hbytes := yields_bytes P s.second cpuCount _ hadmits
      rw [hchunks] at hbytes
      exact ((hyields s.first cpuCount).bind hbytes).mono (by simp)
    · rw [vectorRoot_eq_merkleize, effectiveLimit_zero, hlen, hvalue h.2]
      · rfl
      · rw [effectiveLimit_zero, hlen]
        exact h.1

theorem Members.exists_roots (hK : ∀ i < 42, K i) : {α : Type} → (ms : Members α) → (v : α) →
    ms.WithinLimits v → ms.LimitsFit v → ((∀ i, K i) ∨ ms.TreesWithin v) →
    ∃ cs : List Chunk, cs.length = ms.count ∧
      (∀ s cpuCount, Yields K (ms.memberRoots P s v cpuCount) (bytesOf cs) []) ∧
      (ms.TreesWithin v → cs = ms.roots P.hashtreeHash v)
  | _, .nil, _, _, _, _ => ⟨[], rfl, fun _ _ => yields_pure [], fun _ => rfl⟩
  | _, .cons m ms, (v, vs), hwithin, hfit, htrees => by
    obtain ⟨c, hc, hvalue⟩ := SszType.exists_root hK m v hwithin.1 hfit.1 (htrees.imp_right fun h => h.1)
    obtain ⟨cs, hlen, hcs, hvalues⟩ :=
      Members.exists_roots hK ms vs hwithin.2 hfit.2 (htrees.imp_right fun h => h.2)
    refine ⟨c :: cs, by rw [List.length_cons, hlen, Members.count], fun s cpuCount => ?_, fun h => ?_⟩
    · exact (hc s.first cpuCount).bind ((hcs s.second cpuCount).bind_pure fun rest => c.1 ++ rest)
    · rw [hvalue h.1, hvalues h.2, Members.roots]

end

lemma SszType.returns_root (τ : SszType α) {v : α} (hwithin : τ.WithinLimits v) (htrees : τ.TreesWithin v)
    (s : Schedule) (cpuCount : Nat) :
    Returns (τ.hashTreeRoot P s v cpuCount zeroHash) (τ.root P.hashtreeHash v) := by
  obtain ⟨c, hyields, hvalue⟩ :=
    SszType.exists_root (K := (· < 42)) P (fun _ hi => hi) τ v hwithin htrees.limitsFit (.inr htrees)
  rw [← hvalue htrees]
  exact (hyields s cpuCount).returns

/-- `hash_tree_root` writes the reference root, for every pair hash, every order of the halves and
every number of threads, and stays inside its buffers and `zero_hash_array`. -/
theorem hashTreeRoot_eq_root (τ : SszType α) (v : α) (hwithin : τ.WithinLimits v) (htrees : τ.TreesWithin v)
    (s : Schedule) (cpuCount : Nat) :
    ∃ events, (τ.hashTreeRoot P s v cpuCount zeroHash).run = .ok (τ.root P.hashtreeHash v, events) ∧
      ∀ e ∈ events, e.Within (· < 42) := by
  obtain ⟨c, hyields, hvalue⟩ :=
    SszType.exists_root (K := (· < 42)) P (fun _ hi => hi) τ v hwithin htrees.limitsFit (.inr htrees)
  obtain ⟨events, hrun, hin, -⟩ := hyields s cpuCount
  rw [hvalue htrees] at hrun
  exact ⟨events, hrun, hin⟩

/-- Four threads and a hash that adds up the bytes. -/
def samplePlatform : Platform where
  hashtreeHash a b := Chunk.ofBytes (List.zipWith (fun x y => x + 3 * y + 1) a.1 b.1)
  hardwareConcurrency := 4

theorem hashTreeRoot_eq_root_sample :
    ∃ events, (sampleType.hashTreeRoot samplePlatform (fun _ => true) sampleValue 0 zeroHash).run =
        .ok (sampleType.root samplePlatform.hashtreeHash sampleValue, events) ∧
      ∀ e ∈ events, e.Within (· < 42) := by
  apply hashTreeRoot_eq_root
  · simp [sampleType, sampleValue, SszType.WithinLimits, Members.WithinLimits]
  · simp [sampleType, sampleValue, SszType.TreesWithin, Members.TreesWithin, chunkLimit,
      SszType.basicLayout, BasicType.layout, BasicType.sizeof, Members.count]

end Sszpp
