import Sszpp.Proofs.AnyLength
import Sszpp.Proofs.BeaconContainers
import Sszpp.Proofs.Commitment

/-!
# Lists above their limit

A list that is longer than the tree of its limit passes the decoder. Hashed by one thread its root says
nothing about the elements before the last block; hashed by two it says everything.
-/

namespace Sszpp

open Library

variable {α : Type} (P : Platform)

/-! ### Lists that are too long -/

/-- The leaves of a list. -/
def SszType.leaves (e : SszType α) (H : PairHash) (v : List α) : List Chunk := leavesOf e.basicLayout (e.root H) v

lemma SszType.length_leaves_congr (e : SszType α) (H : PairHash) {v w : List α} (h : v.length = w.length) :
    (e.leaves H v).length = (e.leaves H w).length := by
  unfold SszType.leaves leavesOf
  split
  · rename_i layout hlayout
    rw [length_chunksOf, length_chunksOf, length_flatMap_const _ _ fun x _ => layout.length_toBytes x,
      length_flatMap_const _ _ fun x _ => layout.length_toBytes x, h]
  · rw [List.length_map, List.length_map, h]

/-- The decoder pays no attention to the limit. -/
lemma SszType.deserialize_list_any {e : SszType α} {n : Nat} (he : (SszType.list e n).Invertible) {v : List α}
    (hroom : ∀ x ∈ v, e.hasRoom x = true) (hbytes : ((SszType.list e n).encode v).length < 2 ^ 32) :
    (SszType.list e n).deserializeNew ((SszType.list e n).encode v) = .ok v := by
  have hfit := (SszType.list e n).fits_of_length v hbytes
  have hall : (SszType.list e n).hasRoom v = true := List.all_eq_true.mpr hroom
  have hdecode := (SszType.list e n).deserialize_encode_require he v hfit (SszType.list e n).vac
  rwa [hall, Outcome.require_true] at hdecode

/-- Two threads hash a range that is too long as if it had no limit. -/
lemma SszType.rangeCall_of_over {e : SszType α} {r : List α} {limit : Nat}
    (hover : 2 ^ log2ceil limit < (e.leaves P.hashtreeHash r).length) (s : Schedule) {cpuCount : Nat}
    (hsplits : P.splits cpuCount (splitThreshold e.basicLayout) r.length = true) :
    e.rangeCall P limit r s cpuCount = e.rangeCall P 0 r s cpuCount := by
  rw [P.splits_iff] at hsplits
  rw [SszType.leaves] at hover
  cases hlayout : e.basicLayout with
  | some layout =>
    rw [hlayout] at hover hsplits
    simp only [SszType.rangeCall, hlayout, hashTreeRootRange]
    exact hashVector_of_over P s (SszType.layout_packs hlayout).splitsLeaves hover hsplits
  | none =>
    rw [hlayout, leavesOf] at hover
    rw [hlayout] at hsplits
    cases hbytes : e.rootBytes with
    | some rootBytes =>
      have hlen : ∀ x, (rootBytes x).length = 32 := fun x => (SszType.rootBytes_eq_some hbytes x).1
      rw [← SszType.chunksOf_roots hbytes] at hover
      simp only [SszType.rangeCall, hlayout, hbytes, hashTreeRootRange]
      exact hashVector_of_over P s (splitsLeaves_roots hlen) hover hsplits
    | none =>
      simp only [SszType.rangeCall, hlayout, hbytes, hashTreeRootRange]
      exact hashVector_of_over P s (splitsLeaves_map (e.root P.hashtreeHash)) hover hsplits

/-- The list is longer than the tree of its limit, which has more than one chunk. -/
structure SszType.TooLong (e : SszType α) (H : PairHash) (n : Nat) (v : List α) : Prop where
  two_le : 2 ≤ chunkLimit e.basicLayout n
  limit_le : chunkLimit e.basicLayout n ≤ 2 ^ 41
  count_le : (e.leaves H v).length ≤ 2 ^ 41
  lt : 2 ^ log2ceil (chunkLimit e.basicLayout n) < (e.leaves H v).length

namespace SszType.TooLong

variable {e : SszType α} {n : Nat} {v : List α} {H : PairHash}

lemma listLimit_eq (h : e.TooLong H n v) : listLimit e.basicLayout n = chunkLimit e.basicLayout n :=
  Sszpp.listLimit_eq (lt_of_chunkLimit h.limit_le)

lemma congr (h : e.TooLong H n v) {w : List α} (hlen : v.length = w.length) : e.TooLong H n w := by
  have hleaves := e.length_leaves_congr H hlen
  exact ⟨h.two_le, h.limit_le, hleaves ▸ h.count_le, hleaves ▸ h.lt⟩

lemma yields_rootWith (h : e.TooLong P.hashtreeHash n v) (hv : ∀ x ∈ v, e.WithinLimits x)
    (htrees : e.treesBounded = true) (s : Schedule) (cpuCount : Nat) :
    Yields (· < 42) ((SszType.list e n).hashTreeRoot P s v cpuCount zeroHash)
      ((SszType.list e n).rootWith P v cpuCount) [] := by
  have htwo := h.two_le
  have hcount := h.count_le
  rw [SszType.leaves, length_leavesOf] at hcount
  have hfits : FitsLimit P e.basicLayout (listLimit e.basicLayout n) cpuCount v.length := by
    intro hone
    rw [h.listLimit_eq] at hone
    omega
  exact SszType.yields_rootWith P (.list e n) v
    ⟨h.limit_le, hcount, fun x hx => e.leavesBounded_of_withinLimits htrees x (hv x hx)⟩ s cpuCount
    ⟨hfits, fun x hx => SszType.treesFit_of_withinLimits P e 1 x (hv x hx)
      (e.treesWithin_of_bounded htrees x).limitsFit⟩

/-- The root of a list of elements within their limits. -/
lemma rootWith_eq (h : e.TooLong P.hashtreeHash n v) (hv : ∀ x ∈ v, e.WithinLimits x) (cpuCount : Nat) :
    (SszType.list e n).rootWith P v cpuCount = withLength P.hashtreeHash
      (if P.splits cpuCount (splitThreshold e.basicLayout) v.length = true then
        merkleize P.hashtreeHash (e.leaves P.hashtreeHash v) (e.leaves P.hashtreeHash v).length
      else blockRoot P.hashtreeHash (chunkLimit e.basicLayout n) (e.leaves P.hashtreeHash v)) v.length := by
  have htwo := h.two_le
  have hpos : chunkLimit e.basicLayout n ≠ 0 := by omega
  have hleaves : leavesOf e.basicLayout (fun x => e.rootWith P x 1) v = e.leaves P.hashtreeHash v :=
    leavesOf_congr e.basicLayout fun x hx => e.rootWith_eq_root P x (hv x hx) 1
  simp only [SszType.rootWith, hleaves, rangeRoot, hpos, h.lt, false_or, and_true]

lemma rootCall_of_splits (h : e.TooLong P.hashtreeHash n v) (s : Schedule) {cpuCount : Nat}
    (hsplits : P.splits cpuCount (splitThreshold e.basicLayout) v.length = true) :
    (SszType.list e n).rootCall P v s cpuCount =
      (e.rangeCall P 0 v s cpuCount >>= fun root => mixInLength P.hashtreeHash root v.length) := by
  rw [← SszType.rangeCall_of_over P h.lt s hsplits, ← h.listLimit_eq]
  rfl

/-- Two threads bind every element. -/
lemma binds (h : e.TooLong P.hashtreeHash n v) (htrees : e.treesBounded = true) (hv : ∀ x ∈ v, e.WithinLimits x)
    {w : List α} (hw : ∀ x ∈ w, e.WithinLimits x) (hlen : v.length = w.length) (hne : v ≠ w) {s s' : Schedule}
    {cpuCount cpuCount' : Nat}
    (hsplits : P.splits cpuCount (splitThreshold e.basicLayout) v.length = true)
    (hsplits' : P.splits cpuCount' (splitThreshold e.basicLayout) w.length = true) {root : Chunk}
    {events events' : List Event}
    (hrun : ((SszType.list e n).rootCall P v s cpuCount).run = .ok (root, events))
    (hrun' : ((SszType.list e n).rootCall P w s' cpuCount').run = .ok (root, events')) :
    ∃ p q : Chunk × Chunk, .digest p.1 p.2 ∈ events ∧ .digest q.1 q.2 ∈ events' ∧ p ≠ q ∧
      P.hashtreeHash p.1 p.2 = P.hashtreeHash q.1 q.2 := by
  have hcall : ∀ us : List α, (∀ x ∈ us, e.WithinLimits x) → ∀ s cpuCount, Yields (fun _ => True)
      (e.rangeCall P 0 us s cpuCount >>= fun root => mixInLength P.hashtreeHash root us.length)
      (P.hashtreeHash (vectorRoot P.hashtreeHash 0 (e.leaves P.hashtreeHash us)) (lengthChunk us.length))
      (mixedBlocks P.hashtreeHash 0 (e.leaves P.hashtreeHash us) us.length) := fun us hus s cpuCount =>
    (SszType.yields_rangeCall P htrees hus (.inl rfl) s cpuCount).bind
      (yields_mixInLength P.hashtreeHash _ _)
  rw [h.rootCall_of_splits P s hsplits] at hrun
  rw [(h.congr hlen).rootCall_of_splits P s' hsplits'] at hrun'
  by_cases htree : vectorRoot P.hashtreeHash 0 (e.leaves P.hashtreeHash v) =
      vectorRoot P.hashtreeHash 0 (e.leaves P.hashtreeHash w)
  · obtain ⟨p, q, hp, hq, hpq⟩ := SszType.range_binds P htrees hlen hne hv hw
      (fun x hx y hy hxy => SszType.root_binds P e htrees (hv x hx) (hw y hy) hxy) (.inl rfl) htree
    exact ⟨p, q, (hp s cpuCount).bind_left _ _ hrun, (hq s' cpuCount').bind_left _ _ hrun', hpq⟩
  · obtain ⟨hashed, hok, -, hblocks⟩ := hcall v hv s cpuCount
    obtain ⟨hashed', hok', -, hblocks'⟩ := hcall w hw s' cpuCount'
    obtain ⟨rfl, rfl⟩ := Prod.mk.inj (Except.ok.inj (hrun.symm.trans hok))
    obtain ⟨hroot, rfl⟩ := Prod.mk.inj (Except.ok.inj (hrun'.symm.trans hok'))
    exact ⟨_, _, hblocks _ (List.mem_append_right _ (List.mem_singleton_self _)),
      hblocks' _ (List.mem_append_right _ (List.mem_singleton_self _)),
      fun hpair => htree (Prod.mk.inj hpair).1, hroot⟩

end SszType.TooLong

/-! ### Collisions -/

/-- Two lists of one length that is too long, of elements within their limits, with the same leaves in the last
block: the decoder returns both, if the bitlists in them have room for their delimiters, and one thread hashes
both to one root, whatever the leaves before. Where each is hashed by two threads they have one root only if the
two runs have hashed two different blocks to one chunk. -/
theorem overLimit_collide {e : SszType α} {n : Nat} (he : (SszType.list e n).Invertible)
    (htrees : e.treesBounded = true) {v w : List α} (hv : ∀ x ∈ v, e.WithinLimits x)
    (hw : ∀ x ∈ w, e.WithinLimits x) (hlen : v.length = w.length) (h : e.TooLong P.hashtreeHash n v)
    (hblock : finalBlock (log2ceil (chunkLimit e.basicLayout n)) (e.leaves P.hashtreeHash v) =
      finalBlock (log2ceil (chunkLimit e.basicLayout n)) (e.leaves P.hashtreeHash w)) :
    (∀ u, u = v ∨ u = w → (∀ x ∈ u, e.hasRoom x = true) → ((SszType.list e n).encode u).length < 2 ^ 32 →
      (SszType.list e n).deserializeNew ((SszType.list e n).encode u) = .ok u) ∧
    (∃ root, ∀ s s', Returns ((SszType.list e n).hashTreeRoot P s v 1 zeroHash) root ∧
      Returns ((SszType.list e n).hashTreeRoot P s' w 1 zeroHash) root) ∧
    ∀ s s' cpuCount cpuCount' root events events', v ≠ w →
      P.splits cpuCount (splitThreshold e.basicLayout) v.length = true →
      P.splits cpuCount' (splitThreshold e.basicLayout) w.length = true →
      ((SszType.list e n).hashTreeRoot P s v cpuCount zeroHash).run = .ok (root, events) →
      ((SszType.list e n).hashTreeRoot P s' w cpuCount' zeroHash).run = .ok (root, events') →
      ∃ p q : Chunk × Chunk, .digest p.1 p.2 ∈ events ∧ .digest q.1 q.2 ∈ events' ∧ p ≠ q ∧
        P.hashtreeHash p.1 p.2 = P.hashtreeHash q.1 q.2 := by
  have h' := h.congr hlen
  have hyields := h.yields_rootWith P hv htrees
  have hyields' := h'.yields_rootWith P hw htrees
  refine ⟨fun u _ hroom hbytes => SszType.deserialize_list_any he hroom hbytes,
    ⟨(SszType.list e n).rootWith P v 1, fun s s' => ⟨(hyields s 1).returns, ?_⟩⟩,
    fun s s' cpuCount cpuCount' root events events' hne hsplits hsplits' hrun hrun' =>
      h.binds P htrees hv hw hlen hne hsplits hsplits' hrun hrun'⟩
  have hone : ∀ length, ¬ P.splits 1 (splitThreshold e.basicLayout) length = true := by
    intro length hsplits
    rw [P.splits_iff] at hsplits
    exact hsplits (.inl Nat.one_lt_two)
  have hsame : (SszType.list e n).rootWith P v 1 = (SszType.list e n).rootWith P w 1 := by
    rw [h.rootWith_eq P hv, h'.rootWith_eq P hw, if_neg (hone _), if_neg (hone _), blockRoot, blockRoot, hblock,
      hlen]
  rw [hsame]
  exact (hyields' s' 1).returns

/-! ### The attester slashings of a block -/

namespace Beacon

def attesterSlashingList := SszType.list attesterSlashing MAX_ATTESTER_SLASHINGS

/-- Four slashings, twice the limit. -/
def fourSlashings (x : Object attesterSlashing) : Object attesterSlashingList :=
  [x, x, attesterSlashing.vac, attesterSlashing.vac]

/-- One index in the first attestation. -/
def sampleSlashing : Object attesterSlashing :=
  (([(1 : BitVec 64)], attestationData.vac, signature.vac, ()), indexedAttestation.vac, ())

lemma withinLimits_sampleSlashing : attesterSlashing.WithinLimits sampleSlashing :=
  ⟨⟨⟨by decide, fun _ _ => trivial⟩, attestationData.withinLimits_vac, signature.withinLimits_vac, trivial⟩,
    indexedAttestation.withinLimits_vac, trivial⟩

lemma withinLimits_fourSlashings {x : Object attesterSlashing} (h : attesterSlashing.WithinLimits x) :
    ∀ y ∈ fourSlashings x, attesterSlashing.WithinLimits y := by
  intro y hy
  simp only [fourSlashings, List.mem_cons, List.not_mem_nil, or_false] at hy
  rcases hy with rfl | rfl | rfl | rfl
  · exact h
  · exact h
  · exact attesterSlashing.withinLimits_vac
  · exact attesterSlashing.withinLimits_vac

lemma tooLong_fourSlashings (x : Object attesterSlashing) :
    attesterSlashing.TooLong samplePlatform.hashtreeHash MAX_ATTESTER_SLASHINGS (fourSlashings x) := by
  have hlen : (attesterSlashing.leaves samplePlatform.hashtreeHash (fourSlashings x)).length = 4 := rfl
  have hlimit : chunkLimit attesterSlashing.basicLayout MAX_ATTESTER_SLASHINGS = 2 := rfl
  constructor
  all_goals
    simp only [hlen, hlimit]
    decide

lemma finalBlock_fourSlashings (H : PairHash) (x : Object attesterSlashing) :
    finalBlock (log2ceil (chunkLimit attesterSlashing.basicLayout MAX_ATTESTER_SLASHINGS))
        (attesterSlashing.leaves H (fourSlashings x)) =
      List.replicate 2 (attesterSlashing.root H attesterSlashing.vac) := by
  have hlimit : log2ceil (chunkLimit attesterSlashing.basicLayout MAX_ATTESTER_SLASHINGS) = 1 := rfl
  have hleaves : attesterSlashing.leaves H (fourSlashings x) = List.replicate 2 (attesterSlashing.root H x) ++
      List.replicate 2 (attesterSlashing.root H attesterSlashing.vac) := rfl
  rw [hlimit, hleaves, finalBlock, List.length_append, List.length_replicate, List.length_replicate]
  exact List.drop_left' List.length_replicate

/-- The first two slashings make a difference for two threads, and none for one. -/
theorem overLimit_collide_sample :
    (∃ root, ∀ s s', Returns (attesterSlashingList.hashTreeRoot samplePlatform s
        (fourSlashings sampleSlashing) 1 zeroHash) root ∧
      Returns (attesterSlashingList.hashTreeRoot samplePlatform s'
        (fourSlashings attesterSlashing.vac) 1 zeroHash) root) ∧
    ∀ s s' root events events',
      (attesterSlashingList.hashTreeRoot samplePlatform s (fourSlashings sampleSlashing) 2 zeroHash).run =
        .ok (root, events) →
      (attesterSlashingList.hashTreeRoot samplePlatform s' (fourSlashings attesterSlashing.vac) 2 zeroHash).run =
        .ok (root, events') →
      ∃ p q : Chunk × Chunk, .digest p.1 p.2 ∈ events ∧ .digest q.1 q.2 ∈ events' ∧ p ≠ q ∧
        samplePlatform.hashtreeHash p.1 p.2 = samplePlatform.hashtreeHash q.1 q.2 := by
  have hmem : ⟨_, attesterSlashing⟩ ∈ containers := by simp [containers]
  have hinvertible : attesterSlashingList.Invertible :=
    ⟨rfl, rfl, rfl, invertible_containers _ hmem, fun hfix => by cases hfix⟩
  have hlen : (fourSlashings sampleSlashing).length = (fourSlashings attesterSlashing.vac).length := rfl
  have hne : fourSlashings sampleSlashing ≠ fourSlashings attesterSlashing.vac := fun heq =>
    List.cons_ne_nil _ _ (congrArg (fun x => x.1.1) (List.cons.inj heq).1)
  obtain ⟨-, hone, htwo⟩ := overLimit_collide samplePlatform hinvertible (treesBounded_containers _ hmem)
    (withinLimits_fourSlashings withinLimits_sampleSlashing)
    (withinLimits_fourSlashings attesterSlashing.withinLimits_vac) hlen (tooLong_fourSlashings sampleSlashing)
    ((finalBlock_fourSlashings _ _).trans (finalBlock_fourSlashings _ _).symm)
  exact ⟨hone, fun s s' root events events' => htwo s s' 2 2 root events events' hne rfl rfl⟩

end Beacon

end Sszpp
