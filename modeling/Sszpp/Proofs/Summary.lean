import Sszpp.Proofs.Header

/-!
# Summaries

A summary of an object has roots in place of some of its parts, at any depth: a header in place of a block,
the roots of elements in place of a list of them. It has the root of the object.
-/

namespace Sszpp

open Library

mutual

/-- Which parts of an object are replaced by their roots. The elements of a vector or a list are replaced
alike, and not where their bytes are packed into chunks. -/
inductive Cut : {α β : Type} → SszType α → SszType β → Type 1
  | keep {α : Type} (τ : SszType α) : Cut τ τ
  | root {α : Type} (τ : SszType α) : Cut τ (.array (.basic .byte) BYTES_PER_CHUNK)
  | array {α β : Type} {e : SszType α} {f : SszType β} (c : Cut e f) (hlayout : e.basicLayout = none)
    (n : Nat) : Cut (.array e n) (.array f n)
  | list {α β : Type} {e : SszType α} {f : SszType β} (c : Cut e f) (hlayout : e.basicLayout = none)
    (limit : Nat) : Cut (.list e limit) (.list f limit)
  | container {α β : Type} {ms : Members α} {ns : Members β} (variableSize variableSize' : Bool)
    (cs : MembersCut ms ns) : Cut (.container variableSize ms) (.container variableSize' ns)

inductive MembersCut : {α β : Type} → Members α → Members β → Type 1
  | nil : MembersCut .nil .nil
  | cons {α β γ δ : Type} {m : SszType α} {n : SszType β} {ms : Members γ} {ns : Members δ} (c : Cut m n)
    (cs : MembersCut ms ns) : MembersCut (.cons m ms) (.cons n ns)

end

mutual

def Cut.summary (H : PairHash) : {α β : Type} → {τ : SszType α} → {σ : SszType β} → Cut τ σ → α → β
  | _, _, _, _, .keep _, v => v
  | _, _, _, _, .root τ, v => τ.root H v
  | _, _, _, _, .array c _ _, v => ⟨v.1.map (c.summary H), (List.length_map _).trans v.2⟩
  | _, _, _, _, .list c _ _, v => v.map (c.summary H)
  | _, _, _, _, .container _ _ cs, v => cs.summary H v

def MembersCut.summary (H : PairHash) : {α β : Type} → {ms : Members α} → {ns : Members β} →
    MembersCut ms ns → α → β
  | _, _, _, _, .nil, _ => ()
  | _, _, _, _, .cons c cs, (v, vs) => (c.summary H v, cs.summary H vs)

end

section Root

variable {α β : Type} (H : PairHash)

/-- No part is packed in one of the two and not in the other. -/
lemma Cut.basicLayout_eq_none {e : SszType α} {f : SszType β} (c : Cut e f) (hlayout : e.basicLayout = none) :
    f.basicLayout = none := by
  cases c with
  | keep => exact hlayout
  | root => rfl
  | array => rfl
  | list => rfl
  | container => rfl

lemma MembersCut.count_eq : {α β : Type} → {ms : Members α} → {ns : Members β} → MembersCut ms ns →
    ns.count = ms.count
  | _, _, _, _, .nil => rfl
  | _, _, _, _, .cons _ cs => congrArg (· + 1) cs.count_eq

lemma leavesOf_map {e : SszType α} {f : SszType β} (c : Cut e f) (hlayout : e.basicLayout = none)
    (hroot : ∀ v, f.root H (c.summary H v) = e.root H v) (vs : List α) :
    leavesOf f.basicLayout (f.root H) (vs.map (c.summary H)) = leavesOf e.basicLayout (e.root H) vs := by
  rw [c.basicLayout_eq_none hlayout, hlayout, leavesOf, leavesOf, List.map_map]
  exact List.map_congr_left fun v _ => hroot v

lemma chunkLimit_map {e : SszType α} {f : SszType β} (c : Cut e f) (hlayout : e.basicLayout = none) (limit : Nat) :
    chunkLimit f.basicLayout limit = chunkLimit e.basicLayout limit := by
  rw [c.basicLayout_eq_none hlayout, hlayout]
  rfl

end Root

mutual

/-- The reference root of a summary is that of the object. -/
theorem Cut.root_summary (H : PairHash) : {α β : Type} → {τ : SszType α} → {σ : SszType β} → (c : Cut τ σ) →
    (v : α) → σ.root H (c.summary H v) = τ.root H v
  | _, _, _, _, .keep _, _ => by rw [Cut.summary]
  | _, _, _, _, .root τ, v => by
    rw [Cut.summary]
    exact Beacon.root_toRoot H (τ.root H v)
  | _, _, _, _, .array c hlayout _, v => by
    have hleaves := leavesOf_map H c hlayout (fun v => Cut.root_summary H c v) v.1
    rw [Cut.summary, SszType.root, SszType.root, hleaves]
  | _, _, _, _, .list c hlayout limit, v => by
    have hleaves := leavesOf_map H c hlayout (fun v => Cut.root_summary H c v) v
    rw [Cut.summary, SszType.root, SszType.root, hleaves, chunkLimit_map c hlayout, List.length_map]
  | _, _, _, _, .container _ _ cs, v => by
    rw [Cut.summary, SszType.root, SszType.root, MembersCut.roots_summary H cs v, cs.count_eq]

theorem MembersCut.roots_summary (H : PairHash) : {α β : Type} → {ms : Members α} → {ns : Members β} →
    (cs : MembersCut ms ns) → (v : α) → ns.roots H (cs.summary H v) = ms.roots H v
  | _, _, _, _, .nil, _ => rfl
  | _, _, _, _, .cons c cs, (v, vs) => by
    rw [MembersCut.summary, Members.roots, Members.roots, Cut.root_summary H c v, MembersCut.roots_summary H cs vs]

end

mutual

theorem Cut.withinLimits (H : PairHash) : {α β : Type} → {τ : SszType α} → {σ : SszType β} → (c : Cut τ σ) →
    (v : α) → τ.WithinLimits v → σ.WithinLimits (c.summary H v)
  | _, _, _, _, .keep _, _, h => by rwa [Cut.summary]
  | _, _, _, _, .root _, _, _ => fun _ _ => trivial
  | _, _, _, _, .array c _ _, v, h => by
    rw [Cut.summary]
    exact List.forall_mem_map.mpr fun x hx => Cut.withinLimits H c x (h x hx)
  | _, _, _, _, .list c _ _, v, h => by
    rw [Cut.summary]
    exact ⟨(List.length_map _).trans_le h.1, List.forall_mem_map.mpr fun x hx => Cut.withinLimits H c x (h.2 x hx)⟩
  | _, _, _, _, .container _ _ cs, v, h => by
    rw [Cut.summary]
    exact MembersCut.withinLimits H cs v h

theorem MembersCut.withinLimits (H : PairHash) : {α β : Type} → {ms : Members α} → {ns : Members β} →
    (cs : MembersCut ms ns) → (v : α) → ms.WithinLimits v → ns.WithinLimits (cs.summary H v)
  | _, _, _, _, .nil, _, _ => trivial
  | _, _, _, _, .cons c cs, (v, vs), h => by
    rw [MembersCut.summary]
    exact ⟨Cut.withinLimits H c v h.1, MembersCut.withinLimits H cs vs h.2⟩

end

mutual

theorem Cut.treesWithin (H : PairHash) : {α β : Type} → {τ : SszType α} → {σ : SszType β} → (c : Cut τ σ) →
    (v : α) → τ.TreesWithin v → σ.TreesWithin (c.summary H v)
  | _, _, _, _, .keep _, _, h => by rwa [Cut.summary]
  | _, _, _, _, .root _, v, _ => (SszType.array (.basic .byte) BYTES_PER_CHUNK).treesWithin_of_bounded rfl _
  | _, _, _, _, .array c hlayout _, v, h => by
    have hlength := h.1
    rw [hlayout, leavesOf, List.length_map] at hlength
    rw [Cut.summary, SszType.TreesWithin, c.basicLayout_eq_none hlayout, leavesOf, List.length_map, List.length_map]
    exact ⟨hlength, List.forall_mem_map.mpr fun x hx => Cut.treesWithin H c x (h.2 x hx)⟩
  | _, _, _, _, .list c hlayout limit, v, h => by
    rw [Cut.summary, SszType.TreesWithin, chunkLimit_map c hlayout]
    exact ⟨h.1, List.forall_mem_map.mpr fun x hx => Cut.treesWithin H c x (h.2 x hx)⟩
  | _, _, _, _, .container _ _ cs, v, h => by
    rw [Cut.summary, SszType.TreesWithin, cs.count_eq]
    exact ⟨h.1, MembersCut.treesWithin H cs v h.2⟩

theorem MembersCut.treesWithin (H : PairHash) : {α β : Type} → {ms : Members α} → {ns : Members β} →
    (cs : MembersCut ms ns) → (v : α) → ms.TreesWithin v → ns.TreesWithin (cs.summary H v)
  | _, _, _, _, .nil, _, _ => trivial
  | _, _, _, _, .cons c cs, (v, vs), h => by
    rw [MembersCut.summary]
    exact ⟨Cut.treesWithin H c v h.1, MembersCut.treesWithin H cs vs h.2⟩

end

/-- Whatever members and elements that are not packed are replaced by their roots in an object within its limits,
`hash_tree_root` returns one chunk for the object and for its summary, for every number of threads of the two calls
and in any order of the halves. -/
theorem summary_root {α β : Type} (P : Platform) {τ : SszType α} {σ : SszType β} (c : Cut τ σ) {v : α}
    (hwithin : τ.WithinLimits v) (htrees : τ.TreesWithin v) :
    ∃ root, (∀ s cpuCount, Returns (τ.hashTreeRoot P s v cpuCount zeroHash) root) ∧
      ∀ s cpuCount, Returns (σ.hashTreeRoot P s (c.summary P.hashtreeHash v) cpuCount zeroHash) root := by
  have hwithin' := c.withinLimits P.hashtreeHash v hwithin
  have htrees' := c.treesWithin P.hashtreeHash v htrees
  refine ⟨τ.root P.hashtreeHash v, τ.returns_root P hwithin htrees, ?_⟩
  rw [← c.root_summary P.hashtreeHash v]
  exact σ.returns_root P hwithin' htrees'

namespace Beacon

/-- A block is replaced by its header. -/
def headerCut : Cut beaconBlock beaconBlockHeader :=
  .container _ _ (.cons (.keep _) (.cons (.keep _) (.cons (.keep _) (.cons (.keep _) (.cons (.root _) .nil)))))

def signedHeaderCut : Cut signedBeaconBlock signedBeaconBlockHeader :=
  .container _ _ (.cons headerCut (.cons (.keep _) .nil))

def sampleAttestation : Object attestation := ([true, false, true], attestationData.vac, signature.vac, ())

def sampleBody : Object beaconBlockBody :=
  (signature.vac, eth1Data.vac, root.vac, [], [], [sampleAttestation, attestation.vac], [], [], syncAggregate.vac,
    executionPayload.vac, [], [blobKzgCommitments.vac], ())

def sampleSignedBlock : Object signedBeaconBlock := ((9, 4, root.vac, root.vac, sampleBody, ()), signature.vac, ())

lemma withinLimits_sampleBody : beaconBlockBody.WithinLimits sampleBody := by
  have hattestation : attestation.WithinLimits sampleAttestation :=
    ⟨(by decide : 3 ≤ MAX_VALIDATORS_PER_COMMITEE), attestationData.withinLimits_vac, signature.withinLimits_vac,
      trivial⟩
  have hattestations : ∀ x ∈ [sampleAttestation, attestation.vac], attestation.WithinLimits x :=
    List.forall_mem_cons.mpr ⟨hattestation, List.forall_mem_singleton.mpr attestation.withinLimits_vac⟩
  exact ⟨signature.withinLimits_vac, eth1Data.withinLimits_vac, root.withinLimits_vac, ⟨by decide, nofun⟩,
    ⟨by decide, nofun⟩, ⟨by decide, hattestations⟩, ⟨by decide, nofun⟩, ⟨by decide, nofun⟩,
    syncAggregate.withinLimits_vac, executionPayload.withinLimits_vac,
    ⟨by decide, nofun⟩, ⟨by decide, List.forall_mem_singleton.mpr blobKzgCommitments.withinLimits_vac⟩, trivial⟩

lemma withinLimits_sampleSignedBlock : signedBeaconBlock.WithinLimits sampleSignedBlock :=
  ⟨⟨trivial, trivial, root.withinLimits_vac, root.withinLimits_vac, withinLimits_sampleBody, trivial⟩,
    signature.withinLimits_vac, trivial⟩

end Beacon

/-- A signed block with two attestations and a commitment, and its signed header. -/
theorem summary_root_sample :
    ∃ root, (∀ s cpuCount, Returns (Beacon.signedBeaconBlock.hashTreeRoot samplePlatform s
        Beacon.sampleSignedBlock cpuCount zeroHash) root) ∧
      ∀ s cpuCount, Returns (Beacon.signedBeaconBlockHeader.hashTreeRoot samplePlatform s
        (Beacon.signedHeaderCut.summary samplePlatform.hashtreeHash Beacon.sampleSignedBlock) cpuCount zeroHash)
        root :=
  summary_root samplePlatform Beacon.signedHeaderCut Beacon.withinLimits_sampleSignedBlock
    (Beacon.signedBeaconBlock.treesWithin_of_bounded (by decide) _)

end Sszpp
