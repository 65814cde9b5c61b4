import Sszpp.Model.Beacon
import Sszpp.Proofs.Limits
import Sszpp.Proofs.Root

/-!
# Headers

A header replaces members of a container by their roots. The root of a `Root` member is the member
itself, so that the header has the leaves of the container.
-/

namespace Sszpp

open Library

namespace Beacon

/-! ### The containers of the library -/

/-- No tree of the library is deeper than `zero_hash_array`. -/
theorem treesBounded_containers : ∀ τ ∈ containers, τ.2.treesBounded = true := by
  have hall : containers.all (fun τ => τ.2.treesBounded) = true := by decide +kernel
  exact List.all_eq_true.mp hall

/-- Every container of the library has an encoder. -/
theorem encodable_containers : ∀ τ ∈ containers, τ.2.Encodable := by
  simp [containers, checkpoint, attestationData, attestation, indexedAttestation, aggregateAndProof,
    signedAggregateAndProof, depositData, depositMessage, deposit, voluntaryExit, signedVoluntaryExit,
    syncAggregate, syncCommittee, blsToExecutionChange, signedBlsToExecutionChange, withdrawal,
    executionPayload, executionPayloadHeader, eth1Data, beaconBlockHeader, signedBeaconBlockHeader,
    attesterSlashing, proposerSlashing, beaconBlockBody, beaconBlock, signedBeaconBlock, fork,
    validator, historicalSummary, beaconState, byteArray, byteList, root, executionAddress, uint64,
    uint256, signature, blsPubkey, blobKzgCommitments, transactionList, transaction, withdrawalList,
    SszType.Encodable, Members.Encodable, SszType.isVariableSize, Members.hasVariableSize,
    Members.count, SszType.isBitset, SszType.isBool, SszType.isBitlist]

/-- Every container of the library hashes to its reference root. -/
theorem returns_root_of_mem (P : Platform) {α : Type} {τ : SszType α} (h : ⟨α, τ⟩ ∈ containers) {v : α}
    (hwithin : τ.WithinLimits v) (s : Schedule) (cpuCount : Nat) :
    Returns (τ.hashTreeRoot P s v cpuCount zeroHash) (τ.root P.hashtreeHash v) :=
  τ.returns_root P hwithin (τ.treesWithin_of_bounded (treesBounded_containers _ h) v) s cpuCount

/-! ### The two headers -/

/-- The root of a `Root` is itself. -/
lemma root_toRoot (H : PairHash) (c : Chunk) : root.root H (toRoot c) = c := by
  have hbytes : root.rootBytes = some fun v => v.1.flatMap BasicType.byte.toBytes := rfl
  have hc : (toRoot c).1.flatMap BasicType.byte.toBytes = c.1 := flatMap_byteLayout c.1
  rw [(SszType.rootBytes_eq_some hbytes (toRoot c)).2.2 H, hc]
  exact Chunk.ofBytes_self c

/-- The header of a payload with the given roots of its two lists. -/
def ExecutionPayload.header (p : ExecutionPayload) (transactionsRoot withdrawalsRoot : Root) :
    ExecutionPayloadHeader where
  parentHash := p.parentHash
  feeRecipient := p.feeRecipient
  stateRoot := p.stateRoot
  receiptsRoot := p.receiptsRoot
  logsBloom := p.logsBloom
  prevRandao := p.prevRandao
  blockNumber := p.blockNumber
  gasLimit := p.gasLimit
  gasUsed := p.gasUsed
  timestamp := p.timestamp
  extraData := p.extraData
  baseFeePerGas := p.baseFeePerGas
  blockHash := p.blockHash
  transactionsRoot := transactionsRoot
  withdrawalsRoot := withdrawalsRoot
  blobGasUsed := p.blobGasUsed
  excessBlobGas := p.excessBlobGas

def BeaconBlock.header (b : BeaconBlock) (bodyRoot : Root) : BeaconBlockHeader where
  slot := b.slot
  proposerIndex := b.proposerIndex
  parentRoot := b.parentRoot
  stateRoot := b.stateRoot
  bodyRoot := bodyRoot

lemma root_executionPayloadHeader (H : PairHash) (p : ExecutionPayload) :
    executionPayloadHeader.root H
        (p.header (toRoot (transactionList.root H p.transactions)) (toRoot (withdrawalList.root H p.withdrawals))).members =
      executionPayload.root H p.members := by
  simp only [executionPayloadHeader, executionPayload, SszType.root, Members.roots,
    ExecutionPayload.members, ExecutionPayloadHeader.members, ExecutionPayload.header, Members.count,
    root_toRoot]

lemma root_beaconBlockHeader (H : PairHash) (b : BeaconBlock) :
    beaconBlockHeader.root H (b.header (toRoot (beaconBlockBody.root H b.body))).members =
      beaconBlock.root H b.members := by
  simp only [beaconBlockHeader, beaconBlock, SszType.root, Members.roots, BeaconBlock.members,
    BeaconBlockHeader.members, BeaconBlock.header, Members.count, root_toRoot]

variable (P : Platform)

lemma returns_root_of_bounded {α : Type} (τ : SszType α) (h : τ.treesBounded = true) {v : α}
    (hwithin : τ.WithinLimits v) (s : Schedule) (cpuCount : Nat) :
    Returns (τ.hashTreeRoot P s v cpuCount zeroHash) (τ.root P.hashtreeHash v) :=
  τ.returns_root P hwithin (τ.treesWithin_of_bounded h v) s cpuCount

/-- The members of a header are within their limits when those of its payload are. -/
lemma withinLimits_executionPayloadHeader {p : ExecutionPayload}
    (h : executionPayload.WithinLimits p.members) (transactionsRoot withdrawalsRoot : Root) :
    executionPayloadHeader.WithinLimits (p.header transactionsRoot withdrawalsRoot).members := by
  obtain ⟨-, -, -, -, -, -, -, -, -, -, hextra, -⟩ := h
  have hfixed : ∀ {n : Nat} (v : Object (byteArray n)), (byteArray n).WithinLimits v :=
    fun _ _ _ => trivial
  exact ⟨hfixed _, hfixed _, hfixed _, hfixed _, hfixed _, hfixed _, trivial, trivial, trivial, trivial,
    hextra, trivial, hfixed _, hfixed _, hfixed _, trivial, trivial, trivial⟩

/-- The roots of the two lists of a payload make a header with the root of the payload. -/
def ExecutionPayload.Summarised (p : ExecutionPayload) : Prop :=
  ∃ transactionsRoot withdrawalsRoot r,
    (∀ s cpuCount, Returns (transactionList.hashTreeRoot P s p.transactions cpuCount zeroHash) transactionsRoot) ∧
    (∀ s cpuCount, Returns (withdrawalList.hashTreeRoot P s p.withdrawals cpuCount zeroHash) withdrawalsRoot) ∧
    (∀ s cpuCount, Returns (executionPayloadHeader.hashTreeRootValue P s
      (p.header (toRoot transactionsRoot) (toRoot withdrawalsRoot)).members cpuCount) r) ∧
    ∀ s cpuCount, Returns (executionPayload.hashTreeRootValue P s p.members cpuCount) r

/-- The root of the body of a block makes a header with the root of the block. -/
def BeaconBlock.Summarised (b : BeaconBlock) : Prop :=
  ∃ bodyRoot r,
    (∀ s cpuCount, Returns (beaconBlockBody.hashTreeRootValue P s b.body cpuCount) bodyRoot) ∧
    (∀ s cpuCount,
      Returns (beaconBlockHeader.hashTreeRootValue P s (b.header (toRoot bodyRoot)).members cpuCount) r) ∧
    ∀ s cpuCount, Returns (beaconBlock.hashTreeRootValue P s b.members cpuCount) r

lemma ExecutionPayload.summarised {p : ExecutionPayload} (hwithin : executionPayload.WithinLimits p.members) :
    p.Summarised P := by
  obtain ⟨-, -, -, -, -, -, -, -, -, -, -, -, -, htransactions, hwithdrawals, -⟩ := id hwithin
  refine ⟨transactionList.root P.hashtreeHash p.transactions, withdrawalList.root P.hashtreeHash p.withdrawals,
    executionPayload.root P.hashtreeHash p.members, ?_, ?_, ?_, ?_⟩
  · exact returns_root_of_bounded P transactionList (by decide) htransactions
  · exact returns_root_of_bounded P withdrawalList (by decide) hwithdrawals
  · rw [← root_executionPayloadHeader]
    exact returns_root_of_bounded P executionPayloadHeader (by decide)
      (withinLimits_executionPayloadHeader hwithin _ _)
  · exact returns_root_of_bounded P executionPayload (by decide) hwithin

lemma BeaconBlock.summarised {b : BeaconBlock} (hwithin : beaconBlock.WithinLimits b.members) :
    b.Summarised P := by
  have hbody : beaconBlockBody.WithinLimits b.body := hwithin.2.2.2.2.1
  have hheader : beaconBlockHeader.WithinLimits
      (b.header (toRoot (beaconBlockBody.root P.hashtreeHash b.body))).members :=
    ⟨trivial, trivial, hwithin.2.2.1, hwithin.2.2.2.1, fun _ _ => trivial, trivial⟩
  refine ⟨beaconBlockBody.root P.hashtreeHash b.body, beaconBlock.root P.hashtreeHash b.members, ?_, ?_, ?_⟩
  · exact returns_root_of_bounded P beaconBlockBody (by decide) hbody
  · rw [← root_beaconBlockHeader]
    exact returns_root_of_bounded P beaconBlockHeader (by decide) hheader
  · exact returns_root_of_bounded P beaconBlock (by decide) hwithin

/-- A header made from the roots that the calls on the summarised members return has the root of its
container, for every number of threads of each call. -/
theorem header_root :
    (∀ p : ExecutionPayload, executionPayload.WithinLimits p.members → p.Summarised P) ∧
      ∀ b : BeaconBlock, beaconBlock.WithinLimits b.members → b.Summarised P :=
  ⟨fun _ hwithin => ExecutionPayload.summarised P hwithin, fun _ hwithin => BeaconBlock.summarised P hwithin⟩

def samplePayload : ExecutionPayload where
  parentHash := root.vac
  feeRecipient := executionAddress.vac
  stateRoot := root.vac
  receiptsRoot := root.vac
  logsBloom := (byteArray BYTES_PER_LOGS_BLOOM).vac
  prevRandao := root.vac
  blockNumber := 7
  gasLimit := 0
  gasUsed := 0
  timestamp := 0
  extraData := [1, 2, 3]
  baseFeePerGas := 0
  blockHash := root.vac
  transactions := [[4, 5], []]
  withdrawals := [(1, 2, executionAddress.vac, 3, ())]
  blobGasUsed := 0
  excessBlobGas := 0

def sampleBlock : BeaconBlock where
  slot := 1
  proposerIndex := 2
  parentRoot := root.vac
  stateRoot := root.vac
  body := beaconBlockBody.vac

theorem header_root_sample :
    samplePayload.Summarised samplePlatform ∧ sampleBlock.Summarised samplePlatform := by
  have hpayload : executionPayload.WithinLimits samplePayload.members := by
    simp [executionPayload, ExecutionPayload.members, samplePayload, transactionList, transaction,
      withdrawalList, withdrawal, byteList, byteArray, root, executionAddress, uint64, uint256,
      SszType.WithinLimits, Members.WithinLimits]
    decide
  have hblock : beaconBlock.WithinLimits sampleBlock.members :=
    ⟨trivial, trivial, root.withinLimits_vac, root.withinLimits_vac, beaconBlockBody.withinLimits_vac,
      trivial⟩
  exact ⟨(header_root samplePlatform).1 _ hpayload, (header_root samplePlatform).2 _ hblock⟩

end Beacon

end Sszpp
