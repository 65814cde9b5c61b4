import Sszpp.Model.HashTreeRoot

/-!
# The containers of the beacon chain

An object of a container is the product of its members in the order of its `SSZ_CONT` list. The
containers with a header also have their members by name.
-/

namespace Sszpp.Beacon

/-- The objects of a type expression. -/
abbrev Object {α : Type} (_ : SszType α) : Type := α

def uint64 := SszType.basic .uint64

def uint256 := SszType.basic .uint256

def byteArray (n : Nat) := SszType.array (.basic .byte) n

/-- `ssz::list<std::byte, N>` -/
def byteList (n : Nat) := SszType.list (.basic .byte) n

def root := byteArray 32

def blobKzgCommitments := byteArray 48

def signature := byteArray 96

def blsPubkey := byteArray 48

def executionAddress := byteArray 20

abbrev Root := Object root

/-- `chunk_t` and `Root` are one type. -/
def toRoot (c : Chunk) : Root := c

/-! ### Attestations -/

abbrev MAX_ATTESTATIONS : Nat := 128

abbrev MAX_VALIDATORS_PER_COMMITEE : Nat := 2048

/-- `epoch`, `root` -/
def checkpoint := SszType.container false (.cons uint64 <| .cons root .nil)

/-- `slot`, `index`, `beacon_block_root`, `source`, `target` -/
def attestationData := SszType.container false
  (.cons uint64 <| .cons uint64 <| .cons root <| .cons checkpoint <| .cons checkpoint .nil)

/-- `aggregation_bits`, `data`, `signature` -/
def attestation := SszType.container true
  (.cons (.bitlist MAX_VALIDATORS_PER_COMMITEE) <| .cons attestationData <| .cons signature .nil)

/-- `attesting_indices`, `data`, `signature` -/
def indexedAttestation := SszType.container true
  (.cons (.list uint64 MAX_VALIDATORS_PER_COMMITEE) <| .cons attestationData <| .cons signature .nil)

/-- `aggregator_index`, `aggregate`, `selection_proof` -/
def aggregateAndProof := SszType.container true
  (.cons uint64 <| .cons attestation <| .cons signature .nil)

/-- `message`, `signature` -/
def signedAggregateAndProof := SszType.container true
  (.cons aggregateAndProof <| .cons signature .nil)

/-! ### Deposits, exits and the sync committee -/

abbrev DEPOSIT_CONTRACT_TREE_DEPTH : Nat := 32

abbrev MAX_VOLUNTARY_EXITS : Nat := 16

abbrev SYNC_COMMITTEE_SIZE : Nat := 512

/-- `pubkey`, `withdrawal_credentials`, `amount`, `signature` -/
def depositData := SszType.container false
  (.cons blsPubkey <| .cons root <| .cons uint64 <| .cons signature .nil)

/-- `pubkey`, `withdrawal_credentials`, `amount` -/
def depositMessage := SszType.container false
  (.cons blsPubkey <| .cons root <| .cons uint64 .nil)

/-- `proof`, `data` -/
def deposit := SszType.container false
  (.cons (.array root (DEPOSIT_CONTRACT_TREE_DEPTH + 1)) <| .cons depositData .nil)

/-- `epoch`, `validator_index` -/
def voluntaryExit := SszType.container false (.cons uint64 <| .cons uint64 .nil)

/-- `message`, `signature` -/
def signedVoluntaryExit := SszType.container false (.cons voluntaryExit <| .cons signature .nil)

/-- `sync_committee_bits`, `sync_committee_signature` -/
def syncAggregate := SszType.container false
  (.cons (.bitset SYNC_COMMITTEE_SIZE) <| .cons signature .nil)

/-- `pubkeys`, `aggregate_pubkey` -/
def syncCommittee := SszType.container false
  (.cons (.array blsPubkey SYNC_COMMITTEE_SIZE) <| .cons blsPubkey .nil)

/-! ### Withdrawals -/

/-- `validator_index`, `from_bls_pubkey`, `to_execution_address` -/
def blsToExecutionChange := SszType.container false
  (.cons uint64 <| .cons blsPubkey <| .cons executionAddress .nil)

/-- `message`, `signature` -/
def signedBlsToExecutionChange := SszType.container false
  (.cons blsToExecutionChange <| .cons signature .nil)

/-- `index`, `validator_index`, `address`, `amount` -/
def withdrawal := SszType.container false
  (.cons uint64 <| .cons uint64 <| .cons executionAddress <| .cons uint64 .nil)

/-! ### Execution payloads -/

abbrev MAX_BYTES_PER_TRANSACTION : Nat := 2 ^ 30

abbrev MAX_TRANSACTIONS_PER_PAYLOAD : Nat := 2 ^ 20

abbrev BYTES_PER_LOGS_BLOOM : Nat := 256

abbrev MAX_EXTRA_DATA_BYTES : Nat := 32

abbrev MAX_WITHDRAWALS_PER_PAYLOAD : Nat := 16

def transaction := byteList MAX_BYTES_PER_TRANSACTION

def transactionList := SszType.list transaction MAX_TRANSACTIONS_PER_PAYLOAD

def withdrawalList := SszType.list withdrawal MAX_WITHDRAWALS_PER_PAYLOAD

/-- `execution_payload_t` -/
structure ExecutionPayload where
  parentHash : Root
  feeRecipient : Object executionAddress
  stateRoot : Root
  receiptsRoot : Root
  logsBloom : Object (byteArray BYTES_PER_LOGS_BLOOM)
  prevRandao : Root
  blockNumber : Object uint64
  gasLimit : Object uint64
  gasUsed : Object uint64
  timestamp : Object uint64
  extraData : Object (byteList MAX_EXTRA_DATA_BYTES)
  baseFeePerGas : Object uint256
  blockHash : Root
  transactions : Object transactionList
  withdrawals : Object withdrawalList
  blobGasUsed : Object uint64
  excessBlobGas : Object uint64

def executionPayload := SszType.container true
  (.cons root <| .cons executionAddress <| .cons root <| .cons root <|
    .cons (byteArray BYTES_PER_LOGS_BLOOM) <| .cons root <| .cons uint64 <| .cons uint64 <|
    .cons uint64 <| .cons uint64 <| .cons (byteList MAX_EXTRA_DATA_BYTES) <| .cons uint256 <|
    .cons root <| .cons transactionList <| .cons withdrawalList <| .cons uint64 <| .cons uint64 .nil)

/-- The arguments of `SSZ_CONT`. -/
def ExecutionPayload.members (p : ExecutionPayload) : Object executionPayload :=
  (p.parentHash, p.feeRecipient, p.stateRoot, p.receiptsRoot, p.logsBloom, p.prevRandao,
    p.blockNumber, p.gasLimit, p.gasUsed, p.timestamp, p.extraData, p.baseFeePerGas, p.blockHash,
    p.transactions, p.withdrawals, p.blobGasUsed, p.excessBlobGas, ())

/-- `execution_payload_header_t` -/
structure ExecutionPayloadHeader where
  parentHash : Root
  feeRecipient : Object executionAddress
  stateRoot : Root
  receiptsRoot : Root
  logsBloom : Object (byteArray BYTES_PER_LOGS_BLOOM)
  prevRandao : Root
  blockNumber : Object uint64
  gasLimit : Object uint64
  gasUsed : Object uint64
  timestamp : Object uint64
  extraData : Object (byteList MAX_EXTRA_DATA_BYTES)
  baseFeePerGas : Object uint256
  blockHash : Root
  transactionsRoot : Root
  withdrawalsRoot : Root
  blobGasUsed : Object uint64
  excessBlobGas : Object uint64

def executionPayloadHeader := SszType.container true
  (.cons root <| .cons executionAddress <| .cons root <| .cons root <|
    .cons (byteArray BYTES_PER_LOGS_BLOOM) <| .cons root <| .cons uint64 <| .cons uint64 <|
    .cons uint64 <| .cons uint64 <| .cons (byteList MAX_EXTRA_DATA_BYTES) <| .cons uint256 <|
    .cons root <| .cons root <| .cons root <| .cons uint64 <| .cons uint64 .nil)

def ExecutionPayloadHeader.members (h : ExecutionPayloadHeader) : Object executionPayloadHeader :=
  (h.parentHash, h.feeRecipient, h.stateRoot, h.receiptsRoot, h.logsBloom, h.prevRandao,
    h.blockNumber, h.gasLimit, h.gasUsed, h.timestamp, h.extraData, h.baseFeePerGas, h.blockHash,
    h.transactionsRoot, h.withdrawalsRoot, h.blobGasUsed, h.excessBlobGas, ())

/-! ### Blocks -/

abbrev MAX_ATTESTER_SLASHINGS : Nat := 2

abbrev MAX_PROPOSER_SLASHINGS : Nat := 16

abbrev MAX_BLS_TO_EXECUTION_CHANGES : Nat := 16

abbrev MAX_BLOB_COMMITMENTS_PER_BLOCK : Nat := 4096

abbrev MAX_DEPOSITS : Nat := 16

/-- `deposit_root`, `deposit_count`, `block_hash` -/
def eth1Data := SszType.container false (.cons root <| .cons uint64 <| .cons root .nil)

/-- `beacon_block_header_t` -/
structure BeaconBlockHeader where
  slot : Object uint64
  proposerIndex : Object uint64
  parentRoot : Root
  stateRoot : Root
  bodyRoot : Root

def beaconBlockHeader := SszType.container false
  (.cons uint64 <| .cons uint64 <| .cons root <| .cons root <| .cons root .nil)

def BeaconBlockHeader.members (h : BeaconBlockHeader) : Object beaconBlockHeader :=
  (h.slot, h.proposerIndex, h.parentRoot, h.stateRoot, h.bodyRoot, ())

/-- `message`, `signature` -/
def signedBeaconBlockHeader := SszType.container false (.cons beaconBlockHeader <| .cons signature .nil)

/-- `attestation_1`, `attestation_2` -/
def attesterSlashing := SszType.container true
  (.cons indexedAttestation <| .cons indexedAttestation .nil)

/-- `signed_header_1`, `signed_header_2` -/
def proposerSlashing := SszType.container false
  (.cons signedBeaconBlockHeader <| .cons signedBeaconBlockHeader .nil)

/-- `randao_reveal`, `eth1_data`, `graffiti`, `proposer_slashings`, `attester_slashings`,
`attestations`, `deposits`, `voluntary_exits`, `sync_aggregate`, `execution_payload`,
`bls_to_execution_changes`, `blob_kzg_commitments` -/
def beaconBlockBody := SszType.container true
  (.cons signature <| .cons eth1Data <| .cons root <|
    .cons (.list proposerSlashing MAX_PROPOSER_SLASHINGS) <|
    .cons (.list attesterSlashing MAX_ATTESTER_SLASHINGS) <|
    .cons (.list attestation MAX_ATTESTATIONS) <| .cons (.list deposit MAX_DEPOSITS) <|
    .cons (.list signedVoluntaryExit MAX_VOLUNTARY_EXITS) <| .cons syncAggregate <|
    .cons executionPayload <|
    .cons (.list signedBlsToExecutionChange MAX_BLS_TO_EXECUTION_CHANGES) <|
    .cons (.list blobKzgCommitments MAX_BLOB_COMMITMENTS_PER_BLOCK) .nil)

/-- `beacon_block_t` -/
structure BeaconBlock where
  slot : Object uint64
  proposerIndex : Object uint64
  parentRoot : Root
  stateRoot : Root
  body : Object beaconBlockBody

def beaconBlock := SszType.container true
  (.cons uint64 <| .cons uint64 <| .cons root <| .cons root <| .cons beaconBlockBody .nil)

def BeaconBlock.members (b : BeaconBlock) : Object beaconBlock :=
  (b.slot, b.proposerIndex, b.parentRoot, b.stateRoot, b.body, ())

/-- `message`, `signature` -/
def signedBeaconBlock := SszType.container true (.cons beaconBlock <| .cons signature .nil)

/-! ### The state -/

abbrev SLOTS_PER_HISTORICAL_ROOT : Nat := 8192

abbrev HISTORICAL_ROOTS_LIMIT : Nat := 2 ^ 24

abbrev SLOTS_PER_EPOCH : Nat := 32

abbrev EPOCHS_PER_ETH1_VOTING_PERIOD : Nat := 64

abbrev EPOCHS_PER_SLASHINGS_VECTOR : Nat := 8192

abbrev EPOCHS_PER_HISTORICAL_VECTOR : Nat := 2 ^ 16

abbrev JUSTIFICATION_BITS_LENGTH : Nat := 4

abbrev VALIDATOR_REGISTRY_LIMIT : Nat := 2 ^ 40

/-- `previous_version`, `current_version`, `epoch` -/
def fork := SszType.container false (.cons (byteArray 4) <| .cons (byteArray 4) <| .cons uint64 .nil)

/-- `pubkey`, `withdrawal_credentials`, `effective_balance`, `slashed`,
`activation_eligibility_epoch`, `activation_epoch`, `exit_epoch`, `withdrawable_epoch` -/
def validator := SszType.container false
  (.cons blsPubkey <| .cons root <| .cons uint64 <| .cons (.basic .boolean) <| .cons uint64 <|
    .cons uint64 <| .cons uint64 <| .cons uint64 .nil)

/-- `block_summary_root`, `state_summary_root` -/
def historicalSummary := SszType.container false (.cons root <| .cons root .nil)

/-- `beacon_state_t` -/
def beaconState := SszType.container true
  -- genesis_time, genesis_validators_root, slot, fork, latest_block_header
  (.cons uint64 <| .cons root <| .cons uint64 <| .cons fork <| .cons beaconBlockHeader <|
    -- block_roots, state_roots, historical_roots
    .cons (.array root SLOTS_PER_HISTORICAL_ROOT) <| .cons (.array root SLOTS_PER_HISTORICAL_ROOT) <|
    .cons (.list root HISTORICAL_ROOTS_LIMIT) <|
    -- eth1_data, eth1_data_votes, eth1_deposit_index
    .cons eth1Data <| .cons (.list eth1Data (EPOCHS_PER_ETH1_VOTING_PERIOD * SLOTS_PER_EPOCH)) <|
    .cons uint64 <|
    -- validators, balances, randao_mixes, slashings
    .cons (.list validator VALIDATOR_REGISTRY_LIMIT) <| .cons (.list uint64 VALIDATOR_REGISTRY_LIMIT) <|
    .cons (.array root EPOCHS_PER_HISTORICAL_VECTOR) <|
    .cons (.array uint64 EPOCHS_PER_SLASHINGS_VECTOR) <|
    -- previous_epoch_participation, current_epoch_participation, justification_bits
    .cons (.list (.basic .uint8) VALIDATOR_REGISTRY_LIMIT) <|
    .cons (.list (.basic .uint8) VALIDATOR_REGISTRY_LIMIT) <| .cons (.bitset JUSTIFICATION_BITS_LENGTH) <|
    -- previous_justified_checkpoint, current_justified_checkpoint, finalized_checkpoint
    .cons checkpoint <| .cons checkpoint <| .cons checkpoint <|
    -- inactivity_scores, current_sync_committee, next_sync_committee
    .cons (.list uint64 VALIDATOR_REGISTRY_LIMIT) <| .cons syncCommittee <| .cons syncCommittee <|
    -- latest_execution_payload_header, next_withdrawal_index, next_withdrawal_validator_index
    .cons executionPayloadHeader <| .cons uint64 <| .cons uint64 <|
    -- historical_summaries
    .cons (.list historicalSummary HISTORICAL_ROOTS_LIMIT) .nil)

/-- The containers of the library. -/
def containers : List (Σ α : Type, SszType α) :=
  [⟨_, checkpoint⟩, ⟨_, attestationData⟩, ⟨_, attestation⟩, ⟨_, indexedAttestation⟩,
    ⟨_, aggregateAndProof⟩, ⟨_, signedAggregateAndProof⟩, ⟨_, depositData⟩, ⟨_, depositMessage⟩,
    ⟨_, deposit⟩, ⟨_, voluntaryExit⟩, ⟨_, signedVoluntaryExit⟩, ⟨_, syncAggregate⟩, ⟨_, syncCommittee⟩,
    ⟨_, blsToExecutionChange⟩, ⟨_, signedBlsToExecutionChange⟩, ⟨_, withdrawal⟩, ⟨_, executionPayload⟩,
    ⟨_, executionPayloadHeader⟩, ⟨_, eth1Data⟩, ⟨_, beaconBlockHeader⟩, ⟨_, signedBeaconBlockHeader⟩,
    ⟨_, attesterSlashing⟩, ⟨_, proposerSlashing⟩, ⟨_, beaconBlockBody⟩, ⟨_, beaconBlock⟩,
    ⟨_, signedBeaconBlock⟩, ⟨_, fork⟩, ⟨_, validator⟩, ⟨_, historicalSummary⟩, ⟨_, beaconState⟩]

end Sszpp.Beacon
