import Sszpp.Model.Beacon
import Sszpp.Model.YamlConvert

/-!
# The YAML documents of the containers

The `YAML_CONT` lists of the containers, in the order in which they are read: the key of each member and
the converter of its type.
-/

namespace Sszpp.Beacon.Yaml

def uint64 := Schema.scalar .uint64

def root := Schema.byteArray 32

def blobKzgCommitments := Schema.byteArray 48

def signature := Schema.byteArray 96

def blsPubkey := Schema.byteArray 48

def executionAddress := Schema.byteArray 20

def transaction := Schema.byteList MAX_BYTES_PER_TRANSACTION

def checkpoint := Schema.container false
  (.cons "epoch" uint64 <| .single "root" root)

def attestationData := Schema.container false
  (.cons "slot" uint64 <| .cons "index" uint64 <| .cons "beacon_block_root" root <|
    .cons "source" checkpoint <| .single "target" checkpoint)

def attestation := Schema.container true
  (.cons "aggregation_bits" (.bitlist MAX_VALIDATORS_PER_COMMITEE) <|
    .cons "data" attestationData <| .single "signature" signature)

def indexedAttestation := Schema.container true
  (.cons "attesting_indices" (.list uint64 MAX_VALIDATORS_PER_COMMITEE) <|
    .cons "data" attestationData <| .single "signature" signature)

def aggregateAndProof := Schema.container true
  (.cons "aggregator_index" uint64 <| .cons "aggregate" attestation <|
    .single "selection_proof" signature)

def signedAggregateAndProof := Schema.container true
  (.cons "message" aggregateAndProof <| .single "signature" signature)

def depositData := Schema.container false
  (.cons "pubkey" blsPubkey <| .cons "withdrawal_credentials" root <| .cons "amount" uint64 <|
    .single "signature" signature)

def depositMessage := Schema.container false
  (.cons "pubkey" blsPubkey <| .cons "withdrawal_credentials" root <| .single "amount" uint64)

def deposit := Schema.container false
  (.cons "proof" (.array root (DEPOSIT_CONTRACT_TREE_DEPTH + 1)) <| .single "data" depositData)

def voluntaryExit := Schema.container false
  (.cons "epoch" uint64 <| .single "validator_index" uint64)

def signedVoluntaryExit := Schema.container false
  (.cons "message" voluntaryExit <| .single "signature" signature)

def syncAggregate := Schema.container false
  (.cons "sync_committee_bits" (.bitset SYNC_COMMITTEE_SIZE) <|
    .single "sync_committee_signature" signature)

def syncCommittee := Schema.container false
  (.cons "pubkeys" (.array blsPubkey SYNC_COMMITTEE_SIZE) <| .single "aggregate_pubkey" blsPubkey)

def blsToExecutionChange := Schema.container false
  (.cons "validator_index" uint64 <| .cons "from_bls_pubkey" blsPubkey <|
    .single "to_execution_address" executionAddress)

def signedBlsToExecutionChange := Schema.container false
  (.cons "message" blsToExecutionChange <| .single "signature" signature)

def withdrawal := Schema.container false
  (.cons "index" uint64 <| .cons "validator_index" uint64 <| .cons "address" executionAddress <|
    .single "amount" uint64)

def executionPayload := Schema.container true
  (.cons "parent_hash" root <| .cons "fee_recipient" executionAddress <| .cons "state_root" root <|
    .cons "receipts_root" root <| .cons "logs_bloom" (.byteArray BYTES_PER_LOGS_BLOOM) <|
    .cons "prev_randao" root <| .cons "block_number" uint64 <| .cons "gas_limit" uint64 <|
    .cons "gas_used" uint64 <| .cons "timestamp" uint64 <|
    .cons "extra_data" (.byteList MAX_EXTRA_DATA_BYTES) <| .cons "base_fee_per_gas" .uint256 <|
    .cons "block_hash" root <|
    .cons "transactions" (.list transaction MAX_TRANSACTIONS_PER_PAYLOAD) <|
    .cons "withdrawals" (.list withdrawal MAX_WITHDRAWALS_PER_PAYLOAD) <|
    .cons "blob_gas_used" uint64 <| .single "excess_blob_gas" uint64)

def executionPayloadHeader := Schema.container true
  (.cons "parent_hash" root <| .cons "fee_recipient" executionAddress <| .cons "state_root" root <|
    .cons "receipts_root" root <| .cons "logs_bloom" (.byteArray BYTES_PER_LOGS_BLOOM) <|
    .cons "prev_randao" root <| .cons "block_number" uint64 <| .cons "gas_limit" uint64 <|
    .cons "gas_used" uint64 <| .cons "timestamp" uint64 <|
    .cons "extra_data" (.byteList MAX_EXTRA_DATA_BYTES) <| .cons "base_fee_per_gas" .uint256 <|
    .cons "block_hash" root <| .cons "transactions_root" root <| .cons "withdrawals_root" root <|
    .cons "blob_gas_used" uint64 <| .single "excess_blob_gas" uint64)

def eth1Data := Schema.container false
  (.cons "deposit_root" root <| .cons "deposit_count" uint64 <| .single "block_hash" root)

def beaconBlockHeader := Schema.container false
  (.cons "slot" uint64 <| .cons "proposer_index" uint64 <| .cons "parent_root" root <|
    .cons "state_root" root <| .single "body_root" root)

def signedBeaconBlockHeader := Schema.container false
  (.cons "message" beaconBlockHeader <| .single "signature" signature)

def attesterSlashing := Schema.container true
  (.cons "attestation_1" indexedAttestation <| .single "attestation_2" indexedAttestation)

def proposerSlashing := Schema.container false
  (.cons "signed_header_1" signedBeaconBlockHeader <|
    .single "signed_header_2" signedBeaconBlockHeader)

def beaconBlockBody := Schema.container true
  (.cons "randao_reveal" signature <| .cons "eth1_data" eth1Data <| .cons "graffiti" root <|
    .cons "proposer_slashings" (.list proposerSlashing MAX_PROPOSER_SLASHINGS) <|
    .cons "attester_slashings" (.list attesterSlashing MAX_ATTESTER_SLASHINGS) <|
    .cons "attestations" (.list attestation MAX_ATTESTATIONS) <|
    .cons "deposits" (.list deposit MAX_DEPOSITS) <|
    .cons "voluntary_exits" (.list signedVoluntaryExit MAX_VOLUNTARY_EXITS) <|
    .cons "sync_aggregate" syncAggregate <| .cons "execution_payload" executionPayload <|
    .cons "bls_to_execution_changes" (.list signedBlsToExecutionChange MAX_BLS_TO_EXECUTION_CHANGES) <|
    .single "blob_kzg_commitments" (.list blobKzgCommitments MAX_BLOB_COMMITMENTS_PER_BLOCK))

def beaconBlock := Schema.container true
  (.cons "slot" uint64 <| .cons "proposer_index" uint64 <| .cons "parent_root" root <|
    .cons "state_root" root <| .single "body" beaconBlockBody)

def signedBeaconBlock := Schema.container true
  (.cons "message" beaconBlock <| .single "signature" signature)

def fork := Schema.container false
  (.cons "previous_version" (.byteArray 4) <| .cons "current_version" (.byteArray 4) <|
    .single "epoch" uint64)

def validator := Schema.container false
  (.cons "pubkey" blsPubkey <| .cons "withdrawal_credentials" root <|
    .cons "effective_balance" uint64 <| .cons "slashed" (.scalar .boolean) <|
    .cons "activation_eligibility_epoch" uint64 <| .cons "activation_epoch" uint64 <|
    .cons "exit_epoch" uint64 <| .single "withdrawable_epoch" uint64)

def historicalSummary := Schema.container false
  (.cons "block_summary_root" root <| .single "state_summary_root" root)

def beaconState := Schema.container true
  (.cons "genesis_time" uint64 <| .cons "genesis_validators_root" root <| .cons "slot" uint64 <|
    .cons "fork" fork <| .cons "latest_block_header" beaconBlockHeader <|
    .cons "block_roots" (.array root SLOTS_PER_HISTORICAL_ROOT) <|
    .cons "state_roots" (.array root SLOTS_PER_HISTORICAL_ROOT) <|
    .cons "historical_roots" (.list root HISTORICAL_ROOTS_LIMIT) <| .cons "eth1_data" eth1Data <|
    .cons "eth1_data_votes" (.list eth1Data (EPOCHS_PER_ETH1_VOTING_PERIOD * SLOTS_PER_EPOCH)) <|
    .cons "eth1_deposit_index" uint64 <|
    .cons "validators" (.list validator VALIDATOR_REGISTRY_LIMIT) <|
    .cons "balances" (.list uint64 VALIDATOR_REGISTRY_LIMIT) <|
    .cons "randao_mixes" (.array root EPOCHS_PER_HISTORICAL_VECTOR) <|
    .cons "slashings" (.array uint64 EPOCHS_PER_SLASHINGS_VECTOR) <|
    .cons "previous_epoch_participation" (.list (.scalar .uint8) VALIDATOR_REGISTRY_LIMIT) <|
    .cons "current_epoch_participation" (.list (.scalar .uint8) VALIDATOR_REGISTRY_LIMIT) <|
    .cons "justification_bits" (.bitset JUSTIFICATION_BITS_LENGTH) <|
    .cons "previous_justified_checkpoint" checkpoint <|
    .cons "current_justified_checkpoint" checkpoint <| .cons "finalized_checkpoint" checkpoint <|
    .cons "inactivity_scores" (.list uint64 VALIDATOR_REGISTRY_LIMIT) <|
    .cons "current_sync_committee" syncCommittee <| .cons "next_sync_committee" syncCommittee <|
    .cons "latest_execution_payload_header" executionPayloadHeader <|
    .cons "next_withdrawal_index" uint64 <| .cons "next_withdrawal_validator_index" uint64 <|
    .single "historical_summaries" (.list historicalSummary HISTORICAL_ROOTS_LIMIT))

/-- The containers with a `YAML_CONT` list, which are all of them. -/
def containers : List (Σ α : Type, Schema α) :=
  [⟨_, checkpoint⟩, ⟨_, attestationData⟩, ⟨_, attestation⟩, ⟨_, indexedAttestation⟩,
    ⟨_, aggregateAndProof⟩, ⟨_, signedAggregateAndProof⟩, ⟨_, depositData⟩, ⟨_, depositMessage⟩,
    ⟨_, deposit⟩, ⟨_, voluntaryExit⟩, ⟨_, signedVoluntaryExit⟩, ⟨_, syncAggregate⟩,
    ⟨_, syncCommittee⟩, ⟨_, blsToExecutionChange⟩, ⟨_, signedBlsToExecutionChange⟩, ⟨_, withdrawal⟩,
    ⟨_, executionPayload⟩, ⟨_, executionPayloadHeader⟩, ⟨_, eth1Data⟩, ⟨_, beaconBlockHeader⟩,
    ⟨_, signedBeaconBlockHeader⟩, ⟨_, attesterSlashing⟩, ⟨_, proposerSlashing⟩,
    ⟨_, beaconBlockBody⟩, ⟨_, beaconBlock⟩, ⟨_, signedBeaconBlock⟩, ⟨_, fork⟩, ⟨_, validator⟩,
    ⟨_, historicalSummary⟩, ⟨_, beaconState⟩]

/-- Each list names the members of the `SSZ_CONT` list, in its order. -/
theorem type_containers : containers.map (fun τ => (⟨τ.1, τ.2.type⟩ : Σ α : Type, SszType α)) = Beacon.containers :=
  rfl

end Sszpp.Beacon.Yaml
