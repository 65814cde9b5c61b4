import Sszpp.Proofs.Header
import Sszpp.Proofs.MaxLength
import Sszpp.Proofs.RoundTripBitlists
import Sszpp.Proofs.Target

/-!
# What holds of every container of the library

The results about types at the containers of the beacon chain, where their conditions can be evaluated.
-/

namespace Sszpp

open Library

mutual

/-- The elements of lists take up bytes, and bitsets have bits. -/
def SszType.positive {α : Type} : SszType α → Bool
  | .basic _ => true
  | .array e _ => e.positive
  | .vector _ => true
  | .list e _ => (e.isVariableSize || decide (0 < e.width)) && e.positive
  | .bitlist _ => true
  | .bitset n => decide (0 < n)
  | .container _ ms => ms.positive

def Members.positive {α : Type} : Members α → Bool
  | .nil => true
  | .cons m ms => m.positive && ms.positive

end

mutual

/-- What a type with an encoder needs for a decoder that inverts it. -/
theorem SszType.Encodable.invertible : {α : Type} → {τ : SszType α} → τ.Encodable → τ.positive = true →
    τ.Invertible
  | _, .basic _, _, _ => trivial
  | _, .array _ _, h, hpositive => ⟨h.1, h.2.1, h.2.2.1, SszType.Encodable.invertible h.2.2.2 hpositive⟩
  | _, .vector _, h, _ => h.elim
  | _, .list e _, h, hpositive => by
    rw [SszType.positive, Bool.and_eq_true, Bool.or_eq_true, decide_eq_true_eq] at hpositive
    refine ⟨h.1, h.2.1, h.2.2.1, SszType.Encodable.invertible h.2.2.2 hpositive.2, fun hfix => ?_⟩
    exact hpositive.1.resolve_left fun hvar => Bool.false_ne_true (hfix.symm.trans hvar)
  | _, .bitlist _, _, _ => trivial
  | _, .bitset _, _, hpositive => by
    rw [SszType.positive, decide_eq_true_eq] at hpositive
    exact hpositive
  | _, .container _ _, h, hpositive => ⟨h.1, h.2.1, Members.Encodable.invertible h.2.2 hpositive⟩

theorem Members.Encodable.invertible : {α : Type} → {ms : Members α} → ms.Encodable → ms.positive = true →
    ms.Invertible
  | _, .nil, _, _ => trivial
  | _, .cons _ _, h, hpositive => by
    rw [Members.positive, Bool.and_eq_true] at hpositive
    exact ⟨SszType.Encodable.invertible h.1 hpositive.1, Members.Encodable.invertible h.2 hpositive.2⟩

end

namespace Beacon

/-- The decoder of every container of the library inverts its encoder, its bitlists aside. -/
lemma invertible_containers : ∀ τ ∈ containers, τ.2.Invertible := by
  have hall : containers.all (fun τ => τ.2.positive) = true := by decide +kernel
  exact fun τ h => (encodable_containers τ h).invertible (List.all_eq_true.mp hall τ h)

/-! ### Lengths -/

/-- The containers with objects of `2 ^ 32` bytes or more. -/
def longContainers : List (Σ α : Type, SszType α) :=
  [⟨_, executionPayload⟩, ⟨_, beaconBlockBody⟩, ⟨_, beaconBlock⟩, ⟨_, signedBeaconBlock⟩, ⟨_, beaconState⟩]

lemma filter_maxLength :
    containers.filter (fun τ => decide (2 ^ 32 ≤ τ.2.maxLength)) = longContainers := rfl

lemma isContainer_containers : ∀ τ ∈ containers, τ.2.isContainer = true := by
  have hall : containers.all (fun τ => τ.2.isContainer) = true := by decide +kernel
  exact List.all_eq_true.mp hall

/-- Of the containers of the library exactly five have objects within their limits whose lengths wrap. -/
theorem noSilentWrap_containers {τ : Σ α : Type, SszType α} (h : τ ∈ containers) :
    (∀ v, τ.2.WithinLimits v → NoSilentWrap τ.2 v) ↔ τ ∉ longContainers := by
  rw [SszType.noSilentWrap_all_iff (encodable_containers τ h) (isContainer_containers τ h), ← filter_maxLength,
    List.mem_filter, decide_eq_true_eq, not_and, not_le]
  exact ⟨fun hlt _ => hlt, fun hlt => hlt h⟩

theorem noSilentWrap_containers_sample :
    (∀ v, checkpoint.WithinLimits v → NoSilentWrap checkpoint v) ↔ ⟨_, checkpoint⟩ ∉ longContainers :=
  noSilentWrap_containers List.mem_cons_self

/-! ### Targets -/

lemma dense_containers : ∀ τ ∈ containers, τ.2.dense = true := by
  have hall : containers.all (fun τ => τ.2.dense) = true := by decide +kernel
  exact List.all_eq_true.mp hall

lemma refreshes_containers : ∀ τ ∈ containers, τ.2.refreshes = true := by
  have hall : containers.all (fun τ => τ.2.refreshes) = true := by decide +kernel
  exact List.all_eq_true.mp hall

end Beacon

end Sszpp
