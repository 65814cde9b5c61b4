import Sszpp.Proofs.DecodedSize
import Sszpp.Proofs.EncodeInjective

/-!
# Normal forms of inputs

A decoder accepts more than encodings. What it returns has an encoding all the same, which it accepts too:
to decode and to serialize brings every accepted input to one normal form for each object.
-/

namespace Sszpp

open Library

variable {α : Type}

lemma all_hasRoom_of_forall₂ {e : SszType α} {ps : List Bytes} {vs : List α}
    (hall : List.Forall₂ (fun p v => e.deserialize p e.vac = .ok v) ps vs)
    (hroom : ∀ p v, e.deserialize p e.vac = .ok v → e.hasRoom v = true) : vs.all e.hasRoom = true := by
  induction hall with
  | nil => rfl
  | cons hv _ ih => rw [List.all_cons, hroom _ _ hv, ih, Bool.and_true]

mutual

/-- The bytes of a bitlist hold its delimiter, so that a decoded bitlist has room for one. -/
theorem SszType.hasRoom_of_deserialize : {α : Type} → (τ : SszType α) → τ.WellFormed → (bytes : Bytes) →
    (r v : α) → τ.deserialize bytes r = .ok v → τ.hasRoom v = true
  | _, .basic _, _, _, _, _, _ => rfl
  | _, .array e n, hwf, _, _, v, _ => (SszType.array e n).hasRoom_of_fixed hwf.1 v
  | _, .vector _, hwf, _, _, _, _ => hwf.elim
  | _, .list e limit, hwf, bytes, r, v, h => by
    have he : e.WellFormed := hwf
    cases hvar : e.isVariableSize with
    | true =>
      rcases SszType.deserialize_list_of_variable he hvar h with ⟨-, rfl⟩ | ⟨-, -, -, hall⟩
      · rfl
      · exact all_hasRoom_of_forall₂ hall fun p x => SszType.hasRoom_of_deserialize e he p e.vac x
    | false => exact List.all_eq_true.mpr fun x _ => e.hasRoom_of_fixed hvar x
  | _, .bitlist limit, _, bytes, r, v, h => by
    change deserializeBitlist limit bytes r = .ok v at h
    unfold deserializeBitlist at h
    split at h
    · cases h
    · have hlen := length_bits_lt h
      exact decide_eq_true (by omega)
  | _, .bitset _, _, _, _, _, _ => rfl
  | _, .container _ ms, hwf, bytes, _, v, h =>
    Members.hasRoom_of_decoded ms hwf.2 bytes _ v (ms.deserializeContainer_eq_ok hwf.2 h).2

theorem Members.hasRoom_of_decoded : {α : Type} → (ms : Members α) → ms.WellFormed → (shifted : Bytes) →
    (ranges : List Bytes) → (v : α) → ms.Decoded shifted ranges v → ms.hasRoom v = true
  | _, .nil, _, _, _, _, _ => rfl
  | _, .cons m ms, hwf, shifted, ranges, (v, vs), h => by
    unfold Members.Decoded at h
    rw [Members.hasRoom, Bool.and_eq_true]
    cases hvar : m.isVariableSize with
    | true =>
      rw [hvar, if_pos rfl] at h
      obtain ⟨-, p, ps, old, rfl, hm, hms⟩ := h
      exact ⟨SszType.hasRoom_of_deserialize m hwf.1 p old v hm, Members.hasRoom_of_decoded ms hwf.2 _ ps vs hms⟩
    | false =>
      rw [hvar, if_neg Bool.false_ne_true] at h
      exact ⟨m.hasRoom_of_fixed hvar v, Members.hasRoom_of_decoded ms hwf.2 _ ranges vs h.2⟩

end

end Sszpp
