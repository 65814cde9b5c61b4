import Sszpp.Proofs.RoundTripBitlists

/-!
# Inputs with a gap

No decoder of a container compares its first offset with the length of the fixed part. Bytes between
the two are read by nobody, so every object has as many inputs as there are gaps.
-/

namespace Sszpp

open Library

variable {α : Type}

/-- The encoding with bytes after the fixed part, and offsets that skip them. -/
def Members.withGap (ms : Members α) (v : α) (gap : Bytes) : Bytes :=
  heads (fixedLength (ms.parts v) + gap.length) (ms.parts v) ++ gap ++ tails (ms.parts v)

lemma Members.length_withGap (ms : Members α) (v : α) (gap : Bytes) :
    (ms.withGap v gap).length = (assemble (ms.parts v)).length + gap.length := by
  rw [withGap, List.length_append, List.length_append, length_heads, length_assemble]
  omega

lemma Members.withGap_nil (ms : Members α) (v : α) : ms.withGap v [] = assemble (ms.parts v) := by
  rw [withGap, List.append_nil]
  rfl

/-- The length of the input gives that of the gap, and so the offsets. -/
lemma Members.withGap_injective (ms : Members α) (v : α) : Function.Injective (ms.withGap v) := by
  intro gap gap' h
  have hlen := congrArg List.length h
  rw [ms.length_withGap, ms.length_withGap] at hlen
  have hgap : gap.length = gap'.length := by omega
  rw [Members.withGap, Members.withGap, hgap] at h
  exact List.append_cancel_left (List.append_cancel_right h)

lemma Members.deserializeContainer_withGap {ms : Members α} (h : ms.Encodable) {v : α} (hfit : ms.Fits v)
    (hreq : ms.Requires v) {gap : Bytes} (hlen : (ms.withGap v gap).length < 2 ^ 32) (r : α) :
    ms.deserializeContainer (ms.withGap v gap) r = Outcome.require (ms.hasRoom v) tooLong v := by
  have hheads := length_heads (fixedLength (ms.parts v) + gap.length) (ms.parts v)
  have hpre : (heads (fixedLength (ms.parts v) + gap.length) (ms.parts v) ++ gap).length =
      fixedLength (ms.parts v) + gap.length := by rw [List.length_append, hheads]
  refine Members.deserializeContainer_require h hfit hreq r ?_ ?_
  · rwa [← List.length_append]
  · rw [hpre, List.take_left' hheads]

/-- Whatever is put behind the fixed part of an encoded container, the decoder returns the same object, or
throws when a bitlist in it has no room for its delimiter, as it does without a gap; and no two gaps give the
same input. -/
theorem deserialize_withGap {variableSize : Bool} {ms : Members α}
    (hτ : (SszType.container variableSize ms).Invertible) (v : α) (gap : Bytes)
    (hlen : ((SszType.container variableSize ms).encode v).length + gap.length < 2 ^ 32) :
    (∀ r, (SszType.container variableSize ms).deserialize (ms.withGap v gap) r =
        if ms.hasRoom v then .ok v
        else .error (.thrown (.outOfRange "byte slice larger than list limit"))) ∧
      (ms.withGap v gap).length = ((SszType.container variableSize ms).encode v).length + gap.length ∧
      (∀ gap', ms.withGap v gap' = ms.withGap v gap → gap' = gap) ∧
      (ms.withGap v gap = (SszType.container variableSize ms).encode v ↔ gap = []) := by
  have hfit := (SszType.container variableSize ms).fits_of_length v (by omega)
  have hlength : (ms.withGap v gap).length = ((SszType.container variableSize ms).encode v).length + gap.length :=
    ms.length_withGap v gap
  refine ⟨fun r => ?_, hlength, fun gap' h => ms.withGap_injective v h, fun h => ?_, ?_⟩
  · exact Members.deserializeContainer_withGap (Members.Invertible.encodable hτ.2.2) hfit.2
      (Members.requires ms hτ.2.2 v hfit.2) (by rwa [hlength]) r
  · exact ms.withGap_injective v (h.trans (ms.withGap_nil v).symm)
  · rintro rfl
    exact ms.withGap_nil v

/-- Three bytes between the two parts of an attestation-like container, and two bytes where its bitlist has no
room. -/
theorem deserialize_withGap_sample :
    (∀ r, (SszType.container true (.cons (.bitlist 16) (.cons (.basic .uint8) .nil))).deserialize
        [8, 0, 0, 0, 5, 0xaa, 0xbb, 0xcc, 0x03] r = .ok ([true], 5, ())) ∧
      (SszType.container true (.cons (.bitlist 16) (.cons (.basic .uint8) .nil))).encode ([true], 5, ()) =
        [5, 0, 0, 0, 5, 0x03] ∧
      (∀ r, (SszType.container true (.cons (.bitlist 8) (.cons (.basic .uint8) .nil))).deserialize
        [7, 0, 0, 0, 5, 0xaa, 0xbb, 0xff, 0x01] r =
          .error (.thrown (.outOfRange "byte slice larger than list limit"))) := by
  have hinvertible : ∀ n, (SszType.container true (.cons (.bitlist n) (.cons (.basic .uint8) .nil))).Invertible :=
    fun _ => ⟨le_refl 2, rfl, trivial, trivial, trivial⟩
  have hroom := deserialize_withGap (hinvertible 16) ([true], 5, ()) [0xaa, 0xbb, 0xcc] (by decide)
  have hfull := deserialize_withGap (hinvertible 8) (List.replicate 8 true, 5, ()) [0xaa, 0xbb] (by decide)
  exact ⟨hroom.1, rfl, hfull.1⟩

end Sszpp
