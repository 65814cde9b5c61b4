import Sszpp.Proofs.Decoded

/-!
# The limits of decoded lists

The decoders of `ssz::list` pass their bytes on to those of `std::vector`, which know no limit;
only the one for bitlists compares it. A decoded object is within its limits exactly when the
bytes of each of its lists hold no more elements than the limit.
-/

namespace Sszpp

open Library

variable {α : Type}

mutual

/-- The bytes of every list other than a bitlist hold at most as many elements as its type allows:
by the width of the elements, or by the first offset where they are of variable size. -/
def SszType.SlicesWithin {α : Type} : SszType α → Bytes → Prop
  | .basic _, _ => True
  | .array _ _, _ => True
  | .vector e, bytes =>
    if e.isVariableSize then ∀ p ∈ rangesAt bytes (elementWords bytes), e.SlicesWithin p else True
  | .list e limit, bytes =>
    if e.isVariableSize then
      (elementWords bytes).length ≤ limit ∧ ∀ p ∈ rangesAt bytes (elementWords bytes), e.SlicesWithin p
    else bytes.length / e.width ≤ limit
  | .bitlist _, _ => True
  | .bitset _, _ => True
  | .container _ ms, bytes => ms.SlicesWithin (rangesAt bytes (ms.offsetWords bytes))

/-- The same of the ranges of the members of variable size. -/
def Members.SlicesWithin {α : Type} : Members α → List Bytes → Prop
  | .nil, _ => True
  | .cons m ms, ranges =>
    if m.isVariableSize then
      match ranges with
      | p :: ps => m.SlicesWithin p ∧ ms.SlicesWithin ps
      | [] => True
    else ms.SlicesWithin ranges

end

mutual

/-- A type of fixed size contains no list. -/
theorem SszType.withinLimits_of_fixed : {α : Type} → (τ : SszType α) → τ.isVariableSize = false →
    (v : α) → τ.WithinLimits v
  | _, .basic _, _, _ => trivial
  | _, .array e _, h, _ => fun x _ => e.withinLimits_of_fixed h x
  | _, .vector e, h, _ => fun x _ => e.withinLimits_of_fixed h x
  | _, .list _ _, h, _ => by cases h
  | _, .bitlist _, h, _ => by cases h
  | _, .bitset _, _, _ => trivial
  | _, .container _ ms, h, v => ms.withinLimits_of_fixed h v

theorem Members.withinLimits_of_fixed : {α : Type} → (ms : Members α) →
    ms.hasVariableSize = false → (v : α) → ms.WithinLimits v
  | _, .nil, _, _ => trivial
  | _, .cons m ms, h, (v, vs) => by
    rw [Members.hasVariableSize, Bool.or_eq_false_iff] at h
    exact ⟨m.withinLimits_of_fixed h.1 v, ms.withinLimits_of_fixed h.2 vs⟩

end

mutual

/-- The value initialised object has empty lists. -/
theorem SszType.withinLimits_vac : {α : Type} → (τ : SszType α) → τ.WithinLimits τ.vac
  | _, .basic _ => trivial
  | _, .array e n => fun x hx => by
    obtain rfl := List.eq_of_mem_replicate hx
    exact e.withinLimits_vac
  | _, .vector _ => fun _ hx => by cases hx
  | _, .list _ limit => ⟨Nat.zero_le limit, fun _ hx => by cases hx⟩
  | _, .bitlist limit => Nat.zero_le limit
  | _, .bitset _ => trivial
  | _, .container _ ms => ms.withinLimits_vac

theorem Members.withinLimits_vac : {α : Type} → (ms : Members α) → ms.WithinLimits ms.vac
  | _, .nil => trivial
  | _, .cons m ms => ⟨m.withinLimits_vac, ms.withinLimits_vac⟩

end

lemma length_of_deserializeVectorBool {bytes : Bytes} {r v : List Bool}
    (h : deserializeVectorBool bytes r = .ok v) : v.length ≤ bytes.length * 8 := by
  rw [deserializeVectorBool_eq] at h
  split at h
  · cases h
  · rename_i last hlast
    cases h
    have hpos : 0 < bytes.length := by
      rcases bytes with - | ⟨b, bs⟩
      · cases hlast
      · simp
    rw [List.length_append, length_flatMap_const _ _ fun b _ => by rw [List.length_map, List.length_range],
      List.length_map, List.length_range, List.length_dropLast]
    omega

lemma length_of_deserializeBitlist {limit : Nat} {bytes : Bytes} {r v : List Bool}
    (h : deserializeBitlist limit bytes r = .ok v) : v.length ≤ limit := by
  unfold deserializeBitlist at h
  split at h
  · cases h
  · have hle := length_of_deserializeVectorBool h
    omega

lemma forall₂_iff_of_forall {β : Type} {R : β → α → Prop} {P : α → Prop} {Q : β → Prop}
    {bs : List β} {as : List α} (h : List.Forall₂ R bs as) (hR : ∀ b a, R b a → (P a ↔ Q b)) :
    (∀ a ∈ as, P a) ↔ ∀ b ∈ bs, Q b := by
  induction h with
  | nil => simp
  | cons hba _ ih => simp only [List.forall_mem_cons, hR _ _ hba, ih]

/-- A condition on the length of a decoded list and on its elements, as one on the bytes. -/
lemma SszType.deserialize_list_iff {e : SszType α} {limit : Nat} (hwf : e.WellFormed) {bytes : Bytes}
    {r vs : List α} (h : (SszType.list e limit).deserialize bytes r = .ok vs) (C : Nat → Prop)
    {P : α → Prop} {Q : Bytes → Prop} (hfixed : e.isVariableSize = false → ∀ x, P x)
    (helem : ∀ p x, e.deserialize p e.vac = .ok x → (P x ↔ Q p)) :
    (C vs.length ∧ ∀ x ∈ vs, P x) ↔
      if e.isVariableSize then
        C (elementWords bytes).length ∧ ∀ p ∈ rangesAt bytes (elementWords bytes), Q p
      else C (bytes.length / e.width) := by
  cases hvar : e.isVariableSize with
  | true =>
    rw [if_pos rfl]
    rcases SszType.deserialize_list_of_variable hwf hvar h with ⟨rfl, rfl⟩ | ⟨-, -, -, hall⟩
    · simp [elementWords, leNat, words, rangesAt]
    · have hlen : vs.length = (elementWords bytes).length := by
        rw [← hall.length_eq, length_rangesAt]
      rw [hlen, forall₂_iff_of_forall hall helem]
  | false =>
    rw [if_neg Bool.false_ne_true]
    obtain ⟨hk, hlen⟩ := SszType.deserialize_list_of_fixed hwf hvar h
    rw [hlen, Nat.mul_div_cancel _ hk]
    exact and_iff_left fun x _ => hfixed hvar x

mutual

theorem SszType.withinLimits_iff : {α : Type} → (τ : SszType α) → τ.WellFormed → (bytes : Bytes) →
    (r v : α) → τ.deserialize bytes r = .ok v → (τ.WithinLimits v ↔ τ.SlicesWithin bytes)
  | _, .basic _, _, _, _, _, _ => Iff.rfl
  | _, .array e _, hwf, _, _, v, _ => by
    have hall : (SszType.array e _).WithinLimits v := fun x _ => e.withinLimits_of_fixed hwf.1 x
    exact ⟨fun _ => trivial, fun _ => hall⟩
  | _, .vector _, hwf, _, _, _, _ => hwf.elim
  | _, .list e limit, hwf, _, _, _, h =>
    SszType.deserialize_list_iff (e := e) hwf h (· ≤ limit) (fun hfix x => e.withinLimits_of_fixed hfix x)
      fun p x hx => e.withinLimits_iff hwf p e.vac x hx
  | _, .bitlist limit, _, bytes, _, v, h => by
    have hlen : v.length ≤ limit := length_of_deserializeBitlist h
    exact ⟨fun _ => trivial, fun _ => hlen⟩
  | _, .bitset _, _, _, _, _, _ => Iff.rfl
  | _, .container _ ms, hwf, bytes, r, v, h =>
    ms.withinLimits_iff hwf.2 bytes _ v (Members.deserializeContainer_eq_ok hwf.2 h).2

theorem Members.withinLimits_iff : {α : Type} → (ms : Members α) → ms.WellFormed →
    (shifted : Bytes) → (ranges : List Bytes) → (v : α) → ms.Decoded shifted ranges v →
    (ms.WithinLimits v ↔ ms.SlicesWithin ranges)
  | _, .nil, _, _, _, _, _ => Iff.rfl
  | _, .cons m ms, hwf, shifted, ranges, (v, vs), h => by
    simp only [Members.WithinLimits, Members.SlicesWithin, Members.Decoded] at h ⊢
    cases hvar : m.isVariableSize with
    | true =>
      simp only [hvar, if_true] at h ⊢
      obtain ⟨-, p, ps, old, rfl, hp, hps⟩ := h
      rw [m.withinLimits_iff hwf.1 p old v hp, ms.withinLimits_iff hwf.2 _ ps vs hps]
    | false =>
      simp only [hvar, Bool.false_eq_true, if_false] at h ⊢
      rw [ms.withinLimits_iff hwf.2 _ ranges vs h.2]
      exact ⟨fun h => h.2, fun h => ⟨m.withinLimits_of_fixed hvar v, h⟩⟩

end

end Sszpp
