import Mathlib.Algebra.Group.Action.Defs
import Sszpp.Proofs.Limits
import Sszpp.Proofs.Sizes

/-!
# How large a decoded object can be

The decoders enforce no limit on the number of elements of a list, and what a container reads as its
variable-size members may overlap its fixed part. Yet the ranges of one offset table never overlap one
another: the size of a decoded object is linear in the length of the input, with a factor and an offset
that depend on the type alone.
-/

namespace Sszpp

open Library

variable {α : Type}

mutual

/-- The part of the size that does not depend on the input. -/
def SszType.overhead {α : Type} : SszType α → Nat
  | .basic b => b.sizeof
  | .array e n => n * e.fixedSize
  | .vector _ => 0
  | .list _ _ => 0
  | .bitlist _ => 0
  | .bitset n => (n + 7) / 8
  | .container _ ms => ms.overhead

def Members.overhead {α : Type} : Members α → Nat
  | .nil => 0
  | .cons m ms => entryLength m.isVariableSize m.overhead + ms.overhead

end

mutual

/-- The number of bytes of the object for a byte of the input: an offset of 4 bytes may stand for an
element that is all overhead. -/
def SszType.growth {α : Type} : SszType α → Nat
  | .basic _ => 0
  | .array _ _ => 0
  | .vector _ => 0
  | .list e _ =>
    if e.isVariableSize then e.growth + (e.overhead + 3) / 4 + 1
    else if e.fixedSize < 2 ^ 32 then 1 else e.fixedSize
  | .bitlist _ => 1
  | .bitset _ => 0
  | .container _ ms => ms.growth

def Members.growth {α : Type} : Members α → Nat
  | .nil => 0
  | .cons m ms => max m.growth ms.growth

end

/-! ### Ranges of an offset table -/

/-- The ranges of an ordered table are disjoint pieces of the input. -/
lemma sum_rangesAt_le {bytes : Bytes} {table : List Nat} (h : OrderedTable bytes.length table) :
    ((rangesAt bytes table).map List.length).sum ≤ bytes.length := by
  match table with
  | [] => exact Nat.zero_le _
  | [o] => simp [rangesAt]
  | o :: o' :: os =>
    have ho : o ≤ bytes.length := h.1.trans h.2.1
    rw [← List.length_flatten, (rangesAt_partition ho h).1, List.length_drop]
    exact Nat.sub_le _ _

/-- A bound on each element, summed up. -/
lemma sum_le_of_forall₂ {f : α → Nat} {g : Bytes → Nat} {ps : List Bytes} {vs : List α}
    (h : List.Forall₂ (fun p v => f v ≤ g p) ps vs) : (vs.map f).sum ≤ (ps.map g).sum := by
  induction h with
  | nil => exact le_rfl
  | cons hpv _ ih => exact Nat.add_le_add hpv ih

lemma sum_map_linear (k c : Nat) (ps : List Bytes) :
    (ps.map fun p => k * p.length + c).sum = k * (ps.map List.length).sum + c * ps.length := by
  induction ps with
  | nil => rfl
  | cons p ps ih =>
    simp only [List.map_cons, List.sum_cons, ih, List.length_cons]
    ring

/-! ### The decoders -/

mutual

theorem SszType.WellFormed.sound : {α : Type} → {τ : SszType α} → τ.WellFormed → τ.Sound
  | _, .basic _, _ => trivial
  | _, .array _ _, h => ⟨h.2.variableSize_eq, SszType.WellFormed.sound h.2⟩
  | _, .vector _, h => h.elim
  | _, .list e _, h => ⟨SszType.WellFormed.variableSize_eq (τ := e) h, SszType.WellFormed.sound (τ := e) h⟩
  | _, .bitlist _, _ => trivial
  | _, .bitset _, _ => trivial
  | _, .container _ _, h => Members.WellFormed.sound h.2

theorem Members.WellFormed.sound : {α : Type} → {ms : Members α} → ms.WellFormed → ms.Sound
  | _, .nil, _ => trivial
  | _, .cons _ _, h => ⟨h.1.variableSize_eq, SszType.WellFormed.sound h.1, Members.WellFormed.sound h.2⟩

end

lemma SszType.layoutLength_of_fixed {τ : SszType α} (hwf : τ.WellFormed) (hfix : τ.isVariableSize = false)
    (v : α) : τ.layoutLength v = τ.fixedSize := by
  rw [hwf.sound.layoutLength_eq, hwf.sound.length_encode hfix]

mutual

theorem SszType.overhead_of_fixed : {α : Type} → (τ : SszType α) → τ.isVariableSize = false →
    τ.overhead = τ.fixedSize
  | _, .basic _, _ => rfl
  | _, .array _ _, _ => rfl
  | _, .vector _, _ => rfl
  | _, .list _ _, hfix => by cases hfix
  | _, .bitlist _, hfix => by cases hfix
  | _, .bitset _, _ => rfl
  | _, .container _ ms, hfix => ms.overhead_of_fixed hfix

theorem Members.overhead_of_fixed : {α : Type} → (ms : Members α) → ms.hasVariableSize = false →
    ms.overhead = ms.fixedSize
  | _, .nil, _ => rfl
  | _, .cons m ms, hfix => by
    rw [Members.hasVariableSize, Bool.or_eq_false_iff] at hfix
    rw [Members.overhead, Members.fixedSize, entryLength, hfix.1, if_neg Bool.false_ne_true,
      m.overhead_of_fixed hfix.1, ms.overhead_of_fixed hfix.2]

end

/-- A list of elements of fixed size. -/
lemma SszType.layoutLength_list_of_fixed {e : SszType α} {limit : Nat} (hwf : e.WellFormed)
    (hfix : e.isVariableSize = false) {bytes : Bytes} {r vs : List α}
    (h : (SszType.list e limit).deserialize bytes r = .ok vs) :
    (SszType.list e limit).layoutLength vs ≤ (SszType.list e limit).growth * bytes.length := by
  obtain ⟨hpos, hlen⟩ := SszType.deserialize_list_of_fixed hwf hfix h
  have hsum : (SszType.list e limit).layoutLength vs = vs.length * e.fixedSize := by
    change e.elementsLength vs = _
    rw [SszType.elementsLength_of_fixed (hwf.variableSize_eq.trans hfix),
      List.map_congr_left fun x _ => SszType.layoutLength_of_fixed hwf hfix x, List.map_const', List.sum_replicate,
      smul_eq_mul]
  simp only [SszType.growth, hfix, Bool.false_eq_true, if_false]
  split
  · rename_i hlt
    have hwidth := e.width_eq_fixedSize hwf hfix hlt
    rw [hsum, hlen, hwidth, Nat.one_mul]
  · calc (SszType.list e limit).layoutLength vs = e.fixedSize * vs.length := by rw [hsum, Nat.mul_comm]
      _ ≤ e.fixedSize * bytes.length := by
        apply Nat.mul_le_mul_left
        rw [hlen]
        exact Nat.le_mul_of_pos_right _ hpos

/-- A list of elements of variable size: one offset of the table for each element. -/
lemma SszType.layoutLength_list_of_variable {e : SszType α} {limit : Nat} (hwf : e.WellFormed)
    (hvar : e.isVariableSize = true) {bytes : Bytes} {r vs : List α}
    (he : ∀ p r x, e.deserialize p r = .ok x → e.layoutLength x ≤ e.growth * p.length + e.overhead)
    (h : (SszType.list e limit).deserialize bytes r = .ok vs) :
    (SszType.list e limit).layoutLength vs ≤ (SszType.list e limit).growth * bytes.length := by
  rcases SszType.deserialize_list_of_variable hwf hvar h with ⟨-, rfl⟩ | ⟨-, hwords, hordered, hall⟩
  · exact Nat.zero_le _
  · have hranges := sum_rangesAt_le hordered
    have hcount : (rangesAt bytes (elementWords bytes)).length = (elementWords bytes).length :=
      length_rangesAt bytes (elementWords bytes)
    have hvs : vs.length = (elementWords bytes).length := hall.length_eq.symm.trans hcount
    have hsum := sum_le_of_forall₂ (hall.imp fun p x hx => he p e.vac x hx)
    rw [sum_map_linear, hcount] at hsum
    change e.elementsLength vs ≤ _
    rw [SszType.elementsLength_of_variable (hwf.variableSize_eq.trans hvar), hvs]
    simp only [SszType.growth, hvar, if_true]
    have hoverhead : e.overhead ≤ 4 * ((e.overhead + 3) / 4) := by omega
    generalize (e.overhead + 3) / 4 = c at hoverhead ⊢
    generalize (elementWords bytes).length = n at hwords hsum ⊢
    generalize ((rangesAt bytes (elementWords bytes)).map List.length).sum = s at hranges hsum
    calc n * 4 + (vs.map e.layoutLength).sum ≤ n * 4 + (e.growth * s + e.overhead * n) :=
        Nat.add_le_add_left hsum _
      _ ≤ n * 4 + (e.growth * bytes.length + 4 * c * n) :=
        Nat.add_le_add_left (Nat.add_le_add (Nat.mul_le_mul_left _ hranges) (Nat.mul_le_mul_right _ hoverhead)) _
      _ = e.growth * bytes.length + (c + 1) * (4 * n) := by ring
      _ ≤ e.growth * bytes.length + (c + 1) * bytes.length :=
        Nat.add_le_add_left (Nat.mul_le_mul_left _ hwords) _
      _ = (e.growth + c + 1) * bytes.length := by ring

/-- The last byte of a bitlist holds its delimiter, or nothing. -/
lemma length_bits_lt {bytes : Bytes} {r v : List Bool} (h : deserializeVectorBool bytes r = .ok v) :
    v.length / 8 + 1 ≤ bytes.length := by
  rw [deserializeVectorBool_eq] at h
  split at h
  · cases h
  · rename_i last hlast
    cases h
    have hpos : 0 < bytes.length := by
      rcases bytes with - | ⟨b, bs⟩
      · cases hlast
      · exact Nat.succ_pos _
    rw [List.length_append, length_flatMap_const _ _ fun b _ => by rw [List.length_map, List.length_range],
      List.length_map, List.length_range, List.length_dropLast]
    omega

mutual

/-- The decoder of a type returns no object that is larger than its input and the type account for. -/
theorem SszType.decoded_length : {α : Type} → (τ : SszType α) → τ.WellFormed → (bytes : Bytes) → (r v : α) →
    τ.deserialize bytes r = .ok v → τ.layoutLength v ≤ τ.growth * bytes.length + τ.overhead
  | _, .basic _, _, _, _, _, _ => Nat.le_add_left _ _
  | _, .array e n, hwf, bytes, _, v, _ => by
    rw [SszType.layoutLength_of_fixed hwf hwf.1 v]
    exact Nat.le_add_left _ _
  | _, .vector _, hwf, _, _, _, _ => hwf.elim
  | _, .list e limit, hwf, bytes, r, v, h => by
    have he : e.WellFormed := hwf
    cases hvar : e.isVariableSize with
    | true =>
      exact SszType.layoutLength_list_of_variable he hvar
        (fun p s x => SszType.decoded_length e he p s x) h
    | false => exact SszType.layoutLength_list_of_fixed he hvar h
  | _, .bitlist limit, _, bytes, r, v, h => by
    change deserializeBitlist limit bytes r = .ok v at h
    unfold deserializeBitlist at h
    split at h
    · cases h
    · have hlen := length_bits_lt h
      rw [SszType.layoutLength, SszType.growth, SszType.overhead, Nat.one_mul]
      exact hlen
  | _, .bitset _, _, _, _, _, _ => Nat.le_add_left _ _
  | _, .container _ ms, hwf, bytes, r, v, h => by
    obtain ⟨hordered, hdecoded⟩ := ms.deserializeContainer_eq_ok hwf.2 h
    calc ms.layoutLength v
        ≤ ms.growth * ((rangesAt bytes (ms.offsetWords bytes)).map List.length).sum + ms.overhead :=
          Members.decoded_length ms hwf.2 bytes _ v hdecoded
      _ ≤ ms.growth * bytes.length + ms.overhead :=
          Nat.add_le_add_right (Nat.mul_le_mul_left _ (sum_rangesAt_le hordered)) _

theorem Members.decoded_length : {α : Type} → (ms : Members α) → ms.WellFormed → (shifted : Bytes) →
    (ranges : List Bytes) → (v : α) → ms.Decoded shifted ranges v →
    ms.layoutLength v ≤ ms.growth * (ranges.map List.length).sum + ms.overhead
  | _, .nil, _, _, _, _, _ => Nat.zero_le _
  | _, .cons m ms, hwf, shifted, ranges, (v, vs), h => by
    simp only [Members.Decoded] at h
    simp only [Members.layoutLength, Members.growth, Members.overhead, hwf.1.variableSize_eq]
    cases hvar : m.isVariableSize with
    | true =>
      rw [hvar, if_pos rfl] at h
      obtain ⟨-, p, ps, old, rfl, hm, hms⟩ := h
      have hlen := SszType.decoded_length m hwf.1 p old v hm
      have hlens := Members.decoded_length ms hwf.2 _ ps vs hms
      have hgrow : m.growth * p.length ≤ max m.growth ms.growth * p.length :=
        Nat.mul_le_mul_right _ (le_max_left _ _)
      have hgrows : ms.growth * (ps.map List.length).sum ≤ max m.growth ms.growth * (ps.map List.length).sum :=
        Nat.mul_le_mul_right _ (le_max_right _ _)
      rw [List.map_cons, List.sum_cons, Nat.mul_add]
      simp only [entryLength, if_true]
      omega
    | false =>
      rw [hvar, if_neg Bool.false_ne_true] at h
      obtain ⟨-, hms⟩ := h
      have hlens := Members.decoded_length ms hwf.2 _ ranges vs hms
      have hgrows : ms.growth * (ranges.map List.length).sum ≤
          max m.growth ms.growth * (ranges.map List.length).sum := Nat.mul_le_mul_right _ (le_max_right _ _)
      rw [SszType.layoutLength_of_fixed hwf.1 hvar v, SszType.overhead_of_fixed m hvar]
      simp only [entryLength, Bool.false_eq_true, if_false]
      omega

end

end Sszpp
