import Sszpp.Proofs.DecoderWalk

/-!
# The decoder for lists of variable-size elements

The first offset of the input is taken for four times the number of elements, whatever it is, and
every later one for the end of an element, whose decoder then does the same with its slice. All of this
is inside the input exactly when the walk over the offsets and over the slices of the elements is, and then
no list at any depth has more elements than the input has words.
-/

namespace Sszpp

open Library Outcome

variable {α : Type}

mutual

/-- The lists and vectors of elements of variable size in an object, at every depth, have at most `k`
elements. -/
def SszType.VectorsWithin {α : Type} (k : Nat) : SszType α → α → Prop
  | .basic _, _ => True
  | .array e _, v => ∀ x ∈ v.1, e.VectorsWithin k x
  | .vector e, v => (e.variableSize = true → v.length ≤ k) ∧ ∀ x ∈ v, e.VectorsWithin k x
  | .list e _, v => (e.variableSize = true → v.length ≤ k) ∧ ∀ x ∈ v, e.VectorsWithin k x
  | .bitlist _, _ => True
  | .bitset _, _ => True
  | .container _ ms, v => ms.VectorsWithin k v

def Members.VectorsWithin {α : Type} (k : Nat) : Members α → α → Prop
  | .nil, _ => True
  | .cons m ms, (v, vs) => m.VectorsWithin k v ∧ ms.VectorsWithin k vs

end

mutual

/-- The value initialised object has no elements. -/
theorem SszType.vectorsWithin_vac {k : Nat} : {α : Type} → (τ : SszType α) → τ.VectorsWithin k τ.vac
  | _, .basic _ => trivial
  | _, .array e n => fun _ hx => List.eq_of_mem_replicate hx ▸ e.vectorsWithin_vac
  | _, .vector _ => ⟨fun _ => Nat.zero_le k, nofun⟩
  | _, .list _ _ => ⟨fun _ => Nat.zero_le k, nofun⟩
  | _, .bitlist _ => trivial
  | _, .bitset _ => trivial
  | _, .container _ ms => ms.vectorsWithin_vac

theorem Members.vectorsWithin_vac {k : Nat} : {α : Type} → (ms : Members α) → ms.VectorsWithin k ms.vac
  | _, .nil => trivial
  | _, .cons m ms => ⟨m.vectorsWithin_vac, ms.vectorsWithin_vac⟩

end

/-! ### What the decoders of ranges return -/

/-- A range of an offset table is no longer than the input. -/
lemma length_le_of_mem_rangesAt {bytes p : Bytes} {table : List Nat} (hp : p ∈ rangesAt bytes table) :
    p.length ≤ bytes.length := by
  match table with
  | [] => cases hp
  | [o] =>
    obtain rfl := List.mem_singleton.mp hp
    exact (List.drop_sublist _ _).length_le
  | o :: o' :: os =>
    rcases List.mem_cons.mp hp with rfl | hp
    · exact ((List.drop_sublist _ _).trans (List.take_sublist _ _)).length_le
    · exact length_le_of_mem_rangesAt hp

section Ranges

variable {deserialize : Bytes → α → Outcome α} {P : α → Prop} {bytes : Bytes}
  (h : ∀ p : Bytes, p.length ≤ bytes.length → ∀ r, P r → ∀ v, deserialize p r = .ok v → P v)
include h

/-- A property of the objects of an array that the decoder of its elements keeps. -/
lemma deserializeChunks_all {chunks : List Bytes} (hchunks : ∀ p ∈ chunks, p.length ≤ bytes.length)
    {ret : List α} (hret : ∀ r ∈ ret, P r) {vs : StdArray α ret.length}
    (hrun : deserializeChunks deserialize chunks ret = .ok vs) : ∀ v ∈ vs.1, P v := by
  induction ret generalizing chunks with
  | nil =>
    cases chunks with
    | nil =>
      cases hrun
      exact nofun
    | cons p ps => cases hrun
  | cons r ret ih =>
    cases chunks with
    | nil =>
      cases hrun
      exact hret
    | cons p ps =>
      obtain ⟨v, hv, hrun⟩ := bind_eq_ok.mp hrun
      obtain ⟨ws, hws, hrun⟩ := bind_eq_ok.mp hrun
      cases hrun
      rw [List.forall_mem_cons] at hchunks hret ⊢
      exact ⟨h p hchunks.1 r hret.1 v (nested_eq_ok.mp hv), ih hchunks.2 hret.2 hws⟩

lemma deserializeChunked_all {chunkSize : Nat} {ret : List α} (hret : ∀ r ∈ ret, P r)
    {vs : StdArray α ret.length} (hrun : deserializeChunked deserialize chunkSize bytes ret = .ok vs) :
    ∀ v ∈ vs.1, P v := by
  unfold deserializeChunked at hrun
  split at hrun
  · cases hrun
  · rename_i hpos
    refine deserializeChunks_all h (fun p hp => ?_) hret hrun
    have hle := (List.sublist_flatten_of_mem hp).length_le
    rwa [flatten_pieces (Nat.pos_of_ne_zero hpos)] at hle

lemma deserializeVariableVector_all {vac : α} (hvac : P vac) {vs : List α}
    (hrun : deserializeVariableVector deserialize vac bytes = .ok vs) :
    vs.length ≤ bytes.length / 4 ∧ ∀ v ∈ vs, P v := by
  rcases deserializeVariableVector_eq_ok hrun with ⟨-, rfl⟩ | ⟨-, hwords, -, hall⟩
  · exact ⟨Nat.zero_le _, nofun⟩
  · have hlen := hall.length_eq
    rw [length_rangesAt] at hlen
    refine ⟨by omega, fun v hv => ?_⟩
    obtain ⟨i, hi, rfl⟩ := List.mem_iff_getElem.mp hv
    have hi' : i < (rangesAt bytes (elementWords bytes)).length := hall.length_eq ▸ hi
    exact h _ (length_le_of_mem_rangesAt (List.getElem_mem hi')) vac hvac _ (hall.get hi' hi)

end Ranges

lemma SszType.vectorsWithin_basic {e : SszType α} {layout : BasicLayout α} (he : e.basicLayout = some layout)
    (k : Nat) (x : α) : e.VectorsWithin k x := by
  cases e with
  | basic b => trivial
  | _ => cases he

lemma deserializeVector_vectorsWithin {e : SszType α} {k : Nat} {bytes : Bytes} (hk : bytes.length / 4 ≤ k)
    (h : ∀ p : Bytes, p.length ≤ bytes.length → ∀ r, e.VectorsWithin k r → ∀ v, e.deserialize p r = .ok v →
      e.VectorsWithin k v) {vs : List α}
    (hrun : deserializeVector e.basicLayout e.variableSize e.deserialize e.vac e.width bytes = .ok vs) :
    (e.variableSize = true → vs.length ≤ k) ∧ ∀ v ∈ vs, e.VectorsWithin k v := by
  cases hlayout : e.basicLayout with
  | some layout =>
    refine ⟨fun hvar => ?_, fun v _ => SszType.vectorsWithin_basic hlayout k v⟩
    cases e with
    | basic b => cases hvar
    | _ => cases hlayout
  | none =>
    simp only [deserializeVector, hlayout] at hrun
    split at hrun
    · obtain ⟨hlen, hall⟩ := deserializeVariableVector_all h e.vectorsWithin_vac hrun
      exact ⟨fun _ => hlen.trans hk, hall⟩
    · rename_i hfix
      obtain ⟨n, -, hrun⟩ := bind_eq_ok.mp hrun
      obtain ⟨ws, hws, hrun⟩ := bind_eq_ok.mp hrun
      cases hrun
      refine ⟨fun hvar => absurd hvar hfix, deserializeChunked_all h (fun r hr => ?_) hws⟩
      exact List.eq_of_mem_replicate hr ▸ e.vectorsWithin_vac

lemma deserializeArray_vectorsWithin {e : SszType α} {n k : Nat} {bytes : Bytes}
    (h : ∀ p : Bytes, p.length ≤ bytes.length → ∀ r, e.VectorsWithin k r → ∀ v, e.deserialize p r = .ok v →
      e.VectorsWithin k v) {r v : StdArray α n} (hr : (SszType.array e n).VectorsWithin k r)
    (hrun : (SszType.array e n).deserialize bytes r = .ok v) : (SszType.array e n).VectorsWithin k v := by
  cases hlayout : e.basicLayout with
  | some layout => exact fun x _ => SszType.vectorsWithin_basic hlayout k x
  | none =>
    simp only [SszType.deserialize, deserializeArray, hlayout] at hrun
    split at hrun
    · cases hrun
    · obtain ⟨ws, hws, hrun⟩ := bind_eq_ok.mp hrun
      cases hrun
      exact deserializeChunked_all h hr hws

mutual

/-- What a decoder returns has no more elements in a list than the input has words. -/
theorem SszType.deserialize_vectorsWithin : {α : Type} → (τ : SszType α) → {k : Nat} → {bytes : Bytes} →
    bytes.length / 4 ≤ k → {r v : α} → τ.VectorsWithin k r → τ.deserialize bytes r = .ok v →
    τ.VectorsWithin k v
  | _, .basic _, _, _, _, _, _, _, _ => trivial
  | _, .array e _, _, _, hk, _, _, hr, hrun =>
    deserializeArray_vectorsWithin
      (fun _ hp _ hr _ hrun => e.deserialize_vectorsWithin ((Nat.div_le_div_right hp).trans hk) hr hrun) hr hrun
  | _, .vector e, _, _, hk, _, _, _, hrun =>
    deserializeVector_vectorsWithin hk
      (fun _ hp _ hr _ hrun => e.deserialize_vectorsWithin ((Nat.div_le_div_right hp).trans hk) hr hrun) hrun
  | _, .list e _, _, _, hk, _, _, _, hrun =>
    deserializeVector_vectorsWithin hk
      (fun _ hp _ hr _ hrun => e.deserialize_vectorsWithin ((Nat.div_le_div_right hp).trans hk) hr hrun) hrun
  | _, .bitlist _, _, _, _, _, _, _, _ => trivial
  | _, .bitset _, _, _, _, _, _, _, _ => trivial
  | _, .container _ ms, _, bytes, hk, r, v, hr, hrun => by
    obtain ⟨⟨r', table⟩, hfirst, hrun⟩ := bind_eq_ok.mp hrun
    have hr' := ms.fixedPass_vectorsWithin hk hr hfirst
    cases table with
    | nil =>
      cases hrun
      exact hr'
    | cons offset table => exact ms.variablePass_vectorsWithin hk hr' hrun

theorem Members.fixedPass_vectorsWithin : {α : Type} → (ms : Members α) → {k : Nat} → {shifted : Bytes} →
    shifted.length / 4 ≤ k → {r v : α} → {table : List Nat} → ms.VectorsWithin k r →
    ms.deserializeFixedSizeMembers shifted r = .ok (v, table) → ms.VectorsWithin k v
  | _, .nil, _, _, _, _, _, _, _, _ => trivial
  | _, .cons m ms, k, shifted, hk, (r, rs), v, table, hr, hrun => by
    have hdrop : ∀ n, (shifted.drop n).length / 4 ≤ k := fun n =>
      (Nat.div_le_div_right (List.drop_sublist _ _).length_le).trans hk
    rw [Members.deserializeFixedSizeMembers] at hrun
    split at hrun
    · obtain ⟨offset, -, hrun⟩ := bind_eq_ok.mp hrun
      obtain ⟨⟨ws, offsets⟩, hrest, hrun⟩ := bind_eq_ok.mp hrun
      cases hrun
      exact ⟨hr.1, ms.fixedPass_vectorsWithin (hdrop _) hr.2 hrest⟩
    · obtain ⟨w, hw, hrun⟩ := bind_eq_ok.mp hrun
      obtain ⟨⟨ws, offsets⟩, hrest, hrun⟩ := bind_eq_ok.mp hrun
      cases hrun
      have htake := (Nat.div_le_div_right (c := 4) (List.take_sublist (m.size true r) shifted).length_le).trans hk
      exact ⟨m.deserialize_vectorsWithin htake hr.1 (nested_eq_ok.mp hw),
        ms.fixedPass_vectorsWithin (hdrop _) hr.2 hrest⟩

theorem Members.variablePass_vectorsWithin : {α : Type} → (ms : Members α) → {k : Nat} → {bytes : Bytes} →
    bytes.length / 4 ≤ k → {offset : Nat} → {table : List Nat} → {r v : α} → ms.VectorsWithin k r →
    ms.deserializeVariableSizeMembers bytes offset table r = .ok v → ms.VectorsWithin k v
  | _, .nil, _, _, _, _, _, _, _, _, _ => trivial
  | _, .cons m ms, k, bytes, hk, offset, table, (r, rs), v, hr, hrun => by
    have hslice : ∀ {p : Bytes}, p.Sublist bytes → p.length / 4 ≤ k := fun hp =>
      (Nat.div_le_div_right hp.length_le).trans hk
    simp only [Members.deserializeVariableSizeMembers] at hrun
    split at hrun
    · cases table with
      | nil =>
        obtain ⟨w, hw, hrun⟩ := bind_eq_ok.mp hrun
        obtain ⟨ws, hrest, hrun⟩ := bind_eq_ok.mp hrun
        cases hrun
        exact ⟨m.deserialize_vectorsWithin (hslice (List.drop_sublist _ _)) hr.1 (nested_eq_ok.mp hw),
          ms.variablePass_vectorsWithin hk hr.2 hrest⟩
      | cons nextOffset table =>
        obtain ⟨range, hrange, hrun⟩ := bind_eq_ok.mp hrun
        obtain ⟨w, hw, hrun⟩ := bind_eq_ok.mp hrun
        obtain ⟨ws, hrest, hrun⟩ := bind_eq_ok.mp hrun
        cases hrun
        obtain ⟨-, -, rfl⟩ := subrange_eq_ok.mp hrange
        have hsub := (List.take_sublist (nextOffset - offset) _).trans (List.drop_sublist offset bytes)
        exact ⟨m.deserialize_vectorsWithin (hslice hsub) hr.1 (nested_eq_ok.mp hw),
          ms.variablePass_vectorsWithin hk hr.2 hrest⟩
    · obtain ⟨ws, hrest, hrun⟩ := bind_eq_ok.mp hrun
      cases hrun
      exact ⟨hr.1, ms.variablePass_vectorsWithin hk hr.2 hrest⟩

end

/-! ### The decoder of lists -/

end Sszpp
