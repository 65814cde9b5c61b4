import Sszpp.Proofs.Encoding

/-!
# What the in-place encoders leave alone

Whatever the buffer holds, an encoder that returns has kept its length and the bytes before its
position; the encoder of a fixed-size object has kept those after the object too.
-/

namespace Sszpp

open Library

variable {α : Type}

/-- Bytes before the position stay. -/
def Frames (f : Nat → Bytes → Outcome Bytes) : Prop :=
  ∀ pos buf out, f pos buf = .ok out → out.length = buf.length ∧ ∀ i < pos, out[i]? = buf[i]?

/-- Bytes from `n` after the position on stay. -/
def Bounded (n : Nat) (f : Nat → Bytes → Outcome Bytes) : Prop :=
  ∀ pos buf out, f pos buf = .ok out → ∀ i, pos + n ≤ i → out[i]? = buf[i]?

lemma store_eq_ok {pos : Nat} {bs buf out : Bytes} (h : store pos bs buf = .ok out) :
    out.length = buf.length ∧
      (∀ i, i < pos ∨ pos + bs.length ≤ i → out[i]? = buf[i]?) ∧
      ∀ j < bs.length, out[pos + j]? = bs[j]? := by
  unfold store at h
  split at h
  · rename_i hle
    cases h
    have htake : (buf.take pos).length = pos := by
      rw [List.length_take]
      omega
    refine ⟨by simp only [List.length_append, htake, List.length_drop]; omega, fun i hi => ?_,
      fun j hj => ?_⟩
    · rcases hi with hlt | hge
      · rw [List.append_assoc, List.getElem?_append_left (by omega), List.getElem?_take_of_lt hlt]
      · have hlen : (buf.take pos ++ bs).length = pos + bs.length := by rw [List.length_append, htake]
        rw [List.getElem?_append_right (by omega), hlen, List.getElem?_drop]
        congr 1
        omega
    · rw [List.append_assoc, List.getElem?_append_right (by omega), htake, Nat.add_sub_cancel_left,
        List.getElem?_append_left hj]
  · cases h

lemma frames_store (bs : Bytes) : Frames (fun pos buf => store pos bs buf) := by
  intro pos buf out h
  obtain ⟨hlen, hsame, -⟩ := store_eq_ok h
  exact ⟨hlen, fun i hi => hsame i (.inl hi)⟩

lemma bounded_store (bs : Bytes) : Bounded bs.length (fun pos buf => store pos bs buf) := by
  intro pos buf out h i hi
  exact (store_eq_ok h).2.1 i (.inr hi)

lemma orByte_eq_ok {pos : Nat} {x : Byte} {buf out : Bytes} (h : orByte pos x buf = .ok out) :
    out.length = buf.length ∧ ∀ i, i ≠ pos → out[i]? = buf[i]? := by
  unfold orByte at h
  split at h
  · cases h
    exact ⟨List.length_set, fun i hi => List.getElem?_set_ne fun hpos => hi hpos.symm⟩
  · cases h

lemma frames_bitset {result : Nat} {i : Nat} {bits : List Bool} {buf out : Bytes}
    (h : serializeBitset result i bits buf = .ok out) :
    out.length = buf.length ∧ ∀ k < result, out[k]? = buf[k]? := by
  induction bits generalizing i buf with
  | nil =>
    cases h
    exact ⟨rfl, fun _ _ => rfl⟩
  | cons b bs ih =>
    obtain ⟨mid, hmid, h⟩ := Outcome.bind_eq_ok.mp h
    obtain ⟨hlen, hsame⟩ := orByte_eq_ok hmid
    obtain ⟨hlen', hsame'⟩ := ih h
    exact ⟨hlen'.trans hlen, fun k hk => (hsame' k hk).trans (hsame k (by omega))⟩

lemma frames_bitlist (bits : List Bool) : Frames (fun pos buf => serializeBitlist pos bits buf) := by
  intro pos buf out h
  obtain ⟨mid, hmid, h⟩ := Outcome.bind_eq_ok.mp h
  obtain ⟨hlen, hsame, -⟩ := store_eq_ok hmid
  obtain ⟨hlen', hsame'⟩ := orByte_eq_ok h
  exact ⟨hlen'.trans hlen, fun k hk => (hsame' k (by omega)).trans (hsame k (.inl hk))⟩

lemma frames_basicRange (toBytes : α → Bytes) (r : List α) :
    Frames (fun pos buf => serializeBasicRange toBytes pos r buf) := by
  intro pos buf out h
  simp only [serializeBasicRange] at h
  split at h
  · cases h
    exact ⟨rfl, fun _ _ => rfl⟩
  · exact frames_store _ pos buf out h

section Ranges

variable {serialize : α → Nat → Bytes → Outcome Bytes} {size : α → Nat}

lemma frames_fixedRange (r : List α) (h : ∀ v ∈ r, Frames (serialize v)) :
    Frames (fun pos buf => serializeFixedRange serialize size pos r buf) := by
  induction r with
  | nil =>
    intro pos buf out h
    cases h
    exact ⟨rfl, fun _ _ => rfl⟩
  | cons v vs ih =>
    intro pos buf out hrun
    obtain ⟨mid, hmid, hrun⟩ := Outcome.bind_eq_ok.mp hrun
    obtain ⟨hlen, hsame⟩ := h v (by simp) pos buf mid hmid
    obtain ⟨hlen', hsame'⟩ := ih (fun w hw => h w (List.mem_cons_of_mem _ hw)) _ mid out hrun
    exact ⟨hlen'.trans hlen, fun k hk => (hsame' k (by omega)).trans (hsame k hk)⟩

end Ranges

/-! ### The encoder with two cursors -/

lemma writeItems_frames {items : List Item} (h : ∀ item ∈ items, Frames item.write)
    {start result variablePos : Nat} {buf out : Bytes}
    (hrun : writeItems start result variablePos items buf = .ok out) :
    out.length = buf.length ∧ ∀ i < result, i < variablePos → out[i]? = buf[i]? := by
  induction items generalizing result variablePos buf with
  | nil =>
    cases hrun
    exact ⟨rfl, fun _ _ _ => rfl⟩
  | cons item items ih =>
    have hitem := h item (by simp)
    have hitems : ∀ item ∈ items, Frames item.write := fun it hit => h it (List.mem_cons_of_mem _ hit)
    rw [writeItems] at hrun
    split at hrun
    · obtain ⟨mid, hmid, hrun⟩ := Outcome.bind_eq_ok.mp hrun
      obtain ⟨mid', hmid', hrun⟩ := Outcome.bind_eq_ok.mp hrun
      obtain ⟨hlen, hsame⟩ := frames_store _ _ _ _ hmid
      obtain ⟨hlen', hsame'⟩ := hitem _ _ _ hmid'
      obtain ⟨hlen'', hsame''⟩ := ih hitems hrun
      refine ⟨by omega, fun i hi hv => ?_⟩
      rw [hsame'' i (by omega) (by omega), hsame' i hv, hsame i hi]
    · obtain ⟨mid, hmid, hrun⟩ := Outcome.bind_eq_ok.mp hrun
      obtain ⟨hlen, hsame⟩ := hitem _ _ _ hmid
      obtain ⟨hlen', hsame'⟩ := ih hitems hrun
      refine ⟨by omega, fun i hi hv => ?_⟩
      rw [hsame' i (by omega) hv, hsame i hi]

/-- The length of the fixed part. -/
def itemsHead (items : List Item) : Nat :=
  (items.map fun item => if item.isVariable then 4 else item.size).sum

@[simp] lemma itemsHead_nil : itemsHead [] = 0 := rfl

@[simp] lemma itemsHead_cons (item : Item) (items : List Item) :
    itemsHead (item :: items) = (if item.isVariable then 4 else item.size) + itemsHead items := by
  simp [itemsHead]

/-- Between the fixed part and the second cursor nothing is written. -/
lemma writeItems_between {items : List Item} (h : ∀ item ∈ items, Frames item.write)
    (hbounded : ∀ item ∈ items, item.isVariable = false → Bounded item.size item.write)
    {start result variablePos : Nat} {buf out : Bytes}
    (hrun : writeItems start result variablePos items buf = .ok out) {i : Nat}
    (hi : result + itemsHead items ≤ i) (hv : i < variablePos) : out[i]? = buf[i]? := by
  induction items generalizing result variablePos buf with
  | nil =>
    cases hrun
    rfl
  | cons item items ih =>
    have hitem := h item (by simp)
    have hitems : ∀ item ∈ items, Frames item.write := fun it hit => h it (List.mem_cons_of_mem _ hit)
    have hbounds : ∀ item ∈ items, item.isVariable = false → Bounded item.size item.write :=
      fun it hit => hbounded it (List.mem_cons_of_mem _ hit)
    rw [writeItems] at hrun
    rw [itemsHead_cons] at hi
    split at hrun
    · rename_i hvar
      rw [if_pos hvar] at hi
      obtain ⟨mid, hmid, hrun⟩ := Outcome.bind_eq_ok.mp hrun
      obtain ⟨mid', hmid', hrun⟩ := Outcome.bind_eq_ok.mp hrun
      rw [ih hitems hbounds hrun (by omega) (by omega), (hitem _ _ _ hmid').2 i hv,
        (store_eq_ok hmid).2.1 i (.inr (by rw [length_leBytes]; omega))]
    · rename_i hvar
      rw [if_neg hvar] at hi
      obtain ⟨mid, hmid, hrun⟩ := Outcome.bind_eq_ok.mp hrun
      rw [ih hitems hbounds hrun (by omega) hv,
        hbounded item (by simp) (by simpa using hvar) _ _ _ hmid i (by omega)]

/-- Items of fixed size only, each within its bound. -/
lemma writeItems_bounded {items : List Item} {bounds : List Nat}
    (h : List.Forall₂ (fun item n => item.isVariable = false ∧ item.size ≤ n ∧ Bounded n item.write)
      items bounds)
    {start result variablePos : Nat} {buf out : Bytes}
    (hrun : writeItems start result variablePos items buf = .ok out) {i : Nat}
    (hi : result + bounds.sum ≤ i) : out[i]? = buf[i]? := by
  induction h generalizing result buf with
  | nil =>
    cases hrun
    rfl
  | cons hitem _ ih =>
    obtain ⟨hfix, hsize, hbound⟩ := hitem
    rw [List.sum_cons] at hi
    rw [writeItems, hfix, if_neg Bool.false_ne_true] at hrun
    obtain ⟨mid, hmid, hrun⟩ := Outcome.bind_eq_ok.mp hrun
    rw [ih hrun (by omega), hbound _ _ _ hmid i (by omega)]

lemma frames_variableRange {serialize : α → Nat → Bytes → Outcome Bytes} {size : α → Nat}
    (r : List α) (h : ∀ v ∈ r, Frames (serialize v)) :
    Frames (fun pos buf => serializeVariableRange serialize size pos r buf) := by
  intro pos buf out hrun
  simp only [serializeVariableRange, serializeVariableLoop_eq_writeItems] at hrun
  have hitems : ∀ item ∈ elementItems serialize size r, Frames item.write := by
    intro item hitem
    obtain ⟨v, hv, rfl⟩ := List.mem_map.mp hitem
    exact h v hv
  obtain ⟨hlen, hsame⟩ := writeItems_frames hitems hrun
  exact ⟨hlen, fun i hi => hsame i (by omega) (by omega)⟩

lemma SszType.frames_range (e : SszType α) (vs : List α)
    (h : ∀ x ∈ vs, Frames (e.serializeInPlace x)) :
    Frames (fun pos buf => serializeRange e.basicLayout e.variableSize e.serializeInPlace
      (e.size true) pos vs buf) := by
  unfold serializeRange
  split
  · exact frames_basicRange _ vs
  · split
    · exact frames_variableRange vs h
    · exact frames_fixedRange vs h

mutual

/-- No in-place encoder touches a byte before its position. -/
theorem SszType.serializeInPlace_frames : {α : Type} → (τ : SszType α) → (v : α) →
    Frames (τ.serializeInPlace v)
  | _, .basic b, v => frames_store (b.toBytes v)
  | _, .array e _, v => e.frames_range v.1 fun x _ => e.serializeInPlace_frames x
  | _, .vector e, v => e.frames_range v fun x _ => e.serializeInPlace_frames x
  | _, .list e _, v => e.frames_range v fun x _ => e.serializeInPlace_frames x
  | _, .bitlist _, v => frames_bitlist v
  | _, .bitset _, _ => fun _ _ _ h => frames_bitset h
  | _, .container _ ms, v => by
    intro pos buf out h
    simp only [SszType.serializeInPlace] at h
    split at h
    · cases ms with
      | nil =>
        cases h
        exact ⟨rfl, fun _ _ => rfl⟩
      | cons m ms => exact m.serializeInPlace_frames v.1 pos buf out h
    · rw [Members.serializeMembers_eq_writeItems] at h
      obtain ⟨hlen, hsame⟩ := writeItems_frames (ms.items_frames v) h
      exact ⟨hlen, fun i hi => hsame i hi (by omega)⟩

theorem Members.items_frames : {α : Type} → (ms : Members α) → (v : α) →
    ∀ item ∈ ms.items v, Frames item.write
  | _, .nil, _, _, hitem => by cases hitem
  | _, .cons m ms, (v, vs), item, hitem => by
    rcases List.mem_cons.mp hitem with rfl | hmem
    · exact m.serializeInPlace_frames v
    · exact ms.items_frames vs item hmem

end

end Sszpp
