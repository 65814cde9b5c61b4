import Sszpp.Proofs.Frames
import Sszpp.Proofs.Reach

/-!
# Containers with one member

With one argument the call `ssz::serialize(result, m)` of `SSZ_CONT` is the one of the member itself:
no offset is written, while `ssz_size` counts one. The bytes are those of the member, then zeros.
-/

namespace Sszpp

open Library

variable {α : Type}

/-- A longer buffer keeps what follows and makes no other difference. -/
def Extends (f : Nat → Bytes → Outcome Bytes) : Prop :=
  ∀ pos buf out, f pos buf = .ok out → ∀ rest, f pos (buf ++ rest) = .ok (out ++ rest)

section Writes

variable {pos : Nat} {buf out : Bytes}

lemma extends_store {bs : Bytes} (h : store pos bs buf = .ok out) (rest : Bytes) :
    store pos bs (buf ++ rest) = .ok (out ++ rest) := by
  unfold store at h ⊢
  split at h
  · rename_i hle
    cases h
    rw [if_pos (by rw [List.length_append]; omega), List.take_append_of_le_length (by omega),
      List.drop_append_of_le_length hle]
    simp
  · cases h

lemma extends_orByte {x : Byte} (h : orByte pos x buf = .ok out) (rest : Bytes) :
    orByte pos x (buf ++ rest) = .ok (out ++ rest) := by
  unfold orByte at h ⊢
  split at h
  · rename_i b hb
    cases h
    have hlt : pos < buf.length := (List.getElem?_eq_some_iff.mp hb).1
    simp only [List.getElem?_append_left hlt, hb, List.set_append_left _ _ hlt]
  · cases h

lemma extends_bitset {i : Nat} {bits : List Bool} (h : serializeBitset pos i bits buf = .ok out)
    (rest : Bytes) : serializeBitset pos i bits (buf ++ rest) = .ok (out ++ rest) := by
  induction bits generalizing i buf with
  | nil =>
    cases h
    rfl
  | cons b bs ih =>
    obtain ⟨mid, hmid, h⟩ := Outcome.bind_eq_ok.mp h
    rw [serializeBitset, extends_orByte hmid, Outcome.ok_bind]
    exact ih h

lemma extends_bitlist {bits : List Bool} (h : serializeBitlist pos bits buf = .ok out) (rest : Bytes) :
    serializeBitlist pos bits (buf ++ rest) = .ok (out ++ rest) := by
  obtain ⟨mid, hmid, h⟩ := Outcome.bind_eq_ok.mp h
  unfold serializeBitvector at hmid
  unfold serializeBitlist serializeBitvector
  rw [extends_store hmid, Outcome.ok_bind]
  exact extends_orByte h rest

lemma extends_basicRange {toBytes : α → Bytes} {r : List α}
    (h : serializeBasicRange toBytes pos r buf = .ok out) (rest : Bytes) :
    serializeBasicRange toBytes pos r (buf ++ rest) = .ok (out ++ rest) := by
  unfold serializeBasicRange at h ⊢
  split at h
  · rename_i hnil
    cases h
    rw [if_pos hnil]
  · rename_i hne
    rw [if_neg hne]
    exact extends_store h rest

end Writes

lemma extends_writeItems {items : List Item} (h : ∀ item ∈ items, Extends item.write)
    {start result variablePos : Nat} {buf out : Bytes}
    (hrun : writeItems start result variablePos items buf = .ok out) (rest : Bytes) :
    writeItems start result variablePos items (buf ++ rest) = .ok (out ++ rest) := by
  induction items generalizing result variablePos buf with
  | nil =>
    cases hrun
    rfl
  | cons item items ih =>
    have hitem := h item (by simp)
    have hitems : ∀ item ∈ items, Extends item.write := fun it hit => h it (List.mem_cons_of_mem _ hit)
    rw [writeItems] at hrun ⊢
    by_cases hvariable : item.isVariable
    · rw [if_pos hvariable] at hrun ⊢
      obtain ⟨mid, hmid, hrun⟩ := Outcome.bind_eq_ok.mp hrun
      obtain ⟨mid', hmid', hrun⟩ := Outcome.bind_eq_ok.mp hrun
      rw [extends_store hmid, Outcome.ok_bind, hitem _ _ _ hmid', Outcome.ok_bind]
      exact ih hitems hrun
    · rw [if_neg hvariable] at hrun ⊢
      obtain ⟨mid, hmid, hrun⟩ := Outcome.bind_eq_ok.mp hrun
      rw [hitem _ _ _ hmid, Outcome.ok_bind]
      exact ih hitems hrun

lemma SszType.extends_range {e : SszType α} (h : ∀ x, Extends (e.serializeInPlace x)) (vs : List α) :
    Extends (fun pos buf => serializeRange e.basicLayout e.variableSize e.serializeInPlace
      (e.size true) pos vs buf) := by
  have hitems : ∀ isVariable, ∀ item ∈ vs.map (fun x => (⟨isVariable, e.serializeInPlace x, e.size true x⟩ : Item)),
      Extends item.write := by
    intro isVariable item hitem
    obtain ⟨x, -, rfl⟩ := List.mem_map.mp hitem
    exact h x
  unfold serializeRange
  cases hlayout : e.basicLayout with
  | some layout => exact fun _ _ _ => extends_basicRange
  | none =>
    intro pos buf out hrun rest
    cases hvar : e.variableSize with
    | true =>
      simp only [hvar, if_true, serializeVariableRange, serializeVariableLoop_eq_writeItems] at hrun ⊢
      exact extends_writeItems (hitems true) hrun rest
    | false =>
      simp only [hvar, Bool.false_eq_true, if_false, serializeFixedRange_eq_writeItems 0 0] at hrun ⊢
      exact extends_writeItems (hitems false) hrun rest

mutual

theorem SszType.serializeInPlace_extends : {α : Type} → (τ : SszType α) → (v : α) →
    Extends (τ.serializeInPlace v)
  | _, .basic _, _ => fun _ _ _ => extends_store
  | _, .array e _, v => SszType.extends_range e.serializeInPlace_extends v.1
  | _, .vector e, v => SszType.extends_range e.serializeInPlace_extends v
  | _, .list e _, v => SszType.extends_range e.serializeInPlace_extends v
  | _, .bitlist _, _ => fun _ _ _ => extends_bitlist
  | _, .bitset _, _ => fun _ _ _ => extends_bitset
  | _, .container _ ms, v => by
    intro pos buf out h rest
    simp only [SszType.serializeInPlace] at h ⊢
    by_cases hcount : ms.count = 1
    · rw [if_pos hcount] at h ⊢
      cases ms with
      | nil => cases hcount
      | cons m ms => exact m.serializeInPlace_extends v.1 pos buf out h rest
    · rw [if_neg hcount] at h ⊢
      rw [Members.serializeMembers_eq_writeItems] at h ⊢
      exact extends_writeItems (ms.items_extend v) h rest

theorem Members.items_extend : {α : Type} → (ms : Members α) → (v : α) →
    ∀ item ∈ ms.items v, Extends item.write
  | _, .nil, _, _, hitem => by cases hitem
  | _, .cons m ms, (v, vs), item, hitem => by
    rcases List.mem_cons.mp hitem with rfl | hmem
    · exact m.serializeInPlace_extends v
    · exact ms.items_extend vs item hmem

end

/-! ### The bytes of a container with one member -/

/-- `SSZ_CONT(m)` -/
def SszType.single (m : SszType α) : SszType (α × Unit) := .container true (.cons m .nil)

/-- The three members that `SSZ_CONT(m)` generates agree on the layout of a container: an offset,
then the bytes of the member. -/
def EncodedAsContainer (m : SszType α) (v : α) (bytes : Bytes) : Prop :=
  m.single.serialize (v, ()) = .ok (leBytes 4 4 ++ bytes) ∧
    m.single.size true (v, ()) = (leBytes 4 4 ++ bytes).length ∧
    (m.isBitlist = false → m.single.deserializeNew (leBytes 4 4 ++ bytes) = .ok (v, ()))

lemma SszType.single_bufferSize {m : SszType α} (hm : m.variableSize = true) (v : α) :
    m.single.bufferSize (v, ()) = (m.size true v + 4) % 2 ^ 32 := by
  change (sizePlusPlaceholder m.variableSize (m.size true v) + 0) % 2 ^ 32 = _
  rw [sizePlusPlaceholder, hm, if_pos rfl, Nat.add_zero, Nat.mod_mod, BYTES_PER_LENGTH_OFFSET]

/-- Where the buffer is four bytes longer than the one of the member, it holds the bytes of the
member and no offset. -/
lemma SszType.single_serialize {m : SszType α} {v : α} {bytes : Bytes} (h : m.serialize v = .ok bytes)
    (hlen : m.single.bufferSize (v, ()) = bytes.length + 4) :
    m.single.serialize (v, ()) = .ok (bytes ++ zeros 4) := by
  have hbuffer : m.bufferSize v = bytes.length := (SszType.serialize_returns_iff.mp ⟨bytes, h, rfl⟩).1
  have hextends := m.serializeInPlace_extends v 0 _ _ h (zeros 4)
  rw [← zeros_add, hbuffer, ← hlen] at hextends
  exact hextends

/-- Moving the zeros to the front does not make an offset of them. -/
lemma append_zeros_ne (bytes : Bytes) : bytes ++ zeros 4 ≠ leBytes 4 4 ++ bytes := by
  intro h
  have hsum := congrArg (fun bs : Bytes => (bs.map BitVec.toNat).sum) h
  have hzeros : ((zeros 4).map BitVec.toNat).sum = 0 := by decide
  have hfour : ((leBytes 4 4).map BitVec.toNat).sum = 4 := by decide
  simp only [List.map_append, List.sum_append, hzeros, hfour] at hsum
  omega

/-- The encoder never writes the offset that `ssz_size` counts and the decoder reads, whatever the
member and its value, be the bytes of the member those of `serialize` or the reference encoding. -/
theorem not_encodedAsContainer (m : SszType α) (hm : m.variableSize = true) (v : α) (bytes : Bytes)
    (hbytes : m.serialize v = .ok bytes ∨ m.Regular ∧ m.BitsAgree v ∧ bytes = m.encode v) :
    ¬ EncodedAsContainer m v bytes := by
  rintro ⟨hrun, -, -⟩
  have hbuffer := (SszType.serialize_returns_iff.mp ⟨_, hrun, rfl⟩).1
  rw [List.length_append, length_leBytes, Nat.add_comm] at hbuffer
  have hmember : m.serialize v = .ok bytes := by
    rcases hbytes with h | ⟨hregular, hbits, rfl⟩
    · exact h
    · have hlt : (m.encode v).length < 2 ^ 32 := by
        rw [SszType.single_bufferSize hm] at hbuffer
        omega
      exact hregular.serialize_eq v (m.fits_of_length v hlt) hbits
  have hzeros := SszType.single_serialize hmember hbuffer
  exact append_zeros_ne bytes (Except.ok.inj (hzeros.symm.trans hrun))

theorem not_encodedAsContainer_bitlist :
    ¬ EncodedAsContainer (.bitlist 8) [true, false, true] [0x0d] :=
  not_encodedAsContainer (.bitlist 8) rfl [true, false, true] [0x0d] (.inl (by decide))

/-- `ssz::list<std::uint8_t, 4> m{1}` -/
theorem singleMember_list :
    (SszType.list (.basic .uint8) 4).serialize [(1 : BitVec 8)] = .ok [1] ∧
      (SszType.list (.basic .uint8) 4).single.serialize ([(1 : BitVec 8)], ()) = .ok [1, 0, 0, 0, 0] ∧
      ¬ EncodedAsContainer (.list (.basic .uint8) 4) [(1 : BitVec 8)] [1] := by
  refine ⟨by decide, by decide, ?_⟩
  rintro ⟨hrun, -, -⟩
  exact absurd hrun (by decide)

end Sszpp
