import Sszpp.Library.OffsetLayout
import Sszpp.Model.Lists

/-!
# What the in-place encoders write

`Writes f bs`: wherever `f` is called with a zeroed area of the length of `bs`, it fills that
area with `bs` and leaves the rest of the buffer as it was.
-/

namespace Sszpp

open Library

def Writes (f : Nat → Bytes → Outcome Bytes) (bs : Bytes) : Prop :=
  ∀ pre post : Bytes, f pre.length (pre ++ zeros bs.length ++ post) = .ok (pre ++ bs ++ post)

lemma Writes.at {f : Nat → Bytes → Outcome Bytes} {bs : Bytes} (h : Writes f bs) {pos n : Nat}
    {pre : Bytes} (post : Bytes) (hpos : pos = pre.length) (hn : n = bs.length) :
    f pos (pre ++ zeros n ++ post) = .ok (pre ++ bs ++ post) := by
  subst hpos hn
  exact h pre post

lemma writes_store (bs : Bytes) : Writes (fun pos buf => store pos bs buf) bs := by
  intro pre post
  exact store_append rfl (by simp)

variable {α : Type}

lemma writes_basicRange (toBytes : α → Bytes) (r : List α) :
    Writes (fun pos buf => serializeBasicRange toBytes pos r buf) (r.flatMap toBytes) := by
  intro pre post
  unfold serializeBasicRange
  split
  · rename_i h
    simp [h]
  · exact store_append rfl (by simp)

/-! ### The encoder with two cursors -/

/-- What the encoder of a composite object does with one member or element. -/
structure Item where
  isVariable : Bool
  write : Nat → Bytes → Outcome Bytes
  size : Nat

/-- Fixed-size items are written at the cursor `result`, the others at `variablePos` with their
offset from `start` at `result`. -/
def writeItems (start : Nat) : (result variablePos : Nat) → List Item → Bytes → Outcome Bytes
  | _, _, [], buf => .ok buf
  | result, variablePos, item :: items, buf =>
    if item.isVariable then do
      let buf ← store result (leBytes 4 ((variablePos - start) % 2 ^ 32)) buf
      let buf ← item.write variablePos buf
      writeItems start (result + 4) (variablePos + item.size) items buf
    else do
      let buf ← item.write result buf
      writeItems start (result + item.size) variablePos items buf

/-- The item writes the part and advances its cursor by the length of the part. -/
def Item.WritesPart (item : Item) (p : Part) : Prop :=
  item.isVariable = p.isVariable ∧ Writes item.write p.bytes ∧ item.size = p.bytes.length

/-- A head at one cursor, then an object at the other. -/
lemma Writes.after_store {f : Nat → Bytes → Outcome Bytes} {bs : Bytes} (hf : Writes f bs)
    (n pos data : Nat) (head a mid post : Bytes) (hn : n = head.length) (hpos : pos = a.length)
    (hdata : data = a.length + n + mid.length) :
    ∃ buf, store pos head (a ++ zeros n ++ (mid ++ zeros bs.length ++ post)) = .ok buf ∧
      f data buf = .ok (a ++ head ++ (mid ++ bs ++ post)) := by
  refine ⟨_, (writes_store head).at _ hpos hn, ?_⟩
  have hlen : data = (a ++ head ++ mid).length := by
    simp only [List.length_append]
    omega
  have hwrite := hf (a ++ head ++ mid) post
  rw [← hlen] at hwrite
  simpa only [List.append_assoc] using hwrite

/-- The loop with `a` written before the cursor `result` and `b` between the fixed part and the
cursor `variablePos`. -/
lemma writeItems_eq {items : List Item} {ps : List Part} (h : List.Forall₂ Item.WritesPart items ps)
    (start result variablePos : Nat) (a b post : Bytes) (hresult : result = a.length)
    (hvariable : variablePos = a.length + fixedLength ps + b.length) (hstart : start ≤ result)
    (hoff : ∀ o ∈ offsets (variablePos - start) ps, o < 2 ^ 32) :
    writeItems start result variablePos items
        (a ++ zeros (fixedLength ps) ++ (b ++ zeros (tails ps).length ++ post)) =
      .ok (a ++ heads (variablePos - start) ps ++ (b ++ tails ps ++ post)) := by
  induction h generalizing result variablePos a b with
  | nil => simp [writeItems, heads]
  | @cons item p items ps hitem hitems ih =>
    obtain ⟨hkind, hwrites, hsize⟩ := hitem
    obtain ⟨isVariable, bytes⟩ := p
    simp only at hkind hwrites hsize
    rw [writeItems, hkind]
    cases isVariable with
    | true =>
      simp only [fixedLength_cons, headLength_variable, offsets_variable, tails_cons, tail_variable,
        heads_variable, List.length_append, if_true] at hvariable hoff ⊢
      have hmod : (variablePos - start) % 2 ^ 32 = variablePos - start :=
        Nat.mod_eq_of_lt (hoff _ (by simp))
      have hcursor : variablePos + item.size - start = variablePos - start + bytes.length := by omega
      obtain ⟨buf, hstore, hmember⟩ := hwrites.after_store 4 result variablePos
        (leBytes 4 (variablePos - start)) a (zeros (fixedLength ps) ++ b)
        (zeros (tails ps).length ++ post) (by simp) hresult (by simp; omega)
      have hnext := ih (result + 4) (variablePos + item.size) (a ++ leBytes 4 (variablePos - start))
        (b ++ bytes) (by simp [hresult]) (by simp; omega) (by omega)
        (by rw [hcursor]; exact fun o ho => hoff o (List.mem_cons_of_mem _ ho))
      have hbuf : a ++ zeros (4 + fixedLength ps) ++
          (b ++ zeros (bytes.length + (tails ps).length) ++ post) =
          a ++ zeros 4 ++ (zeros (fixedLength ps) ++ b ++ zeros bytes.length ++
            (zeros (tails ps).length ++ post)) := by
        simp [zeros_add]
      rw [hmod, hbuf, hstore, Outcome.ok_bind, hmember, Outcome.ok_bind]
      rw [hcursor] at hnext
      simpa using hnext
    | false =>
      simp only [fixedLength_cons, headLength_fixed, offsets_fixed, tails_cons, tail_fixed, heads_fixed,
        List.nil_append, Bool.false_eq_true, if_false] at hvariable hoff ⊢
      have hnext := ih (result + item.size) variablePos (a ++ bytes) b
        (by rw [List.length_append, hsize, hresult]) (by rw [List.length_append]; omega) (by omega) hoff
      have hbuf : a ++ zeros (bytes.length + fixedLength ps) ++ (b ++ zeros (tails ps).length ++ post) =
          a ++ zeros bytes.length ++ (zeros (fixedLength ps) ++
            (b ++ zeros (tails ps).length ++ post)) := by
        simp [zeros_add]
      rw [hbuf, hwrites.at _ hresult rfl, Outcome.ok_bind]
      simpa using hnext

/-- Started with the second cursor after the fixed part, the loop writes the whole layout. -/
lemma writes_items {items : List Item} {ps : List Part} (h : List.Forall₂ Item.WritesPart items ps)
    (hoff : ∀ o ∈ offsets (fixedLength ps) ps, o < 2 ^ 32) :
    Writes (fun pos buf => writeItems pos pos (pos + fixedLength ps) items buf) (assemble ps) := by
  intro pre post
  have hsub : pre.length + fixedLength ps - pre.length = fixedLength ps := by omega
  have heq := writeItems_eq h pre.length pre.length (pre.length + fixedLength ps) pre [] post rfl
    (by simp) (le_refl _) (by rwa [hsub])
  rw [hsub] at heq
  rw [length_assemble, zeros_add]
  simpa [assemble] using heq

section Ranges

variable {serialize : α → Nat → Bytes → Outcome Bytes} {size : α → Nat} {encode : α → Bytes}

lemma writes_fixedRange (r : List α) (hser : ∀ v ∈ r, Writes (serialize v) (encode v))
    (hsize : ∀ v ∈ r, size v = (encode v).length) :
    Writes (fun pos buf => serializeFixedRange serialize size pos r buf) (r.flatMap encode) := by
  induction r with
  | nil =>
    intro pre post
    simp [serializeFixedRange]
  | cons v vs ih =>
    intro pre post
    have hv : Writes (serialize v) (encode v) := hser v (by simp)
    have hvs := ih (fun w hw => hser w (List.mem_cons_of_mem _ hw))
      (fun w hw => hsize w (List.mem_cons_of_mem _ hw))
    have hsplit : pre ++ zeros ((v :: vs).flatMap encode).length ++ post =
        pre ++ zeros (encode v).length ++ (zeros (vs.flatMap encode).length ++ post) := by
      simp [zeros_add]
    have hpos : pre.length + size v = (pre ++ encode v).length := by
      rw [List.length_append, hsize v (by simp)]
    simp only [serializeFixedRange]
    rw [hsplit, hv.at _ rfl rfl, Outcome.ok_bind, ← List.append_assoc, hvs.at _ hpos rfl]
    simp

def elementItems (serialize : α → Nat → Bytes → Outcome Bytes) (size : α → Nat) (r : List α) :
    List Item := r.map fun v => ⟨true, serialize v, size v⟩

@[simp] lemma elementItems_cons (v : α) (vs : List α) :
    elementItems serialize size (v :: vs) =
      ⟨true, serialize v, size v⟩ :: elementItems serialize size vs := rfl

lemma serializeVariableLoop_eq_writeItems (result idx data : Nat) (r : List α) (buf : Bytes) :
    serializeVariableLoop serialize size result idx data r buf =
      writeItems result (result + idx * 4) data (elementItems serialize size r) buf := by
  induction r generalizing idx data buf with
  | nil => rfl
  | cons v vs ih =>
    have hidx : result + (idx + 1) * 4 = result + idx * 4 + 4 := by ring
    simp only [serializeVariableLoop, BYTES_PER_LENGTH_OFFSET, ih, hidx]
    rfl

lemma writes_variableRange (r : List α) (hser : ∀ v ∈ r, Writes (serialize v) (encode v))
    (hsize : ∀ v ∈ r, size v = (encode v).length)
    (hoff : ∀ o ∈ offsets (fixedLength (variableParts encode r)) (variableParts encode r), o < 2 ^ 32) :
    Writes (fun pos buf => serializeVariableRange serialize size pos r buf)
      (assemble (variableParts encode r)) := by
  have hitems : List.Forall₂ Item.WritesPart (elementItems serialize size r) (variableParts encode r) := by
    clear hoff
    induction r with
    | nil => exact .nil
    | cons v vs ih =>
      exact .cons ⟨rfl, hser v (by simp), hsize v (by simp)⟩
        (ih (fun w hw => hser w (List.mem_cons_of_mem _ hw))
          (fun w hw => hsize w (List.mem_cons_of_mem _ hw)))
  have hfixed := fixedLength_variableParts encode r
  intro pre post
  have hwrites := writes_items hitems hoff pre post
  rw [hfixed, Nat.mul_comm] at hwrites
  simp only [serializeVariableRange, serializeVariableLoop_eq_writeItems, Nat.zero_mul, Nat.add_zero,
    BYTES_PER_LENGTH_OFFSET]
  exact hwrites

end Ranges

/-! ### Bit sequences -/

lemma orByte_append {mid : Bytes} {k pos : Nat} (hk : k < mid.length) (pre post : Bytes) (x : Byte)
    (hpos : pos = pre.length + k) :
    orByte pos x (pre ++ mid ++ post) = .ok (pre ++ mid.modify k (· ||| x) ++ post) := by
  subst hpos
  have hget : (pre ++ mid ++ post)[pre.length + k]? = some mid[k] := by
    rw [List.append_assoc, List.getElem?_append_right (by omega), Nat.add_sub_cancel_left,
      List.getElem?_append_left hk, List.getElem?_eq_getElem hk]
  have hset : (pre ++ mid ++ post).set (pre.length + k) (mid[k] ||| x) =
      pre ++ mid.modify k (· ||| x) ++ post := by
    rw [List.append_assoc, List.set_append_right _ _ (by omega), Nat.add_sub_cancel_left,
      List.set_append_left _ _ hk, ← List.append_assoc]
    rw [List.modify_eq_set, List.getElem?_eq_getElem hk, Option.getD_some]
  simp only [orByte, hget, hset]

lemma getLsbD_mask (b : Bool) (r j : Nat) (hr : r < 8) (hj : j < 8) :
    (byteOfBool b <<< r).getLsbD j = (b && decide (j = r)) := by
  have hall : ∀ b : Bool, ∀ r < 8, ∀ j < 8,
      (byteOfBool b <<< r).getLsbD j = (b && decide (j = r)) := by decide
  exact hall b r hr j hj

/-- One step of the bitset encoder sets bit `i` when `b` holds. -/
lemma bitAt_modify_mask {bytes : Bytes} {i : Nat} (hi : i / 8 < bytes.length) (b : Bool) (k : Nat) :
    bitAt (bytes.modify (i / 8) (· ||| byteOfBool b <<< (i % 8))) k =
      (bitAt bytes k || (b && decide (k = i))) := by
  rw [bitAt_modify_or hi, getLsbD_mask b _ _ (Nat.mod_lt _ (by decide)) (Nat.mod_lt _ (by decide))]
  have hiff : (k / 8 = i / 8 ∧ k % 8 = i % 8) ↔ k = i := by omega
  cases b <;> simp [← hiff]

lemma serializeBitset_eq (bits : List Bool) (result i : Nat) (pre mid post : Bytes)
    (hresult : result = pre.length) (hlen : i + bits.length ≤ 8 * mid.length) :
    ∃ out : Bytes, serializeBitset result i bits (pre ++ mid ++ post) = .ok (pre ++ out ++ post) ∧
      out.length = mid.length ∧
      ∀ k, bitAt out k = (bitAt mid k || (decide (i ≤ k) && bits.getD (k - i) false)) := by
  induction bits generalizing i mid with
  | nil => exact ⟨mid, rfl, rfl, by simp⟩
  | cons b bs ih =>
    rw [List.length_cons] at hlen
    have hi : i / 8 < mid.length := by omega
    obtain ⟨out, hrun, hout, hbits⟩ := ih (i + 1)
      (mid.modify (i / 8) (· ||| byteOfBool b <<< (i % 8))) (by rw [List.length_modify]; omega)
    refine ⟨out, ?_, by rw [hout, List.length_modify], ?_⟩
    · rw [serializeBitset, orByte_append hi pre post _ (by rw [hresult]), Outcome.ok_bind, hrun]
    · intro k
      rw [hbits, bitAt_modify_mask hi, Bool.or_assoc]
      congr 1
      rcases Nat.lt_trichotomy k i with hlt | rfl | hgt
      · have hne : ¬ k = i := by omega
        have hle : ¬ i ≤ k := by omega
        have hle' : ¬ i + 1 ≤ k := by omega
        simp [hne, hle, hle']
      · simp
      · have hne : ¬ k = i := by omega
        have hle : i ≤ k := by omega
        have hsub : k - i = (k - (i + 1)) + 1 := by omega
        have hle' : i + 1 ≤ k := by omega
        simp [hne, hle, hsub, hle']

lemma writes_bitset (bits : List Bool) :
    Writes (fun pos buf => serializeBitset pos 0 bits buf) (packBits bits) := by
  intro pre post
  obtain ⟨out, hrun, hlen, hbits⟩ := serializeBitset_eq bits pre.length 0 pre
    (zeros (packBits bits).length) post rfl (by simp; omega)
  have hout : out = packBits bits := by
    apply eq_packBits
    · rw [hlen, length_zeros, length_packBits]
    · intro i
      rw [hbits, zeros, bitAt_replicate_zero]
      simp
  simp only [hrun, hout]

lemma getLsbD_eightBitsToByte (chunk : List Bool) {j : Nat} (hj : j < 8) :
    (eightBitsToByte chunk).getLsbD j = chunk.getD j false := by
  induction chunk generalizing j with
  | nil => simp [eightBitsToByte]
  | cons b bs ih =>
    have hstep : eightBitsToByte (b :: bs) = eightBitsToByte bs <<< 1 ||| byteOfBool b := rfl
    have hlow : (byteOfBool b).getLsbD j = (b && decide (j = 0)) := by
      simpa using getLsbD_mask b 0 j (by decide) hj
    rw [hstep, BitVec.getLsbD_or, hlow, BitVec.getLsbD_shiftLeft]
    cases j with
    | zero => simp
    | succ j =>
      have hj' : j < 8 := by omega
      have hih := ih hj'
      simp only [Nat.add_sub_cancel]
      simp [hj, hih]

/-- The chunk-and-fold packer is `packBits`. -/
lemma map_eightBitsToByte (bits : List Bool) : (pieces 8 bits).map eightBitsToByte = packBits bits := by
  simp only [pieces, packBits, List.map_map]
  apply List.map_congr_left
  intro k _
  apply BitVec.eq_of_getLsbD_eq
  intro j hj
  rw [Function.comp_apply, getLsbD_eightBitsToByte _ hj, getLsbD_byteOfBits _ hj, Nat.mul_comm 8 k]
  simp [List.getD_eq_getElem?_getD, hj]

/-- The delimiter in the byte after the last full one. -/
lemma modify_delimiter {bytes : Bytes} {bits : List Bool} (hlen : bytes.length = bits.length / 8 + 1)
    (hbits : ∀ i, bitAt bytes i = bits.getD i false) :
    bytes.modify (bits.length / 8) (· ||| byteOfBool true <<< (bits.length % 8)) =
      packBits (bits ++ [true]) := by
  have hpos : bits.length / 8 < bytes.length := by omega
  apply eq_packBits
  · rw [List.length_modify, hlen, List.length_append, List.length_singleton]
    omega
  · intro i
    rw [bitAt_modify_mask hpos, hbits, Bool.true_and, getD_append_true]

lemma writes_bitlist (bits : List Bool) :
    Writes (fun pos buf => serializeBitlist pos bits buf) (packBits (bits ++ [true])) := by
  intro pre post
  have hlen : (packBits (bits ++ [true])).length = bits.length / 8 + 1 := by
    rw [length_packBits, List.length_append, List.length_singleton]
    omega
  -- the packed bits leave a zero byte for the delimiter exactly when they fill their bytes
  obtain ⟨k, hk⟩ : ∃ k, bits.length / 8 + 1 = (bits.length + 7) / 8 + k := ⟨_, (Nat.add_sub_of_le (by omega)).symm⟩
  have hsplit : pre ++ zeros (bits.length / 8 + 1) ++ post =
      pre ++ zeros (packBits bits).length ++ (zeros k ++ post) := by
    rw [length_packBits, hk, zeros_add]
    simp
  have hpacked : (packBits bits ++ zeros k).length = bits.length / 8 + 1 := by
    rw [List.length_append, length_packBits, length_zeros, hk]
  have hbits : ∀ i, bitAt (packBits bits ++ zeros k) i = bits.getD i false := by
    intro i
    rw [bitAt_append, zeros, bitAt_replicate_zero, length_packBits, bitAt_packBits]
    split
    · rfl
    · rw [List.getD_eq_default _ _ (by omega)]
  have hpos : bits.length / 8 < (packBits bits ++ zeros k).length := by omega
  rw [hlen, hsplit]
  simp only [serializeBitlist, serializeBitvector, map_eightBitsToByte]
  rw [store_append rfl (by simp), Outcome.ok_bind]
  have horByte := orByte_append hpos pre post (byteOfBool true <<< (bits.length % 8)) rfl
  rw [modify_delimiter hpacked hbits] at horByte
  simpa [byteOfBool] using horByte

end Sszpp
