import Sszpp.Model.Container
import Sszpp.Proofs.InPlace
import Sszpp.Spec.Encoding

/-!
# The encoders produce the reference encoding

Three functions of the source describe one layout: the size that the cursors advance by, the
length of the fixed part, and what is written at each cursor. On values that fit 32-bit lengths
they agree with the reference encoding.
-/

namespace Sszpp

open Library

variable {α : Type}

/-! ### Lengths -/

lemma SszType.assemble_elementParts {e : SszType α} (h : e.isVariableSize = false) (vs : List α) :
    assemble (e.elementParts vs) = vs.flatMap e.encode := by
  rw [assemble_of_fixed (by simp [h]), List.flatMap_map]

lemma SszType.elementParts_of_variable {e : SszType α} (h : e.isVariableSize = true) (vs : List α) :
    e.elementParts vs = variableParts e.encode vs := by
  simp only [elementParts, variableParts, h]

mutual

theorem SszType.Sound.length_encode : {α : Type} → {τ : SszType α} → τ.Sound →
    τ.isVariableSize = false → (v : α) → (τ.encode v).length = τ.fixedSize
  | _, .basic b, _, _, v => b.length_toBytes v
  | _, .array e n, h, hfix, v => by
    rw [SszType.encode, e.assemble_elementParts hfix,
      length_flatMap_const _ _ fun x _ => SszType.Sound.length_encode h.2 hfix x, v.2,
      SszType.fixedSize]
  | _, .vector _, h, _, _ => h.elim
  | _, .list _ _, _, hfix, _ => by cases hfix
  | _, .bitlist _, _, hfix, _ => by cases hfix
  | _, .bitset n, _, _, v => by rw [SszType.encode, length_packBits, v.2, SszType.fixedSize]
  | _, .container _ ms, h, hfix, v => by
    rw [SszType.encode, length_assemble]
    exact Members.Sound.length_parts h hfix v

theorem Members.Sound.length_parts : {α : Type} → {ms : Members α} → ms.Sound →
    ms.hasVariableSize = false → (v : α) →
    fixedLength (ms.parts v) + (tails (ms.parts v)).length = ms.fixedSize
  | _, .nil, _, _, _ => rfl
  | _, .cons m ms, h, hfix, (v, vs) => by
    rw [Members.hasVariableSize, Bool.or_eq_false_iff] at hfix
    have hm := SszType.Sound.length_encode h.2.1 hfix.1 v
    have hms := Members.Sound.length_parts h.2.2 hfix.2 vs
    simp only [Members.parts, fixedLength_cons, tails_cons, Part.headLength, Part.tail, hfix.1,
      Members.fixedSize, Bool.false_eq_true, if_false, List.nil_append]
    omega

end

lemma SszType.length_encode_of_fixed (τ : SszType α) (h : τ.Encodable) (hfix : τ.isVariableSize = false)
    (v : α) : (τ.encode v).length = τ.fixedSize := h.regular.sound.length_encode hfix v

lemma sizeOfVariable_eq (size : α → Nat) (vs : List α) :
    sizeOfVariable size vs = vs.length * 4 + (vs.map size).sum := by
  have hacc : ∀ n, vs.foldl (fun n m => n + BYTES_PER_LENGTH_OFFSET + size m) n =
      n + (vs.length * 4 + (vs.map size).sum) := by
    induction vs with
    | nil => simp
    | cons v vs ih =>
      intro n
      rw [List.foldl_cons, ih, List.length_cons, List.map_cons, List.sum_cons, BYTES_PER_LENGTH_OFFSET]
      omega
  rw [sizeOfVariable, hacc, Nat.zero_add]

lemma length_assemble_variableParts (encode : α → Bytes) (vs : List α) :
    (assemble (variableParts encode vs)).length =
      vs.length * 4 + (vs.map fun v => (encode v).length).sum := by
  rw [length_assemble, fixedLength_variableParts, tails_eq_flatten, variableBytes_variableParts,
    List.length_flatten, List.map_map, Nat.mul_comm]
  rfl

/-- In a range, bits are sized as bytes. -/
lemma SszType.size_early_bitlist (limit : Nat) :
    (SszType.bitlist limit).size false = (SszType.bitlist limit).bitCount := by
  funext x
  simp only [SszType.size, SszType.bitCount, Bool.false_eq_true, if_false]
  rw [sizeOfFixed_eq x fun _ _ => rfl, Nat.mul_one]

/-- The sum of the sizes that `size` sees in a range is that of the sizes it should see. -/
lemma SszType.sum_early_iff (e : SszType α) (vs : List α) :
    (vs.map (e.size false)).sum = (vs.map (e.size true)).sum ↔ e.BitsBalance vs := by
  cases e with
  | bitlist limit =>
    rw [SszType.size_early_bitlist]
    exact Iff.rfl
  | _ => exact ⟨fun _ => rfl, fun _ => rfl⟩

lemma SszType.sizeOfRange_eq {e : SszType α} (h : e.Sound) (hvar : e.variableSize = e.isVariableSize)
    {vs : List α} (hbits : e.BitsBalance vs)
    (hsize : ∀ x ∈ vs, e.size true x = (e.encode x).length) :
    sizeOfRange e.variableSize (e.size false) vs = (assemble (e.elementParts vs)).length := by
  rw [hvar, sizeOfRange]
  split
  · rename_i hvariable
    rw [e.elementParts_of_variable hvariable, sizeOfVariable_eq, length_assemble_variableParts,
      (e.sum_early_iff vs).mpr hbits, List.map_congr_left hsize]
  · rename_i hvariable
    have hfix := Bool.eq_false_iff.mpr hvariable
    have hconst : ∀ x ∈ vs, (e.encode x).length = e.fixedSize := fun x _ => h.length_encode hfix x
    rw [e.assemble_elementParts hfix, length_flatMap_const _ _ hconst]
    apply sizeOfFixed_eq
    intro x hx
    rw [SszType.size_early (SszType.isBitlist_of_fixed hfix), hsize x hx, hconst x hx]

mutual

theorem SszType.Sound.size_eq : {α : Type} → {τ : SszType α} → τ.Sound → (v : α) → τ.Fits v →
    τ.BitsAgree v → τ.size true v = (τ.encode v).length
  | _, .basic b, _, v, _, _ => (b.length_toBytes v).symm
  | _, .array _ _, h, v, hfit, hbits => SszType.sizeOfRange_eq h.2 h.1 hbits.1 fun x hx =>
    SszType.Sound.size_eq h.2 x (hfit x hx) (hbits.2 x hx)
  | _, .vector _, h, _, _, _ => h.elim
  | _, .list _ _, h, v, hfit, hbits => SszType.sizeOfRange_eq h.2 h.1 hbits.1 fun x hx =>
    SszType.Sound.size_eq h.2 x (hfit.1 x hx) (hbits.2 x hx)
  | _, .bitlist _, _, v, _, _ => by
    rw [SszType.encode, length_packBits, List.length_append, List.length_singleton, SszType.size,
      if_pos rfl]
    omega
  | _, .bitset n, _, v, _, _ => by rw [SszType.encode, length_packBits, v.2, SszType.size]
  | _, .container _ _, h, v, hfit, hbits => by
    have htotal := Members.Sound.computeTotalLength_eq h v hfit.2 hbits
    rwa [Nat.mod_eq_of_lt hfit.1] at htotal

theorem Members.Sound.computeTotalLength_eq : {α : Type} → {ms : Members α} → ms.Sound → (v : α) →
    ms.Fits v → ms.BitsAgree v → ms.computeTotalLength v = (assemble (ms.parts v)).length % 2 ^ 32
  | _, .nil, _, _, _, _ => rfl
  | _, .cons m ms, h, (v, vs), hfit, hbits => by
    have hm := SszType.Sound.size_eq h.2.1 v hfit.1 hbits.1
    have hms := Members.Sound.computeTotalLength_eq h.2.2 vs hfit.2 hbits.2
    simp only [Members.computeTotalLength, Members.parts, hm, hms, h.1, length_assemble,
      fixedLength_cons, tails_cons, List.length_append, sizePlusPlaceholder, Part.headLength,
      Part.tail, BYTES_PER_LENGTH_OFFSET]
    split
    · omega
    · rw [List.length_nil]
      omega

end

lemma SszType.size_eq (τ : SszType α) (h : τ.Encodable) (v : α) (hfit : τ.Fits v) :
    τ.size true v = (τ.encode v).length := h.regular.sound.size_eq v hfit (h.bitsAgree v)

theorem Members.Sound.computeFixedLength_eq : {α : Type} → {ms : Members α} → ms.Sound → (v : α) →
    ms.Fits v → ms.BitsAgree v → ms.computeFixedLength v = fixedLength (ms.parts v) % 2 ^ 32
  | _, .nil, _, _, _, _ => rfl
  | _, .cons m ms, h, (v, vs), hfit, hbits => by
    have hm := h.2.1.size_eq v hfit.1 hbits.1
    have hms := Members.Sound.computeFixedLength_eq h.2.2 vs hfit.2 hbits.2
    simp only [Members.computeFixedLength, Members.parts, hm, hms, h.1, fixedLength_cons,
      sizeOrPlaceholder, Part.headLength, BYTES_PER_LENGTH_OFFSET]
    split <;> omega

/-! ### What is written -/

lemma SszType.basicLayout_eq_some {e : SszType α} {layout : BasicLayout α}
    (h : e.basicLayout = some layout) :
    layout.toBytes = e.encode ∧ e.isVariableSize = false := by
  cases e with
  | basic b =>
    cases h
    exact ⟨rfl, rfl⟩
  | _ => cases h

lemma SszType.writes_range {e : SszType α} (hvariable : e.variableSize = e.isVariableSize) (vs : List α)
    (hser : ∀ x ∈ vs, Writes (e.serializeInPlace x) (e.encode x))
    (hsize : ∀ x ∈ vs, e.size true x = (e.encode x).length)
    (hoff : ∀ o ∈ offsets (fixedLength (e.elementParts vs)) (e.elementParts vs), o < 2 ^ 32) :
    Writes (fun pos buf => serializeRange e.basicLayout e.variableSize e.serializeInPlace
      (e.size true) pos vs buf) (assemble (e.elementParts vs)) := by
  unfold serializeRange
  cases hlayout : e.basicLayout with
  | some layout =>
    obtain ⟨hbytes, hfix⟩ := e.basicLayout_eq_some hlayout
    rw [e.assemble_elementParts hfix, ← hbytes]
    exact writes_basicRange layout.toBytes vs
  | none =>
    rw [hvariable]
    cases hvar : e.isVariableSize with
    | true =>
      rw [e.elementParts_of_variable hvar] at hoff ⊢
      exact writes_variableRange vs hser hsize hoff
    | false =>
      rw [e.assemble_elementParts hvar]
      exact writes_fixedRange vs hser hsize

lemma offsets_elementParts_of_fixed {e : SszType α} (hfix : e.isVariableSize = false)
    (vs : List α) (off : Nat) : offsets off (e.elementParts vs) = [] := by
  induction vs with
  | nil => rfl
  | cons v vs ih =>
    rw [SszType.elementParts, List.map_cons, offsets, hfix, if_neg Bool.false_ne_true, ← hfix]
    exact ih

def Members.items {α : Type} : Members α → α → List Item
  | .nil, _ => []
  | .cons m ms, (v, vs) => ⟨m.variableSize, m.serializeInPlace v, m.size true v⟩ :: ms.items vs

lemma Members.serializeMembers_eq_writeItems : {α : Type} → (ms : Members α) → (v : α) →
    (start result variablePos : Nat) → (buf : Bytes) →
    ms.serializeMembers v start result variablePos buf =
      writeItems start result variablePos (ms.items v) buf
  | _, .nil, _, _, _, _, _ => rfl
  | _, .cons m ms, (v, vs), start, result, variablePos, buf => by
    simp only [Members.serializeMembers, Members.items, writeItems, BYTES_PER_LENGTH_OFFSET,
      ms.serializeMembers_eq_writeItems]

mutual

theorem SszType.Regular.serializeInPlace_writes : {α : Type} → {τ : SszType α} → τ.Regular → (v : α) →
    τ.Fits v → τ.BitsAgree v → Writes (τ.serializeInPlace v) (τ.encode v)
  | _, .basic b, _, v, _, _ => writes_store (b.toBytes v)
  | _, .array _ _, h, v, hfit, hbits =>
    SszType.writes_range (h.2.1.trans h.1.symm) v.1
      (fun x hx => SszType.Regular.serializeInPlace_writes h.2.2 x (hfit x hx) (hbits.2 x hx))
      (fun x hx => h.2.2.sound.size_eq x (hfit x hx) (hbits.2 x hx))
      (by rw [offsets_elementParts_of_fixed h.1]; simp)
  | _, .vector _, h, _, _, _ => h.elim
  | _, .list _ _, h, v, hfit, hbits =>
    SszType.writes_range h.1 v
      (fun x hx => SszType.Regular.serializeInPlace_writes h.2 x (hfit.1 x hx) (hbits.2 x hx))
      (fun x hx => h.2.sound.size_eq x (hfit.1 x hx) (hbits.2 x hx)) hfit.2
  | _, .bitlist _, _, v, _, _ => writes_bitlist v
  | _, .bitset _, _, v, _, _ => writes_bitset v.1
  | _, .container variableSize ms, h, v, hfit, hbits => by
    by_cases hcount : ms.count = 1
    · have hsingle := Members.Regular.serializeSingle_writes h.2 hcount (h.1 hcount) v hfit.2 hbits
      simp only [SszType.serializeInPlace, if_pos hcount]
      exact hsingle
    · intro pre post
      have hlen := hfit.1
      rw [length_assemble] at hlen
      have hfixed := h.2.sound.computeFixedLength_eq v hfit.2 hbits
      rw [Nat.mod_eq_of_lt (by omega)] at hfixed
      have hwrites := writes_items (Members.Regular.items_writesPart h.2 v hfit.2 hbits) (fun o ho =>
        Nat.lt_of_le_of_lt (le_of_mem_offsets ho).2 hlen) pre post
      simp only [SszType.serializeInPlace, SszType.encode, if_neg hcount,
        Members.serializeMembers_eq_writeItems, hfixed]
      exact hwrites

theorem Members.Regular.serializeSingle_writes : {α : Type} → {ms : Members α} → ms.Regular →
    ms.count = 1 → ms.hasVariableSize = false → (v : α) → ms.Fits v → ms.BitsAgree v →
    Writes (ms.serializeSingle v) (assemble (ms.parts v))
  | _, .nil, _, hcount, _, _, _, _ => by cases hcount
  | _, .cons m .nil, h, _, hfix, (v, ()), hfit, hbits => by
    rw [Members.hasVariableSize, Bool.or_eq_false_iff] at hfix
    have hparts : assemble ((Members.cons m .nil).parts (v, ())) = m.encode v := by
      rw [Members.parts, Members.parts, hfix.1, assemble_of_fixed (by simp), List.flatMap_singleton]
    rw [hparts]
    exact SszType.Regular.serializeInPlace_writes h.2.1 v hfit.1 hbits.1
  | _, .cons _ (.cons _ _), _, hcount, _, _, _, _ => by simp [Members.count] at hcount

theorem Members.Regular.items_writesPart : {α : Type} → {ms : Members α} → ms.Regular → (v : α) →
    ms.Fits v → ms.BitsAgree v → List.Forall₂ Item.WritesPart (ms.items v) (ms.parts v)
  | _, .nil, _, _, _, _ => .nil
  | _, .cons _ _, h, (v, vs), hfit, hbits =>
    .cons ⟨h.1, SszType.Regular.serializeInPlace_writes h.2.1 v hfit.1 hbits.1,
        h.2.1.sound.size_eq v hfit.1 hbits.1⟩
      (Members.Regular.items_writesPart h.2.2 vs hfit.2 hbits.2)

end

lemma SszType.serializeInPlace_writes (τ : SszType α) (h : τ.Encodable) (v : α) (hfit : τ.Fits v) :
    Writes (τ.serializeInPlace v) (τ.encode v) :=
  h.regular.serializeInPlace_writes v hfit (h.bitsAgree v)

/-! ### The returning encoder -/

/-- The accumulator of the fold stays below the offset of the next element. -/
lemma totalSize_eq {size : α → Nat} {encode : α → Bytes} (vs : List α)
    (hsize : ∀ v ∈ vs, size v = (encode v).length)
    (hoff : ∀ o ∈ offsets (fixedLength (variableParts encode vs)) (variableParts encode vs),
      o < 2 ^ 32) :
    totalSize size vs = (assemble (variableParts encode vs)).length := by
  have hacc : ∀ n off, n + 4 * vs.length ≤ off →
      (∀ o ∈ offsets off (variableParts encode vs), o < 2 ^ 32) →
      vs.foldl (fun total val => (total % 2 ^ 32 + BYTES_PER_LENGTH_OFFSET) % 2 ^ 32 + size val) n =
        n + (fixedLength (variableParts encode vs) + (tails (variableParts encode vs)).length) := by
    clear hoff
    induction vs with
    | nil => simp
    | cons v vs ih =>
      intro n off hle hoff
      rw [variableParts_cons, offsets_variable] at hoff
      have hlt : off < 2 ^ 32 := hoff off (by simp)
      rw [List.length_cons] at hle
      have hmod : (n % 2 ^ 32 + BYTES_PER_LENGTH_OFFSET) % 2 ^ 32 = n + 4 := by
        rw [BYTES_PER_LENGTH_OFFSET, Nat.mod_eq_of_lt (by omega), Nat.mod_eq_of_lt (by omega)]
      rw [List.foldl_cons, hmod, hsize v (by simp),
        ih (fun w hw => hsize w (List.mem_cons_of_mem _ hw)) _ (off + (encode v).length) (by omega)
          (fun o ho => hoff o (List.mem_cons_of_mem _ ho)), variableParts_cons, fixedLength_cons,
        tails_cons, List.length_append, headLength_variable, tail_variable]
      omega
  have hfixed : fixedLength (variableParts encode vs) = 4 * vs.length :=
    fixedLength_variableParts encode vs
  rw [totalSize, hacc 0 _ (by omega) hoff, length_assemble, Nat.zero_add]

/-- The buffer of a range. -/
lemma SszType.rangeBuffer_eq {e : SszType α} (h : e.Sound) (hvar : e.variableSize = e.isVariableSize)
    {vs : List α} (hsize : ∀ x ∈ vs, e.size true x = (e.encode x).length)
    (hoff : ∀ o ∈ offsets (fixedLength (e.elementParts vs)) (e.elementParts vs), o < 2 ^ 32) :
    (if e.variableSize then totalSize (e.size true) vs else sizeOfFixed (e.size false) vs) =
      (assemble (e.elementParts vs)).length := by
  rw [hvar]
  split
  · rename_i hvariable
    rw [e.elementParts_of_variable hvariable] at hoff ⊢
    exact totalSize_eq vs hsize hoff
  · rename_i hvariable
    have hfix := Bool.eq_false_iff.mpr hvariable
    have hbits := SszType.bitsBalance_of_isBitlist (SszType.isBitlist_of_fixed hfix) vs
    rw [← SszType.sizeOfRange_eq h hvar hbits hsize, sizeOfRange, hvar, if_neg hvariable]

theorem SszType.Regular.bufferSize_eq {τ : SszType α} (h : τ.Regular) (v : α) (hfit : τ.Fits v)
    (hbits : τ.BitsAgree v) : τ.bufferSize v = (τ.encode v).length := by
  cases τ with
  | array e n =>
    exact SszType.rangeBuffer_eq h.2.2.sound (h.2.1.trans h.1.symm)
      (fun x hx => h.2.2.sound.size_eq x (hfit x hx) (hbits.2 x hx))
      (by rw [offsets_elementParts_of_fixed h.1]; simp)
  | list e limit =>
    exact SszType.rangeBuffer_eq h.2.sound h.1
      (fun x hx => h.2.sound.size_eq x (hfit.1 x hx) (hbits.2 x hx)) hfit.2
  | vector e => exact h.elim
  | _ => exact h.sound.size_eq v hfit hbits

theorem SszType.Regular.serialize_eq {τ : SszType α} (h : τ.Regular) (v : α) (hfit : τ.Fits v)
    (hbits : τ.BitsAgree v) : τ.serialize v = .ok (τ.encode v) := by
  have hwrites := h.serializeInPlace_writes v hfit hbits [] []
  rw [serialize, h.bufferSize_eq v hfit hbits]
  simpa using hwrites

lemma SszType.bufferSize_eq (τ : SszType α) (h : τ.Encodable) (v : α) (hfit : τ.Fits v) :
    τ.bufferSize v = (τ.encode v).length := h.regular.bufferSize_eq v hfit (h.bitsAgree v)

lemma SszType.serialize_eq_of_fits (τ : SszType α) (h : τ.Encodable) (v : α) (hfit : τ.Fits v) :
    τ.serialize v = .ok (τ.encode v) := h.regular.serialize_eq v hfit (h.bitsAgree v)

lemma length_encode_le_of_mem {e : SszType α} {vs : List α} {x : α} (hx : x ∈ vs) :
    (e.encode x).length ≤ (assemble (e.elementParts vs)).length := by
  have hpart : (⟨e.isVariableSize, e.encode x⟩ : Part) ∈ e.elementParts vs :=
    List.mem_map.mpr ⟨x, hx, rfl⟩
  exact length_bytes_le_assemble hpart

mutual

/-- A value whose encoding is shorter than `2 ^ 32` bytes fits. -/
theorem SszType.fits_of_length : {α : Type} → (τ : SszType α) → (v : α) →
    (τ.encode v).length < 2 ^ 32 → τ.Fits v
  | _, .basic _, _, _ => trivial
  | _, .array e _, _, hlen => fun x hx =>
    e.fits_of_length x (Nat.lt_of_le_of_lt (length_encode_le_of_mem hx) hlen)
  | _, .vector _, _, _ => trivial
  | _, .list e _, v, hlen => by
    refine ⟨fun x hx =>
      e.fits_of_length x (Nat.lt_of_le_of_lt (length_encode_le_of_mem hx) hlen), ?_⟩
    intro o ho
    have hle := (le_of_mem_offsets ho).2
    rw [SszType.encode, length_assemble] at hlen
    exact Nat.lt_of_le_of_lt hle hlen
  | _, .bitlist _, _, _ => trivial
  | _, .bitset _, _, _ => trivial
  | _, .container _ ms, v, hlen =>
    ⟨hlen, ms.fits_of_length v fun _ hp => Nat.lt_of_le_of_lt (length_bytes_le_assemble hp) hlen⟩

theorem Members.fits_of_length : {α : Type} → (ms : Members α) → (v : α) →
    (∀ p ∈ ms.parts v, p.bytes.length < 2 ^ 32) → ms.Fits v
  | _, .nil, _, _ => trivial
  | _, .cons m ms, (v, vs), hlen =>
    ⟨m.fits_of_length v (hlen ⟨m.isVariableSize, m.encode v⟩ (by simp [Members.parts])),
      ms.fits_of_length vs fun p hp => hlen p (by simp [Members.parts, hp])⟩

end

/-- On every value with an encoding shorter than `2 ^ 32` bytes, `serialize` allocates a buffer of
the length of the reference encoding and returns that encoding; the in-place call writes it at its
position of a zeroed area and nothing outside. -/
theorem serialize_eq_encode (τ : SszType α) (hτ : τ.Encodable) (v : α)
    (hlen : (τ.encode v).length < 2 ^ 32) :
    τ.bufferSize v = (τ.encode v).length ∧ τ.serialize v = .ok (τ.encode v) ∧
      Writes (τ.serializeInPlace v) (τ.encode v) :=
  have hfit := τ.fits_of_length v hlen
  ⟨τ.bufferSize_eq hτ v hfit, τ.serialize_eq_of_fits hτ v hfit, τ.serializeInPlace_writes hτ v hfit⟩

/-- A 16-bit integer, a list of byte lists and a bitlist. -/
def sampleType : SszType (BitVec 16 × List (List (BitVec 8)) × List Bool × Unit) :=
  .container true
    (.cons (.basic .uint16) (.cons (.list (.list (.basic .uint8) 4) 4) (.cons (.bitlist 9) .nil)))

def sampleValue : BitVec 16 × List (List (BitVec 8)) × List Bool × Unit :=
  (0x0102, [[], [5, 6]], [true, false, true], ())

lemma encodable_sampleType : sampleType.Encodable :=
  ⟨by decide, rfl, trivial, ⟨rfl, rfl, rfl, rfl, rfl, rfl, trivial⟩, trivial, trivial⟩

theorem serialize_eq_encode_sample :
    sampleType.bufferSize sampleValue = (sampleType.encode sampleValue).length ∧
      sampleType.serialize sampleValue = .ok (sampleType.encode sampleValue) ∧
      Writes (sampleType.serializeInPlace sampleValue) (sampleType.encode sampleValue) :=
  serialize_eq_encode sampleType encodable_sampleType sampleValue (by decide)

end Sszpp
