import Mathlib.Algebra.Order.BigOperators.Group.List
import Sszpp.Proofs.Reach

/-!
# `ssz::size` and the length of what is serialized

Buffers are allocated by `ssz::size`, except those of ranges of variable-size elements, where the
returning encoder adds up the sizes itself and sees the overload for bitlists that `size` does not see.
Sizes, cursors and buffers follow one layout, that of the declarations: it is the layout of the reference
encoding where types are declared as they are encoded.
-/

namespace Sszpp

open Library

variable {α : Type}

/-- `ssz::size` is the number of bytes of `serialize`. -/
def SizeTells (τ : SszType α) (v : α) : Prop :=
  ∃ out, τ.serialize v = .ok out ∧ out.length = τ.size true v

/-- The same for a `std::vector<bool>`. -/
def SizeTellsBits (r : List Bool) : Prop :=
  ∃ out, serializeVectorBool r = .ok out ∧ out.length = sizeVectorBool r

mutual

/-- `ssz::size` tells the number of bytes of the value and of every object in it. -/
def SszType.Truthful {α : Type} : SszType α → α → Prop
  | .basic b, v => SizeTells (.basic b) v
  | .array e n, v => SizeTells (.array e n) v ∧ ∀ x ∈ v.1, e.Truthful x
  | .vector e, v => SizeTells (.vector e) v ∧ ∀ x ∈ v, e.Truthful x
  | .list e limit, v => SizeTells (.list e limit) v ∧ ∀ x ∈ v, e.Truthful x
  | .bitlist limit, v => SizeTells (.bitlist limit) v
  | .bitset n, v => SizeTells (.bitset n) v
  | .container variableSize ms, v => SizeTells (.container variableSize ms) v ∧ ms.Truthful v

def Members.Truthful {α : Type} : Members α → α → Prop
  | .nil, _ => True
  | .cons m ms, (v, vs) => m.Truthful v ∧ ms.Truthful vs

end

/-! ### The layout of the declarations -/

/-- What an element or a member adds to the layout: its bytes and those of its offset. -/
def entryLength (isVariable : Bool) (n : Nat) : Nat := if isVariable then n + 4 else n

mutual

/-- The number of bytes of a value when its elements and members are laid out as they are declared. -/
def SszType.layoutLength {α : Type} : SszType α → α → Nat
  | .basic b, _ => b.sizeof
  | .array e _, v => (v.1.map fun x => entryLength e.variableSize (e.layoutLength x)).sum
  | .vector e, v => (v.map fun x => entryLength e.variableSize (e.layoutLength x)).sum
  | .list e _, v => (v.map fun x => entryLength e.variableSize (e.layoutLength x)).sum
  | .bitlist _, v => v.length / 8 + 1
  | .bitset n, _ => (n + 7) / 8
  | .container _ ms, v => ms.layoutLength v

def Members.layoutLength {α : Type} : Members α → α → Nat
  | .nil, _ => 0
  | .cons m ms, (v, vs) => entryLength m.variableSize (m.layoutLength v) + ms.layoutLength vs

end

abbrev SszType.elementsLength (e : SszType α) (vs : List α) : Nat :=
  (vs.map fun x => entryLength e.variableSize (e.layoutLength x)).sum

/-- Elements declared of fixed size are as long as one another. -/
def SszType.OneLength (e : SszType α) (vs : List α) : Prop :=
  e.variableSize = false → ∀ x ∈ vs, ∀ y ∈ vs, e.layoutLength x = e.layoutLength y

mutual

/-- The values in which each range of elements declared of fixed size has elements of one length. -/
def SszType.Uniform {α : Type} : SszType α → α → Prop
  | .basic _, _ => True
  | .array e _, v => e.OneLength v.1 ∧ ∀ x ∈ v.1, e.Uniform x
  | .vector e, v => e.OneLength v ∧ ∀ x ∈ v, e.Uniform x
  | .list e _, v => e.OneLength v ∧ ∀ x ∈ v, e.Uniform x
  | .bitlist _, _ => True
  | .bitset _, _ => True
  | .container _ ms, v => ms.Uniform v

def Members.Uniform {α : Type} : Members α → α → Prop
  | .nil, _ => True
  | .cons m ms, (v, vs) => m.Uniform v ∧ ms.Uniform vs

end

lemma le_entryLength (isVariable : Bool) (n : Nat) : n ≤ entryLength isVariable n := by
  unfold entryLength
  split <;> omega

lemma SszType.elementsLength_of_variable {e : SszType α} (h : e.variableSize = true) (vs : List α) :
    e.elementsLength vs = vs.length * 4 + (vs.map e.layoutLength).sum := by
  induction vs with
  | nil => rfl
  | cons v vs ih =>
    simp only [elementsLength, List.map_cons, List.sum_cons, List.length_cons] at ih ⊢
    rw [ih, entryLength, if_pos h]
    omega

lemma SszType.elementsLength_of_fixed {e : SszType α} (h : e.variableSize = false) (vs : List α) :
    e.elementsLength vs = (vs.map e.layoutLength).sum := by
  simp only [elementsLength, entryLength, h, Bool.false_eq_true, if_false]

lemma SszType.le_elementsLength {e : SszType α} {vs : List α} {x : α} (hx : x ∈ vs) :
    e.layoutLength x ≤ e.elementsLength vs :=
  (le_entryLength _ _).trans (List.le_sum_of_mem (List.mem_map_of_mem hx))

/-! ### The layout and the reference encoding -/

/-- For elements declared as they are encoded. -/
lemma SszType.elementsLength_eq {e : SszType α} (hvar : e.variableSize = e.isVariableSize) {vs : List α}
    (hlen : ∀ x ∈ vs, e.layoutLength x = (e.encode x).length) :
    e.elementsLength vs = (assemble (e.elementParts vs)).length := by
  have hsum : (vs.map e.layoutLength).sum = (vs.map fun x => (e.encode x).length).sum :=
    congrArg List.sum (List.map_congr_left hlen)
  cases hvariable : e.isVariableSize with
  | true =>
    rw [SszType.elementsLength_of_variable (hvar.trans hvariable), e.elementParts_of_variable hvariable,
      length_assemble_variableParts, hsum]
  | false =>
    rw [SszType.elementsLength_of_fixed (hvar.trans hvariable), e.assemble_elementParts hvariable,
      List.length_flatMap, hsum]

mutual

theorem SszType.Sound.layoutLength_eq : {α : Type} → {τ : SszType α} → τ.Sound → (v : α) →
    τ.layoutLength v = (τ.encode v).length
  | _, .basic b, _, v => (b.length_toBytes v).symm
  | _, .array _ _, h, _ => SszType.elementsLength_eq h.1 fun x _ => SszType.Sound.layoutLength_eq h.2 x
  | _, .vector _, h, _ => h.elim
  | _, .list _ _, h, _ => SszType.elementsLength_eq h.1 fun x _ => SszType.Sound.layoutLength_eq h.2 x
  | _, .bitlist _, _, v => by
    rw [SszType.encode, length_packBits, List.length_append, List.length_singleton, SszType.layoutLength]
    omega
  | _, .bitset n, _, v => by rw [SszType.encode, length_packBits, v.2, SszType.layoutLength]
  | _, .container _ _, h, v => by
    rw [SszType.encode, length_assemble]
    exact Members.Sound.layoutLength_eq h v

theorem Members.Sound.layoutLength_eq : {α : Type} → {ms : Members α} → ms.Sound → (v : α) →
    ms.layoutLength v = fixedLength (ms.parts v) + (tails (ms.parts v)).length
  | _, .nil, _, _ => rfl
  | _, .cons m ms, h, (v, vs) => by
    have hm := SszType.Sound.layoutLength_eq h.2.1 v
    have hms := Members.Sound.layoutLength_eq h.2.2 vs
    simp only [Members.layoutLength, Members.parts, fixedLength_cons, tails_cons, List.length_append,
      Part.headLength, Part.tail, entryLength, h.1, hm, hms]
    split
    · omega
    · rw [List.length_nil]
      omega

end

lemma SszType.Sound.oneLength {e : SszType α} (h : e.Sound) (hvar : e.variableSize = e.isVariableSize)
    (vs : List α) : e.OneLength vs := by
  intro hfix x _ y _
  rw [hvar] at hfix
  rw [h.layoutLength_eq, h.layoutLength_eq, h.length_encode hfix, h.length_encode hfix]

mutual

theorem SszType.Sound.uniform : {α : Type} → {τ : SszType α} → τ.Sound → (v : α) → τ.Uniform v
  | _, .basic _, _, _ => trivial
  | _, .array _ _, h, v => ⟨h.2.oneLength h.1 v.1, fun x _ => SszType.Sound.uniform h.2 x⟩
  | _, .vector _, h, _ => h.elim
  | _, .list _ _, h, v => ⟨h.2.oneLength h.1 v, fun x _ => SszType.Sound.uniform h.2 x⟩
  | _, .bitlist _, _, _ => trivial
  | _, .bitset _, _, _ => trivial
  | _, .container _ _, h, v => Members.Sound.uniform h v

theorem Members.Sound.uniform : {α : Type} → {ms : Members α} → ms.Sound → (v : α) → ms.Uniform v
  | _, .nil, _, _ => trivial
  | _, .cons _ _, h, (v, vs) => ⟨SszType.Sound.uniform h.2.1 v, Members.Sound.uniform h.2.2 vs⟩

end

/-! ### Sizes and cursors follow the layout -/

/-- The accumulator of the fold stays below the length of the layout. -/
lemma totalSize_of_lt {size : α → Nat} {vs : List α} (h : vs.length * 4 + (vs.map size).sum < 2 ^ 32) :
    totalSize size vs = vs.length * 4 + (vs.map size).sum := by
  have hacc : ∀ n, n + (vs.length * 4 + (vs.map size).sum) < 2 ^ 32 →
      vs.foldl (fun total val => (total % 2 ^ 32 + BYTES_PER_LENGTH_OFFSET) % 2 ^ 32 + size val) n =
        n + (vs.length * 4 + (vs.map size).sum) := by
    clear h
    induction vs with
    | nil => simp
    | cons v vs ih =>
      intro n hlt
      rw [List.length_cons, List.map_cons, List.sum_cons] at hlt ⊢
      have hmod : (n % 2 ^ 32 + BYTES_PER_LENGTH_OFFSET) % 2 ^ 32 = n + 4 := by
        rw [BYTES_PER_LENGTH_OFFSET, Nat.mod_eq_of_lt (by omega), Nat.mod_eq_of_lt (by omega)]
      rw [List.foldl_cons, hmod, ih _ (by omega)]
      omega
  rw [totalSize, hacc 0 (by omega), Nat.zero_add]

section Elements

variable {e : SszType α} {vs : List α}

/-- Where the first element stands for all. -/
lemma SszType.sizeOfFixed_layout (hvar : e.variableSize = false) (hone : e.OneLength vs)
    (hsize : ∀ x ∈ vs, e.size true x = e.layoutLength x) :
    sizeOfFixed (e.size false) vs = e.elementsLength vs := by
  have hbitlist : e.isBitlist = false := by
    cases e with
    | bitlist limit => cases hvar
    | _ => rfl
  rw [SszType.elementsLength_of_fixed hvar]
  cases vs with
  | nil => rfl
  | cons v vs =>
    have hconst : ∀ x ∈ v :: vs, e.layoutLength x = e.layoutLength v := fun x hx =>
      hone hvar x hx v List.mem_cons_self
    rw [sum_map_const hconst]
    apply sizeOfFixed_eq
    intro x hx
    rw [SszType.size_early hbitlist, hsize x hx, hconst x hx]

lemma SszType.sizeOfRange_layout (hone : e.OneLength vs) (hbits : e.BitsBalance vs)
    (hsize : ∀ x ∈ vs, e.size true x = e.layoutLength x) :
    sizeOfRange e.variableSize (e.size false) vs = e.elementsLength vs := by
  rw [sizeOfRange]
  split
  · rename_i hvar
    rw [SszType.elementsLength_of_variable hvar, sizeOfVariable_eq, (e.sum_early_iff vs).mpr hbits,
      List.map_congr_left hsize]
  · rename_i hvar
    exact SszType.sizeOfFixed_layout (Bool.eq_false_iff.mpr hvar) hone hsize

/-- The returning encoder of a range allocates the layout, whatever `size` says. -/
lemma SszType.rangeBuffer_layout (hone : e.OneLength vs)
    (hsize : ∀ x ∈ vs, e.size true x = e.layoutLength x) (hlen : e.elementsLength vs < 2 ^ 32) :
    (if e.variableSize then totalSize (e.size true) vs else sizeOfFixed (e.size false) vs) =
      e.elementsLength vs := by
  split
  · rename_i hvar
    rw [SszType.elementsLength_of_variable hvar, ← List.map_congr_left hsize] at hlen ⊢
    exact totalSize_of_lt hlen
  · rename_i hvar
    exact SszType.sizeOfFixed_layout (Bool.eq_false_iff.mpr hvar) hone hsize

/-- A range whose elements do not reach beyond their layouts. -/
lemma SszType.rangeReach_le (hsize : ∀ x ∈ vs, e.size true x = e.layoutLength x)
    (hreach : ∀ x ∈ vs, e.reach x ≤ e.layoutLength x) :
    rangeReach e.variableSize e.reach (e.size true) vs ≤ e.elementsLength vs := by
  have hslots : ∀ s ∈ elementSlots e.variableSize e.reach (e.size true) vs, s.reach ≤ s.size := by
    intro s hs
    obtain ⟨x, hx, rfl⟩ := List.mem_map.mp hs
    exact (hreach x hx).trans (hsize x hx).ge
  have hextent := extent_le hslots 0 (vs.length * 4)
  rw [headLength_elementSlots, tailLength_elementSlots, List.map_congr_left hsize, zero_endOf] at hextent
  apply hextent.trans
  cases hvar : e.variableSize with
  | true =>
    have hend := endOf_le (vs.length * 4) (vs.map e.layoutLength).sum
    rw [SszType.elementsLength_of_variable hvar, if_pos rfl, if_pos rfl]
    omega
  | false =>
    rw [SszType.elementsLength_of_fixed hvar, if_neg Bool.false_ne_true, if_neg Bool.false_ne_true,
      endOf_zero, Nat.max_zero]

/-- A range whose size and buffer agree. -/
lemma SszType.bitsBalance_of_size (hone : e.OneLength vs)
    (hsize : ∀ x ∈ vs, e.size true x = e.layoutLength x) (hlen : e.elementsLength vs < 2 ^ 32)
    (hbuffer : (if e.variableSize then totalSize (e.size true) vs else sizeOfFixed (e.size false) vs) =
      sizeOfRange e.variableSize (e.size false) vs) : e.BitsBalance vs := by
  rw [SszType.rangeBuffer_layout hone hsize hlen, sizeOfRange] at hbuffer
  split at hbuffer
  · rename_i hvar
    rw [SszType.elementsLength_of_variable hvar, sizeOfVariable_eq, ← List.map_congr_left hsize] at hbuffer
    exact (e.sum_early_iff vs).mp (by omega)
  · rename_i hvar
    apply SszType.bitsBalance_of_isBitlist
    cases e with
    | bitlist limit => exact absurd rfl hvar
    | _ => rfl

end Elements

mutual

theorem SszType.size_eq_layoutLength : {α : Type} → (τ : SszType α) → (v : α) → τ.Uniform v →
    τ.BitsAgree v → τ.layoutLength v < 2 ^ 32 → τ.size true v = τ.layoutLength v
  | _, .basic _, _, _, _, _ => rfl
  | _, .array e _, _, h, hbits, hlen => SszType.sizeOfRange_layout h.1 hbits.1 fun x hx =>
    e.size_eq_layoutLength x (h.2 x hx) (hbits.2 x hx) ((SszType.le_elementsLength hx).trans_lt hlen)
  | _, .vector e, _, h, hbits, hlen => SszType.sizeOfRange_layout h.1 hbits.1 fun x hx =>
    e.size_eq_layoutLength x (h.2 x hx) (hbits.2 x hx) ((SszType.le_elementsLength hx).trans_lt hlen)
  | _, .list e _, _, h, hbits, hlen => SszType.sizeOfRange_layout h.1 hbits.1 fun x hx =>
    e.size_eq_layoutLength x (h.2 x hx) (hbits.2 x hx) ((SszType.le_elementsLength hx).trans_lt hlen)
  | _, .bitlist _, _, _, _, _ => rfl
  | _, .bitset _, _, _, _, _ => rfl
  | _, .container _ ms, v, h, hbits, hlen => ms.computeTotalLength_eq_layoutLength v h hbits hlen

theorem Members.computeTotalLength_eq_layoutLength : {α : Type} → (ms : Members α) → (v : α) →
    ms.Uniform v → ms.BitsAgree v → ms.layoutLength v < 2 ^ 32 →
    ms.computeTotalLength v = ms.layoutLength v
  | _, .nil, _, _, _, _ => rfl
  | _, .cons m ms, (v, vs), h, hbits, hlen => by
    have hle := le_entryLength m.variableSize (m.layoutLength v)
    rw [Members.layoutLength] at hlen ⊢
    have hm := m.size_eq_layoutLength v h.1 hbits.1 (by omega)
    have hms := ms.computeTotalLength_eq_layoutLength vs h.2 hbits.2 (by omega)
    rw [Members.computeTotalLength, hm, hms, sizePlusPlaceholder, BYTES_PER_LENGTH_OFFSET]
    unfold entryLength at hlen ⊢
    split at hlen
    · rename_i hvar
      rw [if_pos hvar, if_pos hvar]
      omega
    · rename_i hvar
      rw [if_neg hvar, if_neg hvar]
      omega

end

lemma SszType.size_eq_of_mem {e : SszType α} {vs : List α} (h : ∀ x ∈ vs, e.Uniform x)
    (hbits : ∀ x ∈ vs, e.BitsAgree x) (hlen : e.elementsLength vs < 2 ^ 32) :
    ∀ x ∈ vs, e.size true x = e.layoutLength x :=
  fun x hx => e.size_eq_layoutLength x (h x hx) (hbits x hx) ((SszType.le_elementsLength hx).trans_lt hlen)

mutual

/-- No encoder writes beyond the layout. The bytes of a container with one member of variable size
end four bytes before. -/
theorem SszType.reach_le_layoutLength : {α : Type} → (τ : SszType α) → (v : α) → τ.Uniform v →
    τ.BitsAgree v → τ.layoutLength v < 2 ^ 32 → τ.reach v ≤ τ.layoutLength v
  | _, .basic _, _, _, _, _ => le_rfl
  | _, .array e _, _, h, hbits, hlen =>
    SszType.rangeReach_le (SszType.size_eq_of_mem h.2 hbits.2 hlen) fun x hx =>
      e.reach_le_layoutLength x (h.2 x hx) (hbits.2 x hx) ((SszType.le_elementsLength hx).trans_lt hlen)
  | _, .vector e, _, h, hbits, hlen =>
    SszType.rangeReach_le (SszType.size_eq_of_mem h.2 hbits.2 hlen) fun x hx =>
      e.reach_le_layoutLength x (h.2 x hx) (hbits.2 x hx) ((SszType.le_elementsLength hx).trans_lt hlen)
  | _, .list e _, _, h, hbits, hlen =>
    SszType.rangeReach_le (SszType.size_eq_of_mem h.2 hbits.2 hlen) fun x hx =>
      e.reach_le_layoutLength x (h.2 x hx) (hbits.2 x hx) ((SszType.le_elementsLength hx).trans_lt hlen)
  | _, .bitlist _, _, _, _, _ => le_rfl
  | _, .bitset _, _, _, _, _ => le_rfl
  | _, .container _ ms, v, h, hbits, hlen => by
    obtain ⟨hslots, hsum, hfixed⟩ := ms.slots_le v h hbits hlen
    rw [SszType.layoutLength, ← hsum, SszType.reach]
    split
    · rename_i hcount
      obtain ⟨s, heq, hreach⟩ := Members.reachSingle_mem hcount v
      have hle := hslots s (by rw [heq]; exact List.mem_cons_self)
      rw [heq, headLength_cons, tailLength_cons, Slot.head, Slot.tail, hreach]
      split <;> omega
    · have hextent := extent_le hslots 0 (headLength (ms.slots v))
      have hend := endOf_le (headLength (ms.slots v)) (tailLength (ms.slots v))
      rw [zero_endOf] at hextent
      rw [hfixed]
      omega

theorem Members.slots_le : {α : Type} → (ms : Members α) → (v : α) → ms.Uniform v → ms.BitsAgree v →
    ms.layoutLength v < 2 ^ 32 → (∀ s ∈ ms.slots v, s.reach ≤ s.size) ∧
      headLength (ms.slots v) + tailLength (ms.slots v) = ms.layoutLength v ∧
      ms.computeFixedLength v = headLength (ms.slots v)
  | _, .nil, _, _, _, _ => ⟨nofun, rfl, rfl⟩
  | _, .cons m ms, (v, vs), h, hbits, hlen => by
    have hle := le_entryLength m.variableSize (m.layoutLength v)
    rw [Members.layoutLength] at hlen ⊢
    have hsize := m.size_eq_layoutLength v h.1 hbits.1 (by omega)
    have hreach := m.reach_le_layoutLength v h.1 hbits.1 (by omega)
    obtain ⟨hslots, hsum, hfixed⟩ := ms.slots_le vs h.2 hbits.2 (by omega)
    have hsum' : headLength ((Members.cons m ms).slots (v, vs)) + tailLength ((Members.cons m ms).slots (v, vs)) =
        entryLength m.variableSize (m.layoutLength v) + ms.layoutLength vs := by
      rw [Members.slots, headLength_cons, tailLength_cons, hsize, ← hsum, entryLength]
      simp only [Slot.head, Slot.tail]
      split <;> omega
    refine ⟨List.forall_mem_cons.mpr ⟨hreach.trans hsize.ge, hslots⟩, hsum', ?_⟩
    have hhead : headLength ((Members.cons m ms).slots (v, vs)) < 2 ^ 32 := by omega
    simp only [Members.slots, headLength_cons, Slot.head] at hhead ⊢
    rw [Members.computeFixedLength, hfixed, sizeOrPlaceholder, BYTES_PER_LENGTH_OFFSET]
    split at hhead
    · rename_i hvar
      rw [if_pos hvar, if_pos hvar]
      omega
    · rename_i hvar
      rw [if_neg hvar, if_neg hvar]
      omega

end

lemma SszType.bufferSize_eq_layoutLength {τ : SszType α} {v : α} (h : τ.Uniform v) (hbits : τ.BitsAgree v)
    (hlen : τ.layoutLength v < 2 ^ 32) : τ.bufferSize v = τ.layoutLength v := by
  cases τ with
  | array e n => exact SszType.rangeBuffer_layout h.1 (SszType.size_eq_of_mem h.2 hbits.2 hlen) hlen
  | vector e => exact SszType.rangeBuffer_layout h.1 (SszType.size_eq_of_mem h.2 hbits.2 hlen) hlen
  | list e limit => exact SszType.rangeBuffer_layout h.1 (SszType.size_eq_of_mem h.2 hbits.2 hlen) hlen
  | _ => exact SszType.size_eq_layoutLength _ v h hbits hlen

lemma SszType.sizeTells {τ : SszType α} {v : α} (h : τ.Uniform v) (hbits : τ.BitsAgree v)
    (hlen : τ.layoutLength v < 2 ^ 32) : SizeTells τ v := by
  rw [SizeTells, SszType.serialize_returns_iff, τ.size_eq_layoutLength v h hbits hlen]
  exact ⟨SszType.bufferSize_eq_layoutLength h hbits hlen, τ.reach_le_layoutLength v h hbits hlen⟩

/-! ### Where the two sizes of a bitlist differ -/

lemma SszType.truthful_range_iff {e : SszType α} {vs : List α} {tells : Prop}
    (helem : ∀ x ∈ vs, (e.Truthful x ↔ e.BitsAgree x))
    (htells : e.BitsBalance vs ∧ (∀ x ∈ vs, e.BitsAgree x) → tells)
    (hbalance : tells → (∀ x ∈ vs, e.BitsAgree x) → e.BitsBalance vs) :
    (tells ∧ ∀ x ∈ vs, e.Truthful x) ↔ e.BitsBalance vs ∧ ∀ x ∈ vs, e.BitsAgree x := by
  constructor
  · rintro ⟨hsize, htruth⟩
    have hagree : ∀ x ∈ vs, e.BitsAgree x := fun x hx => (helem x hx).mp (htruth x hx)
    exact ⟨hbalance hsize hagree, hagree⟩
  · exact fun hbits => ⟨htells hbits, fun x hx => (helem x hx).mpr (hbits.2 x hx)⟩

mutual

theorem SszType.truthful_iff : {α : Type} → (τ : SszType α) → (v : α) → τ.Uniform v →
    τ.layoutLength v < 2 ^ 32 → (τ.Truthful v ↔ τ.BitsAgree v)
  | _, .basic _, _, h, hlen => ⟨fun _ => trivial, fun hbits => SszType.sizeTells h hbits hlen⟩
  | _, .array e _, _, h, hlen => SszType.truthful_range_iff
    (fun x hx => e.truthful_iff x (h.2 x hx) ((SszType.le_elementsLength hx).trans_lt hlen))
    (fun hbits => SszType.sizeTells h hbits hlen)
    fun hsize hagree => SszType.bitsBalance_of_size h.1 (SszType.size_eq_of_mem h.2 hagree hlen) hlen
      (SszType.serialize_returns_iff.mp hsize).1
  | _, .vector e, _, h, hlen => SszType.truthful_range_iff
    (fun x hx => e.truthful_iff x (h.2 x hx) ((SszType.le_elementsLength hx).trans_lt hlen))
    (fun hbits => SszType.sizeTells h hbits hlen)
    fun hsize hagree => SszType.bitsBalance_of_size h.1 (SszType.size_eq_of_mem h.2 hagree hlen) hlen
      (SszType.serialize_returns_iff.mp hsize).1
  | _, .list e _, _, h, hlen => SszType.truthful_range_iff
    (fun x hx => e.truthful_iff x (h.2 x hx) ((SszType.le_elementsLength hx).trans_lt hlen))
    (fun hbits => SszType.sizeTells h hbits hlen)
    fun hsize hagree => SszType.bitsBalance_of_size h.1 (SszType.size_eq_of_mem h.2 hagree hlen) hlen
      (SszType.serialize_returns_iff.mp hsize).1
  | _, .bitlist _, _, h, hlen => ⟨fun _ => trivial, fun hbits => SszType.sizeTells h hbits hlen⟩
  | _, .bitset _, _, h, hlen => ⟨fun _ => trivial, fun hbits => SszType.sizeTells h hbits hlen⟩
  | _, .container _ ms, v, h, hlen => by
    have hmembers := ms.truthful_iff v h hlen
    exact ⟨fun htruth => hmembers.mp htruth.2,
      fun hbits => ⟨SszType.sizeTells h hbits hlen, hmembers.mpr hbits⟩⟩

theorem Members.truthful_iff : {α : Type} → (ms : Members α) → (v : α) → ms.Uniform v →
    ms.layoutLength v < 2 ^ 32 → (ms.Truthful v ↔ ms.BitsAgree v)
  | _, .nil, _, _, _ => Iff.rfl
  | _, .cons m ms, (v, vs), h, hlen => by
    have hle := le_entryLength m.variableSize (m.layoutLength v)
    rw [Members.layoutLength] at hlen
    exact and_congr (m.truthful_iff v h.1 (by omega)) (ms.truthful_iff vs h.2 (by omega))

end

/-- For types whose elements and members are declared as they are encoded, the layout is that of the
reference encoding. -/
theorem SszType.Sound.truthful_iff {τ : SszType α} (h : τ.Sound) {v : α} (hlen : (τ.encode v).length < 2 ^ 32) :
    τ.Truthful v ↔ τ.BitsAgree v :=
  τ.truthful_iff v (h.uniform v) (by rwa [h.layoutLength_eq])

/-- The buffer of a `std::vector<bool>` has a byte for a delimiter, which is not sized. -/
lemma sizeTellsBits_iff (r : List Bool) : SizeTellsBits r ↔ r.length % 8 ≠ 0 := by
  have hpacked : ((pieces 8 r).map eightBitsToByte).length = (r.length + 7) / 8 := by
    rw [map_eightBitsToByte, length_packBits]
  have hneeds := needs_store 0 ((pieces 8 r).map eightBitsToByte) (length_zeros (r.length / 8 + 1))
  obtain ⟨out, hrun, hlen⟩ := hneeds.1 (by omega)
  constructor
  · rintro ⟨out', hrun', hlen'⟩
    obtain rfl := Except.ok.inj (hrun.symm.trans hrun')
    rw [hlen, sizeVectorBool] at hlen'
    omega
  · intro hmod
    exact ⟨out, hrun, by rw [hlen, sizeVectorBool]; omega⟩

/-- `ssz::size` tells the number of bytes of a value and of the objects in it exactly when the bitlists
in each of its ranges have as many bits as bytes, and that of a `std::vector<bool>` when its bits do
not fill their bytes. -/
theorem size_tells_iff (τ : SszType α) (v : α) (h : τ.Uniform v) (hlen : τ.layoutLength v < 2 ^ 32)
    (r : List Bool) :
    (τ.Truthful v ↔ τ.BitsAgree v) ∧ (SizeTellsBits r ↔ r.length % 8 ≠ 0) :=
  ⟨τ.truthful_iff v h hlen, sizeTellsBits_iff r⟩

theorem size_tells_iff_sample :
    (sampleType.Truthful sampleValue ↔ sampleType.BitsAgree sampleValue) ∧
      (SizeTellsBits [true] ↔ [true].length % 8 ≠ 0) :=
  size_tells_iff sampleType sampleValue (encodable_sampleType.regular.sound.uniform sampleValue)
    (by decide) [true]

/-- `ssz::list<ssz::list<bool, 8>, 4>` -/
def bitlistList : SszType (List (List Bool)) := .list (.bitlist 8) 4

/-- A list with one empty bitlist, and 24 bits. -/
theorem size_misses :
    bitlistList.size true [[]] = 4 ∧ bitlistList.serialize [[]] = .ok [4, 0, 0, 0, 1] ∧
      ¬ SizeTells bitlistList [[]] ∧ sizeVectorBool (List.replicate 24 true) = 3 ∧
      serializeVectorBool (List.replicate 24 true) = .ok [0xff, 0xff, 0xff, 0] := by
  have hrun : bitlistList.serialize [[]] = .ok [4, 0, 0, 0, 1] := by decide
  refine ⟨by decide, hrun, ?_, by decide, by decide⟩
  rintro ⟨out, hout, hlen⟩
  obtain rfl := Except.ok.inj (hrun.symm.trans hout)
  exact absurd hlen (by decide)

end Sszpp
