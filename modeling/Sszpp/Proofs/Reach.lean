import Mathlib.Data.List.Forall2
import Sszpp.Library.Extent
import Sszpp.Proofs.Encoding

/-!
# Where the in-place encoders end

An in-place encoder returns exactly when its buffer holds all it writes. The end of its furthest
write depends on the value alone, through the sizes by which the cursors advance; nothing an encoder
does throws.
-/

namespace Sszpp

open Library

variable {α : Type}

/-- The run returns a buffer of length `len` if that is at least `n`, and else writes outside. -/
def Needs (len n : Nat) (x : Outcome Bytes) : Prop :=
  (n ≤ len → ∃ out, x = .ok out ∧ out.length = len) ∧ (len < n → x = .error (.undefined .write))

/-- The encoder needs room for `n` bytes from its position on. -/
def Reaches (f : Nat → Bytes → Outcome Bytes) (n : Nat) : Prop :=
  ∀ pos buf, Needs buf.length (endOf pos n) (f pos buf)

section Needs

variable {len n m : Nat}

lemma needs_ok {buf : Bytes} (h : buf.length = len) : Needs len 0 (.ok buf) :=
  ⟨fun _ => ⟨buf, rfl, h⟩, fun h => by omega⟩

lemma Needs.bind {x : Outcome Bytes} {f : Bytes → Outcome Bytes} (hx : Needs len n x)
    (hf : ∀ buf, buf.length = len → Needs len m (f buf)) : Needs len (max n m) (x >>= f) := by
  constructor
  · intro hle
    obtain ⟨mid, rfl, hmid⟩ := hx.1 (by omega)
    exact (hf mid hmid).1 (by omega)
  · intro hlt
    rcases Nat.lt_or_ge len n with h | h
    · rw [hx.2 h, Outcome.error_bind]
    · obtain ⟨mid, rfl, hmid⟩ := hx.1 h
      exact (hf mid hmid).2 (by omega)

lemma needs_store (pos : Nat) (bs : Bytes) {buf : Bytes} (h : buf.length = len) :
    Needs len (pos + bs.length) (store pos bs buf) := by
  unfold store
  subst h
  constructor
  · intro hle
    refine ⟨_, if_pos hle, ?_⟩
    simp only [List.length_append, List.length_take, List.length_drop]
    omega
  · intro hlt
    exact if_neg (by omega)

lemma needs_orByte (pos : Nat) (x : Byte) {buf : Bytes} (h : buf.length = len) :
    Needs len (pos + 1) (orByte pos x buf) := by
  unfold orByte
  subst h
  constructor
  · intro hle
    rw [List.getElem?_eq_getElem (by omega)]
    exact ⟨_, rfl, List.length_set⟩
  · intro hlt
    rw [List.getElem?_eq_none (by omega)]

end Needs

lemma reaches_store {bs : Bytes} (h : 0 < bs.length) : Reaches (fun pos buf => store pos bs buf) bs.length := by
  intro pos buf
  rw [endOf_of_pos pos h]
  exact needs_store pos bs rfl

lemma reaches_bitlist (bits : List Bool) :
    Reaches (fun pos buf => serializeBitlist pos bits buf) (bits.length / 8 + 1) := by
  intro pos buf
  have hpacked : ((pieces 8 bits).map eightBitsToByte).length = (bits.length + 7) / 8 := by
    rw [map_eightBitsToByte, length_packBits]
  have hend : pos + (bits.length / 8 + 1) = max (pos + (bits.length + 7) / 8) (pos + bits.length / 8 + 1) := by
    omega
  rw [endOf_of_pos pos (Nat.succ_pos _), hend, ← hpacked]
  apply (needs_store pos _ rfl).bind
  intro mid hmid
  exact needs_orByte _ _ hmid

lemma needs_bitset (result : Nat) {i : Nat} {bits : List Bool} (hne : bits ≠ []) {buf : Bytes} {len : Nat}
    (h : buf.length = len) :
    Needs len (result + ((i + bits.length - 1) / 8 + 1)) (serializeBitset result i bits buf) := by
  induction bits generalizing i buf with
  | nil => exact absurd rfl hne
  | cons b bs ih =>
    rw [serializeBitset]
    cases bs with
    | nil =>
      have hend : result + ((i + [b].length - 1) / 8 + 1) = max (result + i / 8 + 1) 0 := by
        simp only [List.length_singleton, Nat.add_sub_cancel]
        omega
      rw [hend]
      apply (needs_orByte _ _ h).bind
      intro mid hmid
      exact needs_ok hmid
    | cons b' bs =>
      have hend : result + ((i + (b :: b' :: bs).length - 1) / 8 + 1) =
          max (result + i / 8 + 1) (result + ((i + 1 + (b' :: bs).length - 1) / 8 + 1)) := by
        simp only [List.length_cons]
        omega
      rw [hend]
      apply (needs_orByte _ _ h).bind
      intro mid hmid
      exact ih (by simp) hmid

lemma reaches_bitset (bits : List Bool) :
    Reaches (fun pos buf => serializeBitset pos 0 bits buf) ((bits.length + 7) / 8) := by
  intro pos buf
  by_cases hnil : bits = []
  · subst hnil
    exact needs_ok rfl
  · have hpos := List.length_pos_of_ne_nil hnil
    have hend : (bits.length + 7) / 8 = (0 + bits.length - 1) / 8 + 1 := by omega
    rw [hend, endOf_of_pos pos (Nat.succ_pos _)]
    exact needs_bitset pos hnil rfl

/-! ### The encoder with two cursors -/

/-- The item moves its cursor as the slot does and reaches as far. -/
def Item.Takes (item : Item) (s : Slot) : Prop :=
  item.isVariable = s.isVariable ∧ item.size = s.size ∧ Reaches item.write s.reach

lemma needs_writeItems {items : List Item} {ss : List Slot} (h : List.Forall₂ Item.Takes items ss)
    (start : Nat) {result variablePos : Nat} {buf : Bytes} {len : Nat} (hlen : buf.length = len) :
    Needs len (extent result variablePos ss) (writeItems start result variablePos items buf) := by
  induction h generalizing result variablePos buf with
  | nil => exact needs_ok hlen
  | cons hitem _ ih =>
    obtain ⟨hvariable, hsize, hreach⟩ := hitem
    rw [writeItems, extent, hvariable, hsize]
    split
    · have hword : Needs len (result + 4)
          (store result (leBytes 4 ((variablePos - start) % 2 ^ 32)) buf) := by
        have hstore := needs_store result (leBytes 4 ((variablePos - start) % 2 ^ 32)) hlen
        rwa [length_leBytes] at hstore
      apply hword.bind
      rintro mid rfl
      apply (hreach _ mid).bind
      intro mid' hmid'
      exact ih hmid'
    · subst hlen
      apply (hreach _ buf).bind
      intro mid hmid
      exact ih hmid

section Ranges

variable {serialize : α → Nat → Bytes → Outcome Bytes} {size reach : α → Nat}

/-- The slots of a range. -/
def elementSlots (isVariable : Bool) (reach size : α → Nat) (r : List α) : List Slot :=
  r.map fun v => ⟨isVariable, reach v, size v⟩

/-- How far a range reaches: the offsets of its elements, if it has any, come first. -/
def rangeReach (isVariable : Bool) (reach size : α → Nat) (r : List α) : Nat :=
  extent 0 (r.length * 4) (elementSlots isVariable reach size r)

lemma serializeFixedRange_eq_writeItems (start variablePos result : Nat) (r : List α) (buf : Bytes) :
    serializeFixedRange serialize size result r buf =
      writeItems start result variablePos (r.map fun v => ⟨false, serialize v, size v⟩) buf := by
  induction r generalizing result buf with
  | nil => rfl
  | cons v vs ih => simp only [serializeFixedRange, List.map_cons, writeItems, ih, Bool.false_eq_true, if_false]

lemma forall₂_takes (isVariable : Bool) {r : List α} (h : ∀ v ∈ r, Reaches (serialize v) (reach v)) :
    List.Forall₂ Item.Takes (r.map fun v => ⟨isVariable, serialize v, size v⟩)
      (elementSlots isVariable reach size r) := by
  rw [elementSlots, List.forall₂_map_left_iff, List.forall₂_map_right_iff, List.forall₂_same]
  exact fun v hv => ⟨rfl, rfl, h v hv⟩

lemma reaches_variableRange {r : List α} (h : ∀ v ∈ r, Reaches (serialize v) (reach v)) :
    Reaches (fun pos buf => serializeVariableRange serialize size pos r buf)
      (rangeReach true reach size r) := by
  intro pos buf
  have hneeds : Needs buf.length (extent (pos + 0) (pos + r.length * 4) (elementSlots true reach size r))
      (writeItems pos (pos + 0) (pos + r.length * 4) (elementItems serialize size r) buf) :=
    needs_writeItems (forall₂_takes true h) pos rfl
  rw [extent_add, ← rangeReach] at hneeds
  simpa only [serializeVariableRange, serializeVariableLoop_eq_writeItems, BYTES_PER_LENGTH_OFFSET,
    Nat.zero_mul] using hneeds

lemma reaches_fixedRange {r : List α} (h : ∀ v ∈ r, Reaches (serialize v) (reach v)) :
    Reaches (fun pos buf => serializeFixedRange serialize size pos r buf)
      (rangeReach false reach size r) := by
  intro pos buf
  have hneeds : Needs buf.length (extent (pos + 0) (pos + r.length * 4) (elementSlots false reach size r))
      (writeItems pos (pos + 0) (pos + r.length * 4) (r.map fun v => ⟨false, serialize v, size v⟩) buf) :=
    needs_writeItems (forall₂_takes false h) pos rfl
  rw [extent_add, ← rangeReach, ← serializeFixedRange_eq_writeItems] at hneeds
  exact hneeds

end Ranges

lemma sum_map_const {f : α → Nat} {k : Nat} {vs : List α} (h : ∀ v ∈ vs, f v = k) :
    (vs.map f).sum = vs.length * k := by
  rw [List.map_congr_left h, List.map_const', List.sum_replicate_nat]

section Slots

variable (reach size : α → Nat)

lemma headLength_elementSlots (isVariable : Bool) (r : List α) :
    headLength (elementSlots isVariable reach size r) =
      if isVariable then r.length * 4 else (r.map size).sum := by
  rw [headLength, elementSlots, List.map_map]
  cases isVariable with
  | true => exact sum_map_const fun _ _ => rfl
  | false => rfl

lemma tailLength_elementSlots (isVariable : Bool) (r : List α) :
    tailLength (elementSlots isVariable reach size r) = if isVariable then (r.map size).sum else 0 := by
  rw [tailLength, elementSlots, List.map_map]
  cases isVariable with
  | true => rfl
  | false => exact (sum_map_const fun _ _ => rfl).trans (Nat.mul_zero _)

/-- The last element of a range starts after the sizes of those before it. -/
lemma le_rangeReach_append (isVariable : Bool) (vs : List α) {x : α} (hx : 0 < reach x) :
    (if isVariable then (vs.length + 1) * 4 else 0) + (vs.map size).sum + reach x ≤
      rangeReach isVariable reach size (vs ++ [x]) := by
  rw [rangeReach, elementSlots, List.map_append, extent_append, List.map_singleton]
  apply le_trans _ (le_max_right _ _)
  cases isVariable with
  | true =>
    have hhead := headLength_elementSlots reach size true vs
    have htail := tailLength_elementSlots reach size true vs
    rw [elementSlots] at hhead htail
    simp only [extent, hhead, htail, List.length_append, List.length_singleton, if_true,
      endOf_of_pos _ hx]
    omega
  | false =>
    have hhead := headLength_elementSlots reach size false vs
    rw [elementSlots] at hhead
    simp only [extent, hhead, Bool.false_eq_true, if_false, endOf_of_pos _ hx]
    omega

/-- The offsets of a range. -/
lemma le_rangeReach_replicate (x : α) (n : Nat) :
    n * 4 ≤ rangeReach true reach size (List.replicate n x) := by
  cases n with
  | zero => omega
  | succ n =>
    rw [rangeReach, elementSlots, List.replicate_succ', List.map_append, extent_append,
      List.map_singleton]
    apply le_trans _ (le_max_right _ _)
    have hhead := headLength_elementSlots reach size true (List.replicate n x)
    rw [elementSlots, List.length_replicate] at hhead
    simp only [extent, hhead, if_true]
    omega

end Slots

section Ranges

variable {serialize : α → Nat → Bytes → Outcome Bytes} {size reach : α → Nat}

/-- Slots of one width. -/
lemma rangeReach_of_exact {r : List α} {k : Nat} (h : ∀ v ∈ r, reach v = k ∧ size v = k) :
    rangeReach false reach size r = r.length * k := by
  have hexact : ∀ s ∈ elementSlots false reach size r, s.reach = s.size := by
    intro s hs
    obtain ⟨v, hv, rfl⟩ := List.mem_map.mp hs
    exact (h v hv).1.trans (h v hv).2.symm
  rw [rangeReach, extent_of_exact hexact, headLength_elementSlots, tailLength_elementSlots,
    if_neg Bool.false_ne_true, if_neg Bool.false_ne_true, sum_map_const fun v hv => (h v hv).2,
    zero_endOf, endOf_zero, Nat.max_zero]

lemma reaches_basicRange (layout : BasicLayout α) (r : List α) :
    Reaches (fun pos buf => serializeBasicRange layout.toBytes pos r buf) (r.length * layout.sizeof) := by
  have hlen := length_flatMap_const layout.toBytes r fun v _ => layout.length_toBytes v
  intro pos buf
  simp only [serializeBasicRange]
  split
  · rename_i hnil
    rw [hnil, List.length_nil, Nat.zero_mul]
    exact needs_ok rfl
  · rename_i hne
    have hpos := Nat.mul_pos (List.length_pos_of_ne_nil hne) layout.sizeof_pos
    rw [← hlen] at hpos ⊢
    exact reaches_store hpos pos buf

end Ranges

/-! ### The reach of a value -/

mutual

/-- The bytes from the position of the value to the end of the furthest write. -/
def SszType.reach {α : Type} : SszType α → α → Nat
  | .basic b, _ => b.sizeof
  | .array e _, v => rangeReach e.variableSize e.reach (e.size true) v.1
  | .vector e, v => rangeReach e.variableSize e.reach (e.size true) v
  | .list e _, v => rangeReach e.variableSize e.reach (e.size true) v
  | .bitlist _, v => v.length / 8 + 1
  | .bitset n, _ => (n + 7) / 8
  | .container _ ms, v =>
    if ms.count = 1 then ms.reachSingle v else extent 0 (ms.computeFixedLength v) (ms.slots v)

def Members.reachSingle {α : Type} : Members α → α → Nat
  | .nil, _ => 0
  | .cons m _, (v, _) => m.reach v

def Members.slots {α : Type} : Members α → α → List Slot
  | .nil, _ => []
  | .cons m ms, (v, vs) => ⟨m.variableSize, m.reach v, m.size true v⟩ :: ms.slots vs

end

lemma Members.reachSingle_mem {ms : Members α} (hcount : ms.count = 1) (v : α) :
    ∃ s, ms.slots v = [s] ∧ ms.reachSingle v = s.reach := by
  cases ms with
  | nil => cases hcount
  | cons m ms =>
    cases ms with
    | nil => exact ⟨_, rfl, rfl⟩
    | cons m' ms => simp [Members.count] at hcount

lemma SszType.reaches_range {e : SszType α} (h : ∀ x, Reaches (e.serializeInPlace x) (e.reach x))
    (vs : List α) :
    Reaches (fun pos buf => serializeRange e.basicLayout e.variableSize e.serializeInPlace
      (e.size true) pos vs buf) (rangeReach e.variableSize e.reach (e.size true) vs) := by
  unfold serializeRange
  cases hlayout : e.basicLayout with
  | some layout =>
    cases e with
    | basic b =>
      cases hlayout
      have hreach := reaches_basicRange b.layout vs
      rwa [← rangeReach_of_exact fun _ _ => ⟨rfl, rfl⟩] at hreach
    | _ => cases hlayout
  | none =>
    cases e.variableSize with
    | true => exact reaches_variableRange fun x _ => h x
    | false => exact reaches_fixedRange fun x _ => h x

mutual

/-- Every in-place encoder reaches as far as `reach` says. -/
theorem SszType.serializeInPlace_reaches : {α : Type} → (τ : SszType α) → (v : α) →
    Reaches (τ.serializeInPlace v) (τ.reach v)
  | _, .basic b, v => by
    have hlen := b.length_toBytes v
    have hreach := reaches_store (hlen.symm ▸ b.sizeof_pos : 0 < (b.toBytes v).length)
    rwa [hlen] at hreach
  | _, .array e _, v => SszType.reaches_range e.serializeInPlace_reaches v.1
  | _, .vector e, v => SszType.reaches_range e.serializeInPlace_reaches v
  | _, .list e _, v => SszType.reaches_range e.serializeInPlace_reaches v
  | _, .bitlist _, v => reaches_bitlist v
  | _, .bitset n, v => by
    have hreach := reaches_bitset v.1
    rw [v.2] at hreach
    exact hreach
  | _, .container _ ms, v => by
    intro pos buf
    simp only [SszType.serializeInPlace, SszType.reach]
    by_cases hcount : ms.count = 1
    · rw [if_pos hcount, if_pos hcount]
      cases ms with
      | nil => exact needs_ok rfl
      | cons m ms => exact m.serializeInPlace_reaches v.1 pos buf
    · have hneeds : Needs buf.length
          (extent (pos + 0) (pos + ms.computeFixedLength v) (ms.slots v))
          (writeItems pos (pos + 0) (pos + ms.computeFixedLength v) (ms.items v) buf) :=
        needs_writeItems (ms.items_take v) pos rfl
      rw [extent_add] at hneeds
      rw [if_neg hcount, if_neg hcount, Members.serializeMembers_eq_writeItems]
      exact hneeds

theorem Members.items_take : {α : Type} → (ms : Members α) → (v : α) →
    List.Forall₂ Item.Takes (ms.items v) (ms.slots v)
  | _, .nil, _ => .nil
  | _, .cons m ms, (v, vs) =>
    .cons ⟨rfl, rfl, m.serializeInPlace_reaches v⟩ (ms.items_take vs)

end

/-- `serialize` returns a vector of the size it allocated exactly when the encoder stays inside, and
never throws. -/
theorem SszType.serialize_needs (τ : SszType α) (v : α) :
    Needs (τ.bufferSize v) (τ.reach v) (τ.serialize v) := by
  have hneeds := τ.serializeInPlace_reaches v 0 (zeros (τ.bufferSize v))
  rwa [zero_endOf, length_zeros] at hneeds

lemma SszType.serialize_ne_thrown (τ : SszType α) (v : α) (e : Exception) :
    τ.serialize v ≠ .error (.thrown e) := by
  intro h
  obtain ⟨hok, hwrite⟩ := τ.serialize_needs v
  rcases Nat.lt_or_ge (τ.bufferSize v) (τ.reach v) with hlt | hle
  · cases h.symm.trans (hwrite hlt)
  · obtain ⟨out, hout, -⟩ := hok hle
    cases h.symm.trans hout

lemma SszType.serialize_returns_iff {τ : SszType α} {v : α} {n : Nat} :
    (∃ out, τ.serialize v = .ok out ∧ out.length = n) ↔ τ.bufferSize v = n ∧ τ.reach v ≤ n := by
  obtain ⟨hok, hwrite⟩ := τ.serialize_needs v
  constructor
  · rintro ⟨out, hout, rfl⟩
    rcases Nat.lt_or_ge (τ.bufferSize v) (τ.reach v) with hlt | hle
    · cases hout.symm.trans (hwrite hlt)
    · obtain ⟨out', hout', hlen⟩ := hok hle
      obtain rfl := Except.ok.inj (hout.symm.trans hout')
      exact ⟨hlen.symm, hlen ▸ hle⟩
  · rintro ⟨rfl, hle⟩
    exact hok hle

end Sszpp
