import Sszpp.Proofs.Sizes
import Sszpp.Proofs.Traces

/-!
# What an in-place encoder keeps of its buffer

Where the sizes in a value tell the truth, its encoder touches every byte of its area once, but for
the delimiters of bitlists: the bytes of a bitset are combined with what is there, and so is the
delimiter of a bitlist whose bits fill their bytes. All others are assigned.
-/

namespace Sszpp

open Library

variable {α : Type}

/-! ### The layout, with what is done to each byte -/

/-- A component of a composite object. -/
structure CellPart where
  isVariable : Bool
  cells : List (Effect Byte)

/-- The component with the bytes that are left in a new buffer. -/
def CellPart.part (p : CellPart) : Part := ⟨p.isVariable, p.cells.map Effect.value⟩

def headCells : Nat → List CellPart → List (Effect Byte)
  | _, [] => []
  | off, p :: ps =>
    if p.isVariable then (leBytes 4 off).map Effect.assign ++ headCells (off + p.cells.length) ps
    else p.cells ++ headCells off ps

def tailCells : List CellPart → List (Effect Byte)
  | [] => []
  | p :: ps => (if p.isVariable then p.cells else []) ++ tailCells ps

def fixedCells (ps : List CellPart) : Nat := fixedLength (ps.map CellPart.part)

def assembleCells (ps : List CellPart) : List (Effect Byte) := headCells (fixedCells ps) ps ++ tailCells ps

lemma map_value_headCells (off : Nat) (ps : List CellPart) :
    (headCells off ps).map Effect.value = heads off (ps.map CellPart.part) := by
  induction ps generalizing off with
  | nil => rfl
  | cons p ps ih =>
    obtain ⟨isVariable, cells⟩ := p
    cases isVariable with
    | true => simp [headCells, CellPart.part, ih, Effect.value, Function.comp_def]
    | false => simp [headCells, CellPart.part, ih]

lemma map_value_tailCells (ps : List CellPart) :
    (tailCells ps).map Effect.value = tails (ps.map CellPart.part) := by
  induction ps with
  | nil => rfl
  | cons p ps ih =>
    obtain ⟨isVariable, cells⟩ := p
    cases isVariable with
    | true => simp [tailCells, CellPart.part, ih]
    | false => simp [tailCells, CellPart.part, ih]

/-- The effects lay out the bytes as the encoding does. -/
lemma map_value_assembleCells (ps : List CellPart) :
    (assembleCells ps).map Effect.value = assemble (ps.map CellPart.part) := by
  rw [assembleCells, List.map_append, map_value_headCells, map_value_tailCells]
  rfl

@[simp] lemma length_headCells (off : Nat) (ps : List CellPart) :
    (headCells off ps).length = fixedCells ps := by
  rw [← List.length_map Effect.value, map_value_headCells, length_heads]
  rfl

lemma length_assembleCells (ps : List CellPart) :
    (assembleCells ps).length = (ps.map fun p => entryLength p.isVariable p.cells.length).sum := by
  rw [← List.length_map Effect.value, map_value_assembleCells, length_assemble]
  induction ps with
  | nil => rfl
  | cons p ps ih =>
    obtain ⟨isVariable, cells⟩ := p
    simp only [List.map_cons, List.sum_cons, ← ih, fixedLength_cons, tails_cons, List.length_append,
      CellPart.part]
    cases isVariable with
    | true =>
      rw [headLength_variable, tail_variable, List.length_map, entryLength, if_pos rfl]
      omega
    | false =>
      rw [headLength_fixed, tail_fixed, List.length_map, entryLength, if_neg Bool.false_ne_true]
      simp only [List.length_nil]
      omega

mutual

/-- What the encoder does to each byte of the value. -/
def SszType.layout {α : Type} : SszType α → α → List (Effect Byte)
  | .basic b, v => (b.toBytes v).map Effect.assign
  | .array e _, v => assembleCells (v.1.map fun x => ⟨e.variableSize, e.layout x⟩)
  | .vector e, v => assembleCells (v.map fun x => ⟨e.variableSize, e.layout x⟩)
  | .list e _, v => assembleCells (v.map fun x => ⟨e.variableSize, e.layout x⟩)
  | .bitlist _, v =>
    if v.length % 8 = 0 then (packBits v).map Effect.assign ++ [Effect.combine 1]
    else (packBits (v ++ [true])).map Effect.assign
  | .bitset _, v => (packBits v.1).map Effect.combine
  | .container _ ms, v => assembleCells (ms.cellParts v)

def Members.cellParts {α : Type} : Members α → α → List CellPart
  | .nil, _ => []
  | .cons m ms, (v, vs) => ⟨m.variableSize, m.layout v⟩ :: ms.cellParts vs

end

abbrev SszType.elementCells (e : SszType α) (vs : List α) : List CellPart :=
  vs.map fun x => ⟨e.variableSize, e.layout x⟩

lemma SszType.length_elementCells {e : SszType α} {vs : List α}
    (h : ∀ x ∈ vs, (e.layout x).length = e.layoutLength x) :
    (assembleCells (e.elementCells vs)).length = e.elementsLength vs := by
  rw [length_assembleCells, List.map_map]
  congr 1
  apply List.map_congr_left
  intro x hx
  rw [Function.comp_apply, h x hx]

mutual

theorem SszType.length_layout : {α : Type} → (τ : SszType α) → (v : α) →
    (τ.layout v).length = τ.layoutLength v
  | _, .basic b, v => by rw [SszType.layout, List.length_map, SszType.layoutLength, b.length_toBytes]
  | _, .array e _, _ => SszType.length_elementCells fun x _ => e.length_layout x
  | _, .vector e, _ => SszType.length_elementCells fun x _ => e.length_layout x
  | _, .list e _, _ => SszType.length_elementCells fun x _ => e.length_layout x
  | _, .bitlist _, v => by
    rw [SszType.layout, SszType.layoutLength]
    split
    · rw [List.length_append, List.length_map, length_packBits, List.length_singleton]
      omega
    · rw [List.length_map, length_packBits, List.length_append, List.length_singleton]
      omega
  | _, .bitset n, v => by rw [SszType.layout, List.length_map, length_packBits, v.2, SszType.layoutLength]
  | _, .container _ ms, v => by
    rw [SszType.layout, length_assembleCells]
    exact ms.length_cellParts v

theorem Members.length_cellParts : {α : Type} → (ms : Members α) → (v : α) →
    ((ms.cellParts v).map fun p => entryLength p.isVariable p.cells.length).sum = ms.layoutLength v
  | _, .nil, _ => rfl
  | _, .cons m ms, (v, vs) => by
    rw [Members.cellParts, List.map_cons, List.sum_cons, m.length_layout, ms.length_cellParts,
      Members.layoutLength]

end

/-! ### Traces of composite objects -/

/-- The component advances its cursor over its cells and lays them out. -/
def Component.LaidAs (c : Component) (p : CellPart) : Prop :=
  c.isVariable = p.isVariable ∧ c.size = p.cells.length ∧ c.trace.Lays orInto p.cells

lemma leBytes_four_mod (n : Nat) : leBytes 4 (n % 2 ^ 32) = leBytes 4 n :=
  leBytes_eq_of_leNat_eq (length_leBytes 4 n) (leNat_leBytes 4 n)

open Trace in
/-- The cells behind one cursor do not touch those before the other. -/
lemma settle_componentsTrace {cs : List Component} {ps : List CellPart}
    (h : List.Forall₂ Component.LaidAs cs ps) {r v : Nat} (hle : r + fixedCells ps ≤ v) (i : Nat) (old : Byte) :
    settle orInto (effectsAt (componentsTrace 0 r v cs) i) old =
      placed orInto v (tailCells ps) i (placed orInto r (headCells v ps) i old) := by
  induction h generalizing r v old with
  | nil => exact ((placed_nil orInto v i _).trans (placed_nil orInto r i old)).symm
  | @cons c p cs ps hc _ ih =>
    obtain ⟨hvariable, hsize, hlays⟩ := hc
    obtain ⟨isVariable, cells⟩ := p
    simp only at hvariable hsize hlays
    rw [componentsTrace, hvariable, hsize]
    cases isVariable with
    | true =>
      have hfixed : fixedCells (⟨true, cells⟩ :: ps) = 4 + fixedCells ps := by
        rw [fixedCells, List.map_cons, fixedLength_cons]
        rfl
      have hword : ((leBytes 4 v).map Effect.assign).length = 4 := by
        rw [List.length_map, length_leBytes]
      have hheads : r + 4 + (headCells (v + cells.length) ps).length ≤ v := by
        rw [length_headCells]
        omega
      rw [if_pos rfl, effectsAt_append, effectsAt_append, settle_append, settle_append, Nat.sub_zero,
        leBytes_four_mod, (lays_assigns orInto _).shift, hlays.shift, ih (by omega), headCells, tailCells,
        if_pos rfl, if_pos rfl, placed_append, placed_append, hword, placed_comm orInto hheads]
    | false =>
      have hfixed : fixedCells (⟨false, cells⟩ :: ps) = cells.length + fixedCells ps := by
        rw [fixedCells, List.map_cons, fixedLength_cons, CellPart.part, headLength_fixed, List.length_map]
        rfl
      rw [if_neg Bool.false_ne_true, effectsAt_append, settle_append, hlays.shift, ih (by omega), headCells,
        tailCells, if_neg Bool.false_ne_true, if_neg Bool.false_ne_true, List.nil_append, placed_append]

/-- With the second cursor behind the fixed part. -/
lemma lays_componentsTrace {cs : List Component} {ps : List CellPart}
    (h : List.Forall₂ Component.LaidAs cs ps) :
    (componentsTrace 0 0 (fixedCells ps) cs).Lays orInto (assembleCells ps) := by
  intro i old
  rw [settle_componentsTrace h (Nat.zero_add _).le, assembleCells, Trace.placed_append, length_headCells,
    Nat.zero_add]

/-- Where no component has variable length the second cursor is not used. -/
lemma componentsTrace_of_fixed {cs : List Component} (h : ∀ c ∈ cs, c.isVariable = false) (start r v w : Nat) :
    componentsTrace start r v cs = componentsTrace start r w cs := by
  induction cs generalizing r with
  | nil => rfl
  | cons c cs ih =>
    have hc : ¬ c.isVariable = true := by
      rw [h c List.mem_cons_self]
      exact Bool.false_ne_true
    rw [componentsTrace, componentsTrace, if_neg hc, if_neg hc,
      ih fun d hd => h d (List.mem_cons_of_mem _ hd)]

lemma SszType.lays_range {e : SszType α} {vs : List α} (hsize : ∀ x ∈ vs, e.size true x = e.layoutLength x)
    (h : ∀ x ∈ vs, (e.trace x).Lays orInto (e.layout x)) :
    (rangeTrace e.variableSize e.trace (e.size true) vs).Lays orInto (assembleCells (e.elementCells vs)) := by
  have hlaid : List.Forall₂ Component.LaidAs (rangeComponents e.variableSize e.trace (e.size true) vs)
      (e.elementCells vs) := by
    rw [rangeComponents, List.forall₂_map_left_iff, List.forall₂_map_right_iff, List.forall₂_same]
    exact fun x hx => ⟨rfl, (hsize x hx).trans (e.length_layout x).symm, h x hx⟩
  have hlays := lays_componentsTrace hlaid
  rw [rangeTrace]
  cases hvar : e.variableSize with
  | true =>
    have hparts : (e.elementCells vs).map CellPart.part =
        variableParts (fun x => (e.layout x).map Effect.value) vs := by
      simp [variableParts, CellPart.part, hvar]
    have hfixed : fixedCells (e.elementCells vs) = vs.length * 4 := by
      rw [fixedCells, hparts, fixedLength_variableParts, Nat.mul_comm]
    rw [hvar, hfixed] at hlays
    exact hlays
  | false =>
    rw [hvar] at hlays
    rwa [componentsTrace_of_fixed (by simp [rangeComponents]) 0 0 _ (fixedCells (e.elementCells vs))]

/-! ### Traces of bit sequences -/

lemma lays_bitset (bits : List Bool) :
    (bitsetTrace 0 bits).Lays orInto ((packBits bits).map Effect.combine) := by
  have hlen : ((packBits bits).map Effect.combine).length = (bits.length + 7) / 8 := by
    rw [List.length_map, length_packBits]
  have hrun : ∀ buf : Bytes, buf.length = (bits.length + 7) / 8 →
      (bitsetTrace 0 bits).play orInto buf = List.zipWith (· ||| ·) buf (packBits bits) ∧
        ∀ w ∈ bitsetTrace 0 bits, w.1 < buf.length := by
    intro buf hbuf
    obtain ⟨out, hser, hout, hbits⟩ := serializeBitset_eq bits 0 0 [] buf [] rfl (by omega)
    rw [List.nil_append, List.append_nil, List.nil_append, List.append_nil] at hser
    obtain ⟨hplay, hwithin⟩ := plays_bitset bits 0 0 buf out hser
    rw [Trace.shift_zero] at hplay hwithin
    refine ⟨?_, hwithin⟩
    have hpack : buf.length = (packBits bits).length := by rw [hbuf, length_packBits]
    rw [← hplay]
    apply bytes_eq_of_bits
    · rw [hout, List.length_zipWith, hpack, Nat.min_self]
    · intro i _
      rw [hbits, bitAt_zipWith_or hpack, bitAt_packBits]
      simp
  apply Trace.lays_of_play
  · rw [hlen, ← length_zeros ((bits.length + 7) / 8)]
    exact (hrun (zeros _) (length_zeros _)).2
  · intro buf hbuf
    rw [(hrun buf (hbuf.trans hlen)).1, List.zipWith_map_left, List.zipWith_comm]
    rfl

lemma lays_bitlist (limit : Nat) (bits : List Bool) :
    (bitlistTrace bits).Lays orInto ((SszType.bitlist limit).layout bits) := by
  rw [bitlistTrace, SszType.layout]
  split
  · -- the delimiter has a byte of its own
    rename_i hfull
    have hlen : ((packBits bits).map Effect.assign).length = bits.length / 8 := by
      rw [List.length_map, length_packBits]
      omega
    have hcells := Trace.lays_ofCells orInto ((packBits bits).map Effect.assign ++ [Effect.combine (1 : Byte)])
    rw [Trace.ofCells_append, hlen] at hcells
    rw [hfull]
    exact hcells
  · -- the delimiter goes into the last packed byte
    rename_i hrest
    have hlen : (packBits bits).length = bits.length / 8 + 1 := by
      rw [length_packBits]
      omega
    have hlen' : (packBits (bits ++ [true])).length = bits.length / 8 + 1 := by
      rw [length_packBits, List.length_append, List.length_singleton]
      omega
    apply Trace.lays_of_play
    · intro w hw
      rw [List.length_map, hlen']
      rcases List.mem_append.mp hw with hpacked | hdelimiter
      · have hlt := Trace.lt_of_mem_ofCells hpacked
        rwa [List.length_map, hlen] at hlt
      · rw [List.mem_singleton.mp hdelimiter]
        exact Nat.lt_succ_self _
    · intro buf hbuf
      rw [List.length_map, hlen'] at hbuf
      rw [Trace.play_append, Trace.play_assigns _ (hbuf.trans hlen.symm),
        Trace.zipWith_assign _ (hbuf.trans hlen'.symm)]
      exact modify_delimiter hlen (bitAt_packBits bits)

/-! ### Traces of values -/

mutual

/-- No container has one member. -/
def SszType.ManyMembers {α : Type} : SszType α → Prop
  | .array e _ => e.ManyMembers
  | .vector e => e.ManyMembers
  | .list e _ => e.ManyMembers
  | .container _ ms => ms.count ≠ 1 ∧ ms.ManyMembers
  | .basic _ => True
  | .bitlist _ => True
  | .bitset _ => True

def Members.ManyMembers {α : Type} : Members α → Prop
  | .nil => True
  | .cons m ms => m.ManyMembers ∧ ms.ManyMembers

end

mutual

theorem SszType.trace_lays : {α : Type} → (τ : SszType α) → (v : α) → τ.Uniform v → τ.BitsAgree v →
    τ.ManyMembers → τ.layoutLength v < 2 ^ 32 → (τ.trace v).Lays orInto (τ.layout v)
  | _, .basic b, v, _, _, _, _ => Trace.lays_assigns orInto (b.toBytes v)
  | _, .array e _, _, h, hbits, hmany, hlen => SszType.lays_range (SszType.size_eq_of_mem h.2 hbits.2 hlen)
    fun x hx => e.trace_lays x (h.2 x hx) (hbits.2 x hx) hmany ((SszType.le_elementsLength hx).trans_lt hlen)
  | _, .vector e, _, h, hbits, hmany, hlen => SszType.lays_range (SszType.size_eq_of_mem h.2 hbits.2 hlen)
    fun x hx => e.trace_lays x (h.2 x hx) (hbits.2 x hx) hmany ((SszType.le_elementsLength hx).trans_lt hlen)
  | _, .list e _, _, h, hbits, hmany, hlen => SszType.lays_range (SszType.size_eq_of_mem h.2 hbits.2 hlen)
    fun x hx => e.trace_lays x (h.2 x hx) (hbits.2 x hx) hmany ((SszType.le_elementsLength hx).trans_lt hlen)
  | _, .bitlist limit, v, _, _, _, _ => lays_bitlist limit v
  | _, .bitset _, v, _, _, _, _ => lays_bitset v.1
  | _, .container _ ms, v, h, hbits, hmany, hlen => by
    have hlays := lays_componentsTrace (ms.components_laid v h hbits hmany.2 hlen)
    rw [← ms.fixedCells_eq v h hbits hlen, ← (ms.slots_le v h hbits hlen).2.2] at hlays
    rw [SszType.trace, if_neg hmany.1]
    exact hlays

theorem Members.components_laid : {α : Type} → (ms : Members α) → (v : α) → ms.Uniform v → ms.BitsAgree v →
    ms.ManyMembers → ms.layoutLength v < 2 ^ 32 →
    List.Forall₂ Component.LaidAs (ms.components v) (ms.cellParts v)
  | _, .nil, _, _, _, _, _ => .nil
  | _, .cons m ms, (v, vs), h, hbits, hmany, hlen => by
    have hle := le_entryLength m.variableSize (m.layoutLength v)
    rw [Members.layoutLength] at hlen
    have hsize := m.size_eq_layoutLength v h.1 hbits.1 (by omega)
    exact .cons ⟨rfl, hsize.trans (m.length_layout v).symm, m.trace_lays v h.1 hbits.1 hmany.1 (by omega)⟩
      (ms.components_laid vs h.2 hbits.2 hmany.2 (by omega))

/-- The fixed part that the second cursor starts behind. -/
theorem Members.fixedCells_eq : {α : Type} → (ms : Members α) → (v : α) → ms.Uniform v → ms.BitsAgree v →
    ms.layoutLength v < 2 ^ 32 → Library.headLength (ms.slots v) = fixedCells (ms.cellParts v)
  | _, .nil, _, _, _, _ => rfl
  | _, .cons m ms, (v, vs), h, hbits, hlen => by
    have hle := le_entryLength m.variableSize (m.layoutLength v)
    rw [Members.layoutLength] at hlen
    have hsize := m.size_eq_layoutLength v h.1 hbits.1 (by omega)
    rw [Members.slots, Members.cellParts, headLength_cons, ms.fixedCells_eq vs h.2 hbits.2 (by omega),
      fixedCells, fixedCells, List.map_cons, fixedLength_cons, Slot.head, hsize, Part.headLength,
      CellPart.part, List.length_map, m.length_layout]

end

section Layout

variable {τ : SszType α} {v : α} (h : τ.Uniform v) (hbits : τ.BitsAgree v) (hmany : τ.ManyMembers)
  (hlen : τ.layoutLength v < 2 ^ 32)
include h hbits hlen

lemma SszType.sizeFits : τ.SizeFits v := by
  rw [SszType.SizeFits, τ.size_eq_layoutLength v h hbits hlen]
  exact ⟨SszType.bufferSize_eq_layoutLength h hbits hlen, τ.reach_le_layoutLength v h hbits hlen⟩

include hmany

/-- `serialize` returns the bytes of the layout. -/
theorem SszType.serialize_eq_layout : τ.serialize v = .ok ((τ.layout v).map Effect.value) := by
  have hlays := τ.trace_lays v h hbits hmany hlen
  rw [(SszType.sizeFits h hbits hlen).serialize_eq.1, τ.size_eq_layoutLength v h hbits hlen,
    ← τ.length_layout v]
  exact congrArg Except.ok (hlays.play_replicate)

lemma SszType.settles_iff {area : Bytes} (harea : area.length = τ.size true v) :
    τ.Settles v area ↔ List.Forall₂ (Effect.Admits orInto) (τ.layout v) area := by
  have hlays := τ.trace_lays v h hbits hmany hlen
  have hlayout : (τ.layout v).length = area.length := by
    rw [harea, τ.length_layout, τ.size_eq_layoutLength v h hbits hlen]
  have hcell : ∀ i (hi : i < (τ.layout v).length) (hj : i < area.length),
      (SettlesAlike orInto 0 ((τ.trace v).effectsAt i) (area.getD i 0) ↔
        ((τ.layout v).get ⟨i, hi⟩).Admits orInto (area.get ⟨i, hj⟩)) := by
    intro i hi hj
    rw [List.getD_eq_getElem _ _ hj]
    exact hlays.settlesAlike_iff hi area[i]
  rw [List.forall₂_iff_get, SszType.Settles, and_iff_right hlayout]
  constructor
  · exact fun hsettles i hi hj => (hcell i hi hj).mp (hsettles i hj)
  · exact fun hadmits i hj => (hcell i (hlayout ▸ hj) hj).mpr (hadmits i (hlayout ▸ hj) hj)

end Layout

/-- In-place serialization leaves the bytes of the value, and around them what was there, exactly when
the size of the value tells the truth and the buffer holds no bit of its own in a byte that is only
combined with others. Where the sizes in the value tell the truth, these are the bytes of its bitsets
and the delimiters of its bitlists whose bits fill their bytes. -/
theorem serializeInPlace_overwrites_iff (τ : SszType α) (v : α) (p : Nat) (buf : Bytes)
    (hroom : p + τ.size true v ≤ buf.length) :
    (τ.Overwrites v p buf ↔ τ.SizeFits v ∧ τ.Settles v ((buf.drop p).take (τ.size true v))) ∧
      (τ.Uniform v → τ.BitsAgree v → τ.ManyMembers → τ.layoutLength v < 2 ^ 32 →
        (τ.Overwrites v p buf ↔
          List.Forall₂ (Effect.Admits orInto) (τ.layout v) ((buf.drop p).take (τ.size true v)))) := by
  refine ⟨τ.overwrites_iff v hroom, ?_⟩
  intro h hbits hmany hlen
  have harea : ((buf.drop p).take (τ.size true v)).length = τ.size true v := by
    rw [List.length_take, List.length_drop]
    omega
  rw [τ.overwrites_iff v hroom, and_iff_right (SszType.sizeFits h hbits hlen),
    SszType.settles_iff h hbits hmany hlen harea]

/-- A bitset of four bits and a bitlist. -/
def bitfieldsType : SszType (StdArray Bool 4 × List Bool × Unit) :=
  .container true (.cons (.bitset 4) (.cons (.bitlist 8) .nil))

def bitfieldsValue : StdArray Bool 4 × List Bool × Unit :=
  (⟨[true, false, false, true], rfl⟩, List.replicate 8 true, ())

theorem serializeInPlace_overwrites_iff_sample :
    (bitfieldsType.Overwrites bitfieldsValue 1 (List.replicate 9 1) ↔
        bitfieldsType.SizeFits bitfieldsValue ∧ bitfieldsType.Settles bitfieldsValue (List.replicate 7 1)) ∧
      (bitfieldsType.Overwrites bitfieldsValue 1 (List.replicate 9 1) ↔
        List.Forall₂ (Effect.Admits orInto) (bitfieldsType.layout bitfieldsValue) (List.replicate 7 1)) :=
  have hiff := serializeInPlace_overwrites_iff bitfieldsType bitfieldsValue 1 (List.replicate 9 1) (by decide)
  ⟨hiff.1, hiff.2 ⟨trivial, trivial, trivial⟩ ⟨trivial, trivial, trivial⟩
    ⟨by decide, trivial, trivial, trivial⟩ (by decide)⟩

/-- A bitset of four zero bits and a bitlist of eight bits, where the buffer holds ones. -/
theorem serializeInPlace_keeps :
    (SszType.bitset 4).serialize (SszType.bitset 4).vac = .ok [0] ∧
      (SszType.bitset 4).serializeInPlace (SszType.bitset 4).vac 0 [0xff] = .ok [0xff] ∧
      ¬ (SszType.bitset 4).Overwrites (SszType.bitset 4).vac 0 [0xff] ∧
      (SszType.bitlist 8).serialize (List.replicate 8 true) = .ok [0xff, 1] ∧
      (SszType.bitlist 8).serializeInPlace (List.replicate 8 true) 0 [0xff, 0xff] = .ok [0xff, 0xff] := by
  have hser : (SszType.bitset 4).serialize (SszType.bitset 4).vac = .ok [0] := by decide
  have hrun : (SszType.bitset 4).serializeInPlace (SszType.bitset 4).vac 0 [0xff] = .ok [0xff] := by decide
  refine ⟨hser, hrun, ?_, by decide, by decide⟩
  rintro ⟨out, hout, hin⟩
  obtain rfl := Except.ok.inj (hser.symm.trans hout)
  exact absurd (hrun.symm.trans hin) (by decide)

end Sszpp
