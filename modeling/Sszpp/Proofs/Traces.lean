import Sszpp.Library.WriteTrace
import Sszpp.Proofs.Reach

/-!
# The writes of the in-place encoders

Which bytes an in-place encoder writes, and whether it assigns a byte or combines it with what is
there, depends on the value alone. The trace of a value says what its encoder does to any buffer.
-/

namespace Sszpp

open Library

variable {α : Type}

/-- `|=` -/
abbrev orInto (old x : Byte) : Byte := old ||| x

/-- When the run returns, it has done to the buffer what the trace does, inside the buffer. -/
def FollowsTrace (x : Outcome Bytes) (ws : Trace Byte) (buf : Bytes) : Prop :=
  ∀ out, x = .ok out → out = ws.play orInto buf ∧ ∀ w ∈ ws, w.1 < buf.length

/-- The encoder follows the trace from its position on. -/
def Plays (f : Nat → Bytes → Outcome Bytes) (ws : Trace Byte) : Prop :=
  ∀ pos buf, FollowsTrace (f pos buf) (ws.shift pos) buf

section FollowsTrace

variable {buf : Bytes} {ws vs : Trace Byte}

lemma followsTrace_ok : FollowsTrace (.ok buf) [] buf := by
  rintro out ⟨⟩
  exact ⟨rfl, nofun⟩

lemma FollowsTrace.bind {x : Outcome Bytes} {f : Bytes → Outcome Bytes} (hx : FollowsTrace x ws buf)
    (hf : ∀ buf, FollowsTrace (f buf) vs buf) : FollowsTrace (x >>= f) (ws ++ vs) buf := by
  intro out hout
  obtain ⟨mid, hmid, hrun⟩ := Outcome.bind_eq_ok.mp hout
  obtain ⟨rfl, hws⟩ := hx mid hmid
  obtain ⟨rfl, hvs⟩ := hf _ out hrun
  rw [Trace.length_play] at hvs
  exact ⟨(Trace.play_append orInto ws vs buf).symm, List.forall_mem_append.mpr ⟨hws, hvs⟩⟩

end FollowsTrace

lemma exists_area {pos n : Nat} {buf : Bytes} (h : pos + n ≤ buf.length) :
    ∃ pre mid post : Bytes, pre.length = pos ∧ mid.length = n ∧ buf = pre ++ mid ++ post := by
  obtain ⟨k, hk⟩ := Nat.exists_eq_add_of_le h
  rw [Nat.add_assoc] at hk
  obtain ⟨pre, rest, rfl, hpre, hrest⟩ := exists_append_of_length hk
  obtain ⟨mid, post, rfl, hmid, -⟩ := exists_append_of_length hrest
  exact ⟨pre, mid, post, hpre, hmid, (List.append_assoc pre mid post).symm⟩

lemma plays_store (bs : Bytes) : Plays (fun pos buf => store pos bs buf) (Trace.assigns bs) := by
  intro pos buf out hout
  have hroom : pos + bs.length ≤ buf.length := by
    by_contra hlt
    cases (if_neg hlt).symm.trans hout
  obtain ⟨pre, mid, post, rfl, hmid, rfl⟩ := exists_area hroom
  have hwithin : ∀ w ∈ Trace.assigns bs, w.1 < mid.length := by
    intro w hw
    have hlt := Trace.lt_of_mem_ofCells hw
    rwa [List.length_map, ← hmid] at hlt
  simp only [store_append rfl hmid.symm] at hout
  obtain rfl := Except.ok.inj hout
  rw [Trace.play_shift_append _ _ hwithin, Trace.play_assigns _ hmid]
  refine ⟨rfl, ?_⟩
  intro w hw
  obtain ⟨v, hv, rfl⟩ := List.mem_map.mp hw
  have hlt := hwithin v hv
  simp only [List.length_append]
  omega

/-- `|=` on the byte at `k` from the position. -/
lemma plays_orByte (k : Nat) (x : Byte) :
    Plays (fun pos buf => orByte (pos + k) x buf) [(k, .combine x)] := by
  intro pos buf out hout
  simp only [orByte] at hout
  split at hout
  · rename_i b hget
    obtain rfl := Except.ok.inj hout
    have hlt := (List.getElem?_eq_some_iff.mp hget).1
    constructor
    · rw [Trace.play, Trace.shift]
      simp only [List.map_singleton, List.foldl_cons, List.foldl_nil]
      rw [List.modify_eq_set, hget, Option.getD_some]
      rfl
    · simpa [Trace.shift] using hlt
  · cases hout

/-! ### Bit sequences -/

/-- The writes of the bitset encoder from bit `i` on. -/
def bitsetTrace : Nat → List Bool → Trace Byte
  | _, [] => []
  | i, b :: bs => (i / 8, .combine (byteOfBool b <<< (i % 8))) :: bitsetTrace (i + 1) bs

def bitlistTrace (bits : List Bool) : Trace Byte :=
  Trace.assigns (packBits bits) ++ [(bits.length / 8, .combine ((1 : Byte) <<< (bits.length % 8)))]

lemma plays_bitset (bits : List Bool) (i : Nat) :
    Plays (fun pos buf => serializeBitset pos i bits buf) (bitsetTrace i bits) := by
  intro pos buf
  induction bits generalizing i buf with
  | nil => exact followsTrace_ok
  | cons b bs ih => exact (plays_orByte (i / 8) _ pos buf).bind (ih (i + 1))

lemma plays_bitlist (bits : List Bool) :
    Plays (fun pos buf => serializeBitlist pos bits buf) (bitlistTrace bits) := by
  intro pos buf
  rw [bitlistTrace, Trace.shift_append]
  simp only [serializeBitlist, serializeBitvector, map_eightBitsToByte]
  apply (plays_store (packBits bits) pos buf).bind
  exact plays_orByte (bits.length / 8) _ pos

/-! ### The encoder with two cursors -/

/-- What an encoder does with one component: its writes from its position on, and by how much its
cursor advances. -/
structure Component where
  isVariable : Bool
  trace : Trace Byte
  size : Nat

/-- The writes from the two cursors on. -/
def componentsTrace (start : Nat) : (result variablePos : Nat) → List Component → Trace Byte
  | _, _, [] => []
  | result, variablePos, c :: cs =>
    if c.isVariable then
      (Trace.assigns (leBytes 4 ((variablePos - start) % 2 ^ 32))).shift result ++
        (c.trace.shift variablePos ++ componentsTrace start (result + 4) (variablePos + c.size) cs)
    else c.trace.shift result ++ componentsTrace start (result + c.size) variablePos cs

/-- Only the distance to the beginning matters. -/
lemma componentsTrace_add (p r v : Nat) (cs : List Component) :
    componentsTrace p (p + r) (p + v) cs = (componentsTrace 0 r v cs).shift p := by
  induction cs generalizing r v with
  | nil => rfl
  | cons c cs ih =>
    simp only [componentsTrace, Nat.add_assoc, ih, Nat.add_sub_cancel_left, Nat.sub_zero]
    split
    · simp only [Trace.shift_append, Trace.shift_shift]
    · simp only [Trace.shift_append, Trace.shift_shift]

/-- The item moves its cursor as the component does and follows its trace. -/
def Item.PlaysAs (item : Item) (c : Component) : Prop :=
  item.isVariable = c.isVariable ∧ item.size = c.size ∧ Plays item.write c.trace

lemma followsTrace_writeItems {items : List Item} {cs : List Component}
    (h : List.Forall₂ Item.PlaysAs items cs) (start result variablePos : Nat) (buf : Bytes) :
    FollowsTrace (writeItems start result variablePos items buf)
      (componentsTrace start result variablePos cs) buf := by
  induction h generalizing result variablePos buf with
  | nil => exact followsTrace_ok
  | cons hitem _ ih =>
    obtain ⟨hvariable, hsize, hplays⟩ := hitem
    rw [writeItems, componentsTrace, hvariable, hsize]
    split
    · apply (plays_store _ result buf).bind
      intro buf
      apply (hplays variablePos buf).bind
      exact ih _ _
    · apply (hplays result buf).bind
      exact ih _ _

section Ranges

variable {serialize : α → Nat → Bytes → Outcome Bytes} {size : α → Nat} {trace : α → Trace Byte}

def rangeComponents (isVariable : Bool) (trace : α → Trace Byte) (size : α → Nat) (r : List α) :
    List Component := r.map fun v => ⟨isVariable, trace v, size v⟩

/-- The writes of a range: the offsets of its elements, if it has any, come first. -/
def rangeTrace (isVariable : Bool) (trace : α → Trace Byte) (size : α → Nat) (r : List α) : Trace Byte :=
  componentsTrace 0 0 (r.length * 4) (rangeComponents isVariable trace size r)

lemma forall₂_playsAs (isVariable : Bool) {r : List α} (h : ∀ v ∈ r, Plays (serialize v) (trace v)) :
    List.Forall₂ Item.PlaysAs (r.map fun v => ⟨isVariable, serialize v, size v⟩)
      (rangeComponents isVariable trace size r) := by
  rw [rangeComponents, List.forall₂_map_left_iff, List.forall₂_map_right_iff, List.forall₂_same]
  exact fun v hv => ⟨rfl, rfl, h v hv⟩

lemma plays_variableRange {r : List α} (h : ∀ v ∈ r, Plays (serialize v) (trace v)) :
    Plays (fun pos buf => serializeVariableRange serialize size pos r buf)
      (rangeTrace true trace size r) := by
  intro pos buf
  have hfollows : FollowsTrace (writeItems pos (pos + 0) (pos + r.length * 4) (elementItems serialize size r) buf)
      (componentsTrace pos (pos + 0) (pos + r.length * 4) (rangeComponents true trace size r)) buf :=
    followsTrace_writeItems (forall₂_playsAs true h) _ _ _ buf
  rw [componentsTrace_add, ← rangeTrace] at hfollows
  simpa only [serializeVariableRange, serializeVariableLoop_eq_writeItems, BYTES_PER_LENGTH_OFFSET,
    Nat.zero_mul] using hfollows

lemma plays_fixedRange {r : List α} (h : ∀ v ∈ r, Plays (serialize v) (trace v)) :
    Plays (fun pos buf => serializeFixedRange serialize size pos r buf)
      (rangeTrace false trace size r) := by
  intro pos buf
  have hfollows : FollowsTrace (writeItems pos (pos + 0) (pos + r.length * 4)
        (r.map fun v => ⟨false, serialize v, size v⟩) buf)
      (componentsTrace pos (pos + 0) (pos + r.length * 4) (rangeComponents false trace size r)) buf :=
    followsTrace_writeItems (forall₂_playsAs false h) _ _ _ buf
  rw [componentsTrace_add, ← rangeTrace, ← serializeFixedRange_eq_writeItems] at hfollows
  exact hfollows

end Ranges

lemma plays_basicRange (toBytes : α → Bytes) (r : List α) :
    Plays (fun pos buf => serializeBasicRange toBytes pos r buf) (Trace.assigns (r.flatMap toBytes)) := by
  intro pos buf
  simp only [serializeBasicRange]
  split
  · rename_i hnil
    rw [hnil]
    exact followsTrace_ok
  · exact plays_store _ pos buf

/-- Objects of one width, copied at once. -/
lemma rangeTrace_assigns {f : α → Bytes} {k : Nat} {r : List α} (h : ∀ v ∈ r, (f v).length = k) :
    rangeTrace false (fun v => Trace.assigns (f v)) (fun _ => k) r = Trace.assigns (r.flatMap f) := by
  have hall : ∀ result variablePos, componentsTrace 0 result variablePos
      (rangeComponents false (fun v => Trace.assigns (f v)) (fun _ => k) r) =
        (Trace.assigns (r.flatMap f)).shift result := by
    induction r with
    | nil => exact fun _ _ => rfl
    | cons v vs ih =>
      intro result variablePos
      have hvs := ih (fun w hw => h w (List.mem_cons_of_mem _ hw)) (result + k) variablePos
      have hlen : ((f v).map Effect.assign).length = k := by
        rw [List.length_map]
        exact h v List.mem_cons_self
      rw [rangeComponents, List.map_cons, componentsTrace, ← rangeComponents, hvs, List.flatMap_cons,
        if_neg Bool.false_ne_true, Trace.assigns, Trace.assigns, Trace.assigns, List.map_append,
        Trace.ofCells_append, Trace.shift_append, Trace.shift_shift, hlen]
  exact (hall 0 _).trans (Trace.shift_zero _)

/-! ### The trace of a value -/

mutual

/-- What the in-place encoder writes, from the position of the value on. -/
def SszType.trace {α : Type} : SszType α → α → Trace Byte
  | .basic b, v => Trace.assigns (b.toBytes v)
  | .array e _, v => rangeTrace e.variableSize e.trace (e.size true) v.1
  | .vector e, v => rangeTrace e.variableSize e.trace (e.size true) v
  | .list e _, v => rangeTrace e.variableSize e.trace (e.size true) v
  | .bitlist _, v => bitlistTrace v
  | .bitset _, v => bitsetTrace 0 v.1
  | .container _ ms, v =>
    if ms.count = 1 then ms.traceSingle v else componentsTrace 0 0 (ms.computeFixedLength v) (ms.components v)

def Members.traceSingle {α : Type} : Members α → α → Trace Byte
  | .nil, _ => []
  | .cons m _, (v, _) => m.trace v

def Members.components {α : Type} : Members α → α → List Component
  | .nil, _ => []
  | .cons m ms, (v, vs) => ⟨m.variableSize, m.trace v, m.size true v⟩ :: ms.components vs

end

lemma SszType.plays_range {e : SszType α} (h : ∀ x, Plays (e.serializeInPlace x) (e.trace x)) (vs : List α) :
    Plays (fun pos buf => serializeRange e.basicLayout e.variableSize e.serializeInPlace
      (e.size true) pos vs buf) (rangeTrace e.variableSize e.trace (e.size true) vs) := by
  unfold serializeRange
  cases hlayout : e.basicLayout with
  | some layout =>
    cases e with
    | basic b =>
      cases hlayout
      have hplays := plays_basicRange b.toBytes vs
      rwa [← rangeTrace_assigns fun v _ => b.length_toBytes v] at hplays
    | _ => cases hlayout
  | none =>
    cases e.variableSize with
    | true => exact plays_variableRange fun x _ => h x
    | false => exact plays_fixedRange fun x _ => h x

mutual

/-- Every in-place encoder follows its trace. -/
theorem SszType.serializeInPlace_plays : {α : Type} → (τ : SszType α) → (v : α) →
    Plays (τ.serializeInPlace v) (τ.trace v)
  | _, .basic b, v => plays_store (b.toBytes v)
  | _, .array e _, v => SszType.plays_range e.serializeInPlace_plays v.1
  | _, .vector e, v => SszType.plays_range e.serializeInPlace_plays v
  | _, .list e _, v => SszType.plays_range e.serializeInPlace_plays v
  | _, .bitlist _, v => plays_bitlist v
  | _, .bitset _, v => plays_bitset v.1 0
  | _, .container _ ms, v => by
    intro pos buf
    simp only [SszType.serializeInPlace, SszType.trace]
    by_cases hcount : ms.count = 1
    · rw [if_pos hcount, if_pos hcount]
      cases ms with
      | nil => exact followsTrace_ok
      | cons m ms => exact m.serializeInPlace_plays v.1 pos buf
    · have hfollows : FollowsTrace (writeItems pos (pos + 0) (pos + ms.computeFixedLength v) (ms.items v) buf)
          (componentsTrace pos (pos + 0) (pos + ms.computeFixedLength v) (ms.components v)) buf :=
        followsTrace_writeItems (ms.items_play v) _ _ _ buf
      rw [componentsTrace_add] at hfollows
      rw [if_neg hcount, if_neg hcount, Members.serializeMembers_eq_writeItems]
      exact hfollows

theorem Members.items_play : {α : Type} → (ms : Members α) → (v : α) →
    List.Forall₂ Item.PlaysAs (ms.items v) (ms.components v)
  | _, .nil, _ => .nil
  | _, .cons m ms, (v, vs) =>
    .cons ⟨rfl, rfl, m.serializeInPlace_plays v⟩ (ms.items_play vs)

end

/-! ### Buffers with previous contents -/

/-- In the buffer the encoder leaves the bytes that `serialize` returns, from `p` on over the size of the
value, and around them what was there. -/
def SszType.Overwrites (τ : SszType α) (v : α) (p : Nat) (buf : Bytes) : Prop :=
  ∃ out, τ.serialize v = .ok out ∧
    τ.serializeInPlace v p buf = .ok (buf.take p ++ out ++ buf.drop (p + τ.size true v))

/-- The buffer that `serialize` allocates is of the size of the value, and no cursor runs beyond it. -/
def SszType.SizeFits (τ : SszType α) (v : α) : Prop :=
  τ.bufferSize v = τ.size true v ∧ τ.reach v ≤ τ.size true v

/-- No byte of the area that is only combined with others holds a bit they do not set, and no byte that
is not written holds any. -/
def SszType.Settles (τ : SszType α) (v : α) (area : Bytes) : Prop :=
  ∀ i < area.length, SettlesAlike orInto 0 ((τ.trace v).effectsAt i) (area.getD i 0)

lemma SszType.Overwrites.sizeFits {τ : SszType α} {v : α} {p : Nat} {buf : Bytes}
    (hroom : p + τ.size true v ≤ buf.length) (h : τ.Overwrites v p buf) : τ.SizeFits v := by
  obtain ⟨out, hser, hrun⟩ := h
  obtain ⟨hok, herr⟩ := τ.serializeInPlace_reaches v p buf
  rcases Nat.lt_or_ge buf.length (endOf p (τ.reach v)) with hlt | hle
  · cases hrun.symm.trans (herr hlt)
  · obtain ⟨out', hrun', hlen⟩ := hok hle
    obtain rfl := Except.ok.inj (hrun.symm.trans hrun')
    simp only [List.length_append, List.length_take, List.length_drop] at hlen
    exact SszType.serialize_returns_iff.mp ⟨out, hser, by omega⟩

/-- What `serialize` returns, and the writes that stay in its buffer. -/
lemma SszType.SizeFits.serialize_eq {τ : SszType α} {v : α} (h : τ.SizeFits v) :
    τ.serialize v = .ok ((τ.trace v).play orInto (zeros (τ.size true v))) ∧
      ∀ w ∈ τ.trace v, w.1 < τ.size true v := by
  obtain ⟨out, hser, -⟩ := SszType.serialize_returns_iff.mpr h
  obtain ⟨hout, hwithin⟩ := τ.serializeInPlace_plays v 0 (zeros (τ.bufferSize v)) out hser
  rw [Trace.shift_zero, h.1] at hout hwithin
  rw [length_zeros] at hwithin
  exact ⟨hser.trans (congrArg Except.ok hout), hwithin⟩

/-- In a large enough buffer the trace is played in the area of the value. -/
lemma SszType.SizeFits.serializeInPlace_eq {τ : SszType α} {v : α} (h : τ.SizeFits v) (pre : Bytes)
    {mid : Bytes} (hmid : mid.length = τ.size true v) (post : Bytes) :
    τ.serializeInPlace v pre.length (pre ++ mid ++ post) =
      .ok (pre ++ (τ.trace v).play orInto mid ++ post) := by
  have hend := endOf_le pre.length (τ.reach v)
  have hreach := h.2
  obtain ⟨out, hrun, -⟩ := (τ.serializeInPlace_reaches v pre.length (pre ++ mid ++ post)).1 (by
    simp only [List.length_append]
    omega)
  obtain ⟨rfl, -⟩ := τ.serializeInPlace_plays v _ _ out hrun
  rw [hrun, Trace.play_shift_append]
  rw [hmid]
  exact h.serialize_eq.2

lemma SszType.overwrites_iff (τ : SszType α) (v : α) {p : Nat} {buf : Bytes}
    (hroom : p + τ.size true v ≤ buf.length) :
    τ.Overwrites v p buf ↔ τ.SizeFits v ∧ τ.Settles v ((buf.drop p).take (τ.size true v)) := by
  rw [← and_iff_right_of_imp (SszType.Overwrites.sizeFits hroom)]
  apply and_congr_right
  intro hfit
  obtain ⟨pre, mid, post, rfl, hmid, rfl⟩ := exists_area hroom
  have harea : ((pre ++ mid ++ post).drop pre.length).take (τ.size true v) = mid := by
    rw [List.append_assoc, List.drop_left, ← hmid, List.take_left]
  have hdrop : (pre ++ mid ++ post).drop (pre.length + τ.size true v) = post := by
    rw [← hmid, ← List.length_append, List.drop_left]
  have hplay := Trace.play_eq_iff orInto (τ.trace v) 0 mid
  rw [harea, SszType.Settles, ← hplay, SszType.Overwrites, hfit.serializeInPlace_eq pre hmid post, hdrop,
    List.append_assoc pre mid, List.take_left, hmid, hfit.serialize_eq.1]
  constructor
  · rintro ⟨out, hser, hrun⟩
    obtain rfl := Except.ok.inj hser
    have hcancel := Except.ok.inj hrun
    exact List.append_cancel_left (List.append_cancel_right hcancel)
  · intro h
    exact ⟨_, rfl, by rw [h, zeros]⟩

end Sszpp
