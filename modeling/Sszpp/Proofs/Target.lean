import Sszpp.Proofs.Decoded

/-!
# The target of a decoder

A decoder writes to an object that its caller hands over. Lists, bitfields and arrays of basic types are
replaced as a whole; the decoder of an array of other types writes one object for each chunk that comes,
and the objects past the last chunk keep what they held.
-/

namespace Sszpp

open Library

variable {α : Type}

/-! ### What stays -/

/-- The objects with a chunk are those of `vs`, merged with what was there; the others stay. -/
def keepElements (keep : Bytes → α → α → α) : List Bytes → List α → List α → List α
  | chunk :: chunks, v :: vs, r :: rs => keep chunk v r :: keepElements keep chunks vs rs
  | _, _, rs => rs

@[simp] lemma keepElements_nil (keep : Bytes → α → α → α) (vs rs : List α) :
    keepElements keep [] vs rs = rs := by
  unfold keepElements
  rfl

@[simp] lemma keepElements_cons (keep : Bytes → α → α → α) (chunk : Bytes) (chunks : List Bytes) (v r : α)
    (vs rs : List α) : keepElements keep (chunk :: chunks) (v :: vs) (r :: rs) =
      keep chunk v r :: keepElements keep chunks vs rs := rfl

lemma length_keepElements (keep : Bytes → α → α → α) (chunks : List Bytes) (vs rs : List α) :
    (keepElements keep chunks vs rs).length = rs.length := by
  induction chunks generalizing vs rs with
  | nil => rw [keepElements_nil]
  | cons chunk chunks ih =>
    cases vs with
    | nil => rfl
    | cons v vs =>
      cases rs with
      | nil => rfl
      | cons r rs => rw [keepElements_cons, List.length_cons, ih, List.length_cons]

mutual

/-- The object `v` read from `bytes`, with what the decoder does not write taken from `r`. -/
def SszType.keep {α : Type} : SszType α → Bytes → α → α → α
  | .basic _, _, v, _ => v
  | .array e _, bytes, v, r =>
    if e.basicLayout.isSome then v
    else ⟨keepElements e.keep (pieces e.width bytes) v.1 r.1, by rw [length_keepElements, r.2]⟩
  | .vector _, _, v, _ => v
  | .list _ _, _, v, _ => v
  | .bitlist _, _, v, _ => v
  | .bitset _, _, v, _ => v
  | .container _ ms, bytes, v, r => ms.keep bytes (rangesAt bytes (ms.offsetWords bytes)) v r

def Members.keep {α : Type} : Members α → Bytes → List Bytes → α → α → α
  | .nil, _, _, v, _ => v
  | .cons m ms, shifted, ranges, (v, vs), (r, rs) =>
    if m.isVariableSize then
      match ranges with
      | p :: ps => (m.keep p v r, ms.keep (shifted.drop 4) ps vs rs)
      | [] => (v, ms.keep (shifted.drop 4) [] vs rs)
    else (m.keep (shifted.take m.width) v r, ms.keep (shifted.drop m.width) ranges vs rs)

end

/-- The same after the first pass, which does not write the members of variable size. -/
def Members.keepFixed {α : Type} : Members α → Bytes → α → α → α
  | .nil, _, v, _ => v
  | .cons m ms, shifted, (v, vs), (r, rs) =>
    if m.isVariableSize then (r, ms.keepFixed (shifted.drop 4) vs rs)
    else (m.keep (shifted.take m.width) v r, ms.keepFixed (shifted.drop m.width) vs rs)

/-! ### Decoding into two objects -/

section Outcomes

variable {β γ : Type}

lemma Outcome.nested_map (x : Outcome β) (f : β → γ) : Outcome.nested (x.map f) = x.nested.map f := by
  rcases x with (e | u) | v <;> rfl

lemma Outcome.map_self (x : Outcome β) : x = x.map fun v => v := by
  cases x <;> rfl

/-- Two runs with related steps. -/
lemma Outcome.bind_map {β' γ' : Type} {x : Outcome β} {x' : Outcome β'} {f : β → β'} {k : β → Outcome γ}
    {k' : β' → Outcome γ'} {g : γ → γ'} (hx : x' = x.map f) (hk : ∀ b, x = .ok b → k' (f b) = (k b).map g) :
    (x' >>= k') = (x >>= k).map g := by
  rw [hx]
  cases x with
  | error stop => rfl
  | ok b => exact hk b rfl

end Outcomes

/-- The chunks of an array, decoded into two arrays of one length. -/
lemma deserializeChunks_keep {deserialize : Bytes → α → Outcome α} {keep : Bytes → α → α → α}
    (h : ∀ p r r', deserialize p r' = (deserialize p r).map fun v => keep p v r') (chunks : List Bytes)
    {ret ret' : List α} (hlen : ret.length = ret'.length) :
    (deserializeChunks deserialize chunks ret').map Subtype.val =
      ((deserializeChunks deserialize chunks ret).map Subtype.val).map fun vs =>
        keepElements keep chunks vs ret' := by
  induction chunks generalizing ret ret' with
  | nil => simp [deserializeChunks, Except.map]
  | cons chunk chunks ih =>
    cases ret with
    | nil =>
      obtain rfl := List.length_eq_zero_iff.mp hlen.symm
      rfl
    | cons r ret =>
      cases ret' with
      | nil => cases hlen
      | cons r' ret' =>
        have hrest := @ih ret ret' (Nat.succ.inj hlen)
        simp only [deserializeChunks, h chunk r r', Outcome.nested_map]
        rcases (deserialize chunk r).nested with stop | v
        · rfl
        · simp only [Except.map, Outcome.ok_bind] at hrest ⊢
          rcases hdec : deserializeChunks deserialize chunks ret with stop | vs <;>
            rcases hdec' : deserializeChunks deserialize chunks ret' with stop' | vs' <;>
            simp_all [Except.map]

lemma deserializeFixedArray_keep {deserialize : Bytes → α → Outcome α} {keep : Bytes → α → α → α}
    (h : ∀ p r r', deserialize p r' = (deserialize p r).map fun v => keep p v r') (k : Nat) {n : Nat}
    (bytes : Bytes) (ret ret' : StdArray α n) :
    deserializeFixedArray deserialize k bytes ret' = (deserializeFixedArray deserialize k bytes ret).map fun v =>
      ⟨keepElements keep (pieces k bytes) v.1 ret'.1, by rw [length_keepElements, ret'.2]⟩ := by
  have hchunks := deserializeChunks_keep h (pieces k bytes) (ret.2.trans ret'.2.symm)
  simp only [deserializeFixedArray, deserializeChunked]
  by_cases hk : k = 0
  · rw [if_pos hk, if_pos hk]
    rfl
  · rw [if_neg hk, if_neg hk]
    rcases hdec : deserializeChunks deserialize (pieces k bytes) ret.1 with stop | vs <;>
      rcases hdec' : deserializeChunks deserialize (pieces k bytes) ret'.1 with stop' | vs' <;>
      simp_all [Except.map]

/-! ### Containers -/

/-- Decoders of the members that return one object up to what they do not write. -/
def Members.Keeps {α : Type} : Members α → Prop
  | .nil => True
  | .cons m ms => (∀ p r r', m.deserialize p r' = (m.deserialize p r).map fun v => m.keep p v r') ∧ ms.Keeps

theorem Members.deserializeFixedSizeMembers_map : {α : Type} → (ms : Members α) → ms.WellFormed → ms.Keeps →
    (shifted : Bytes) → (r r' : α) →
    ms.deserializeFixedSizeMembers shifted r' =
      (ms.deserializeFixedSizeMembers shifted r).map fun s => (ms.keepFixed shifted s.1 r', s.2)
  | _, .nil, _, _, _, _, _ => rfl
  | _, .cons m ms, hwf, h, shifted, (r, rs), (r', rs') => by
    simp only [Members.deserializeFixedSizeMembers, Members.keepFixed, hwf.1.variableSize_eq]
    cases hvar : m.isVariableSize with
    | true =>
      simp only [if_true, BYTES_PER_LENGTH_OFFSET]
      rcases readOffset shifted with stop | offset
      · rfl
      · simp only [Outcome.ok_bind]
        exact Outcome.bind_map (Members.deserializeFixedSizeMembers_map ms hwf.2 h.2 _ rs rs') fun _ _ => rfl
    | false =>
      simp only [Bool.false_eq_true, if_false, m.size_eq_width hwf.1 hvar, h.1 _ r r', Outcome.nested_map]
      refine Outcome.bind_map rfl fun v _ => ?_
      exact Outcome.bind_map (Members.deserializeFixedSizeMembers_map ms hwf.2 h.2 _ rs rs') fun _ _ => rfl

/-- The second pass, on objects that differ in what the first one left. -/
theorem Members.deserializeVariableSizeMembers_map : {α : Type} → (ms : Members α) → ms.WellFormed → ms.Keeps →
    (bytes shifted : Bytes) → (offset : Nat) → (table : List Nat) → (s r' : α) →
    (ms.offsetWords shifted = offset :: table ∨ ms.offsetWords shifted = []) →
    ms.deserializeVariableSizeMembers bytes offset table (ms.keepFixed shifted s r') =
      (ms.deserializeVariableSizeMembers bytes offset table s).map fun v =>
        ms.keep shifted (rangesAt bytes (ms.offsetWords shifted)) v r'
  | _, .nil, _, _, _, _, _, _, _, _, _ => rfl
  | _, .cons m ms, hwf, h, bytes, shifted, offset, table, (s, ss), (r', rs'), htable => by
    cases hvar : m.isVariableSize with
    | true =>
      simp only [Members.offsetWords, hvar, if_true, List.cons.injEq, reduceCtorEq, or_false] at htable
      obtain ⟨rfl, hwords⟩ := htable
      simp only [Members.deserializeVariableSizeMembers, Members.keepFixed, hwf.1.variableSize_eq, hvar, if_true,
        Members.offsetWords, hwords]
      cases table with
      | nil =>
        have hrest := ms.deserializeVariableSizeMembers_map hwf.2 h.2 bytes (shifted.drop 4)
          (leNat (shifted.take 4)) [] ss rs' (.inr hwords)
        rw [hwords] at hrest
        rw [h.1 _ s r', Outcome.nested_map]
        refine Outcome.bind_map rfl fun v _ => ?_
        exact Outcome.bind_map hrest fun vs _ => by simp [Members.keep, hvar, rangesAt, Except.map]
      | cons next table =>
        have hrest := ms.deserializeVariableSizeMembers_map hwf.2 h.2 bytes (shifted.drop 4) next table ss rs'
          (.inl hwords)
        rw [hwords] at hrest
        simp only [subrange]
        split
        · simp only [Outcome.ok_bind]
          rw [h.1 _ s r', Outcome.nested_map]
          refine Outcome.bind_map rfl fun v _ => ?_
          exact Outcome.bind_map hrest fun vs _ => by simp [Members.keep, hvar, rangesAt, Except.map]
        · rfl
    | false =>
      simp only [Members.offsetWords, hvar, Bool.false_eq_true, if_false] at htable
      simp only [Members.deserializeVariableSizeMembers, Members.keepFixed, hwf.1.variableSize_eq, hvar,
        Bool.false_eq_true, if_false, Members.offsetWords]
      have hrest := ms.deserializeVariableSizeMembers_map hwf.2 h.2 bytes (shifted.drop m.width) offset table ss
        rs' htable
      exact Outcome.bind_map hrest fun vs _ => by simp [Members.keep, hvar, Except.map]

lemma Members.keep_of_offsetWords_nil : {α : Type} → (ms : Members α) → (shifted : Bytes) → (v r : α) →
    ms.offsetWords shifted = [] → ms.keep shifted [] v r = ms.keepFixed shifted v r
  | _, .nil, _, _, _, _ => rfl
  | _, .cons m ms, shifted, (v, vs), (r, rs), hwords => by
    cases hvar : m.isVariableSize with
    | true => simp [Members.offsetWords, hvar] at hwords
    | false =>
      simp only [Members.offsetWords, hvar, Bool.false_eq_true, if_false] at hwords
      simp only [Members.keep, Members.keepFixed, hvar, Bool.false_eq_true, if_false,
        ms.keep_of_offsetWords_nil _ vs rs hwords]

lemma Members.deserializeContainer_map {ms : Members α} (hwf : ms.WellFormed) (h : ms.Keeps) (bytes : Bytes)
    (r r' : α) : ms.deserializeContainer bytes r' = (ms.deserializeContainer bytes r).map fun v =>
      ms.keep bytes (rangesAt bytes (ms.offsetWords bytes)) v r' := by
  refine Outcome.bind_map (ms.deserializeFixedSizeMembers_map hwf h bytes r r') ?_
  rintro ⟨s, table⟩ hs
  obtain ⟨rfl, -⟩ := ms.deserializeFixedSizeMembers_eq_ok hwf bytes r s table hs
  cases hwords : ms.offsetWords bytes with
  | nil => exact congrArg Except.ok (ms.keep_of_offsetWords_nil bytes s r' hwords).symm
  | cons offset table =>
    have hvariable := ms.deserializeVariableSizeMembers_map hwf h bytes bytes offset table s r' (.inl hwords)
    rwa [hwords] at hvariable

mutual

/-- The same input gives the same outcome whatever the target held, up to what stays in the target. -/
theorem SszType.deserialize_map : {α : Type} → (τ : SszType α) → τ.WellFormed → (bytes : Bytes) → (r r' : α) →
    τ.deserialize bytes r' = (τ.deserialize bytes r).map fun v => τ.keep bytes v r'
  | _, .basic _, _, _, _, _ => Outcome.map_self _
  | _, .array e n, hwf, bytes, r, r' => by
    have he := fun p s s' => SszType.deserialize_map e hwf.2 p s s'
    simp only [SszType.deserialize, deserializeArray, hwf.2.variableSize_eq, hwf.1, SszType.keep]
    cases e.basicLayout with
    | some layout => exact Outcome.map_self _
    | none => exact deserializeFixedArray_keep he e.width bytes r r'
  | _, .vector _, hwf, _, _, _ => hwf.elim
  | _, .list _ _, _, _, _, _ => Outcome.map_self _
  | _, .bitlist _, _, _, _, _ => Outcome.map_self _
  | _, .bitset _, _, bytes, r, r' => congrArg Except.ok (deserializeBitset_target bytes r' r)
  | _, .container _ ms, hwf, bytes, r, r' =>
    Members.deserializeContainer_map hwf.2 (Members.keeps ms hwf.2) bytes r r'

theorem Members.keeps : {α : Type} → (ms : Members α) → ms.WellFormed → ms.Keeps
  | _, .nil, _ => trivial
  | _, .cons m ms, hwf => ⟨SszType.deserialize_map m hwf.1, Members.keeps ms hwf.2⟩

end

/-! ### When nothing stays -/

mutual

/-- Every array of objects that are not basic gets a chunk for each of its objects. -/
def SszType.overwrites {α : Type} : SszType α → Bytes → Bool
  | .basic _, _ => true
  | .array e n, bytes =>
    e.basicLayout.isSome ||
      decide (n ≤ (pieces e.width bytes).length) && ((pieces e.width bytes).take n).all e.overwrites
  | .vector _, _ => true
  | .list _ _, _ => true
  | .bitlist _, _ => true
  | .bitset _, _ => true
  | .container _ ms, bytes => ms.overwrites bytes (rangesAt bytes (ms.offsetWords bytes))

def Members.overwrites {α : Type} : Members α → Bytes → List Bytes → Bool
  | .nil, _, _ => true
  | .cons m ms, shifted, ranges =>
    if m.isVariableSize then
      match ranges with
      | p :: ps => m.overwrites p && ms.overwrites (shifted.drop 4) ps
      | [] => ms.overwrites (shifted.drop 4) []
    else m.overwrites (shifted.take m.width) && ms.overwrites (shifted.drop m.width) ranges

end

mutual

/-- The elements of arrays take up bytes. -/
def SszType.dense {α : Type} : SszType α → Bool
  | .basic _ => true
  | .array e _ => decide (0 < e.width) && e.dense
  | .vector _ => true
  | .list _ _ => true
  | .bitlist _ => true
  | .bitset _ => true
  | .container _ ms => ms.dense

def Members.dense {α : Type} : Members α → Bool
  | .nil => true
  | .cons m ms => m.dense && ms.dense

end

lemma BasicType.exists_ne (b : BasicType) (v : b.Val) : ∃ w, w ≠ v := by
  have hsize : 256 ^ 1 ≤ 256 ^ b.sizeof := Nat.pow_le_pow_right (by decide) b.sizeof_pos
  by_cases hv : b.toNumber v = 0
  · refine ⟨b.ofNumber 1, ?_⟩
    rintro rfl
    rw [b.toNumber_ofNumber (by omega) fun _ => le_rfl] at hv
    cases hv
  · refine ⟨b.ofNumber 0, ?_⟩
    rintro rfl
    exact hv (b.toNumber_ofNumber (by omega) fun _ => Nat.zero_le 1)

/-- Another array of the same length. -/
lemma StdArray.exists_ne (h : ∀ x : α, ∃ y, y ≠ x) {n : Nat} (hn : 0 < n) (v : StdArray α n) : ∃ w, w ≠ v := by
  obtain ⟨xs, hxs⟩ := v
  cases xs with
  | nil =>
    rw [← hxs] at hn
    cases hn
  | cons x xs =>
    obtain ⟨y, hy⟩ := h x
    exact ⟨⟨y :: xs, hxs⟩, fun heq => hy (List.cons.inj (Subtype.mk.inj heq)).1⟩

lemma exists_ne_list (x : α) (vs : List α) : ∃ ws, ws ≠ vs := by
  cases vs with
  | nil => exact ⟨[x], List.cons_ne_nil x []⟩
  | cons v vs => exact ⟨[], (List.cons_ne_nil v vs).symm⟩

mutual

/-- A type that takes up bytes has two objects. -/
theorem SszType.exists_ne : {α : Type} → (τ : SszType α) → τ.WellFormed →
    (τ.isVariableSize = true ∨ 0 < τ.width) → (v : α) → ∃ w, w ≠ v
  | _, .basic b, _, _, v => b.exists_ne v
  | _, .array e n, hwf, h, v => by
    have hfix : (SszType.array e n).isVariableSize = false := hwf.1
    rw [hfix, SszType.width_array hwf] at h
    have hpos : 0 < n * e.width := h.resolve_left Bool.false_ne_true
    exact StdArray.exists_ne (SszType.exists_ne e hwf.2 (.inr (Nat.pos_of_mul_pos_left hpos)))
      (Nat.pos_of_mul_pos_right hpos) v
  | _, .vector _, hwf, _, _ => hwf.elim
  | _, .list e _, _, _, v => exists_ne_list e.vac v
  | _, .bitlist _, _, _, v => exists_ne_list true v
  | _, .bitset n, _, h, v => by
    have hpos : 0 < (n + 7) / 8 := h.resolve_left Bool.false_ne_true
    exact StdArray.exists_ne (fun b => ⟨!b, by cases b <;> decide⟩) (by omega) v
  | _, .container _ ms, hwf, h, v => Members.exists_ne ms hwf.2 h v

theorem Members.exists_ne : {α : Type} → (ms : Members α) → ms.WellFormed →
    (ms.hasVariableSize = true ∨ 0 < ms.computeTotalLength ms.vac) → (v : α) → ∃ w, w ≠ v
  | _, .nil, _, h, _ => by simp [Members.hasVariableSize, Members.computeTotalLength] at h
  | _, .cons m ms, hwf, h, (v, vs) => by
    have hsplit : (m.isVariableSize = true ∨ 0 < m.width) ∨
        (ms.hasVariableSize = true ∨ 0 < ms.computeTotalLength ms.vac) := by
      by_contra hnone
      simp only [not_or, Bool.not_eq_true, not_lt, Nat.le_zero] at hnone
      obtain ⟨⟨hvar, hwidth⟩, hvars, htotal⟩ := hnone
      have hsize : m.size true m.vac = 0 := hwidth
      simp [Members.hasVariableSize, Members.computeTotalLength, Members.vac, sizePlusPlaceholder,
        hwf.1.variableSize_eq, hvar, hsize, hvars, htotal] at h
    rcases hsplit with hm | hms
    · obtain ⟨w, hw⟩ := SszType.exists_ne m hwf.1 hm v
      exact ⟨(w, vs), fun heq => hw (Prod.mk.inj heq).1⟩
    · obtain ⟨ws, hws⟩ := Members.exists_ne ms hwf.2 hms vs
      exact ⟨(v, ws), fun heq => hws (Prod.mk.inj heq).2⟩

end

lemma keepElements_eq_iff {keep : Bytes → α → α → α} {overwrites : Bytes → Bool}
    (h : ∀ p v, (∀ r, keep p v r = v) ↔ overwrites p = true) (hne : ∀ v : α, ∃ w, w ≠ v)
    (chunks : List Bytes) (vs : List α) :
    (∀ rs : List α, rs.length = vs.length → keepElements keep chunks vs rs = vs) ↔
      vs.length ≤ chunks.length ∧ ∀ p ∈ chunks.take vs.length, overwrites p = true := by
  induction vs generalizing chunks with
  | nil =>
    refine ⟨fun _ => ⟨Nat.zero_le _, fun p hp => by cases hp⟩, fun _ rs hrs => ?_⟩
    obtain rfl := List.length_eq_zero_iff.mp hrs
    exact List.length_eq_zero_iff.mp (length_keepElements keep chunks [] [])
  | cons v vs ih =>
    cases chunks with
    | nil =>
      obtain ⟨w, hw⟩ := hne v
      refine ⟨fun hkeep => ?_, fun hlen => absurd hlen.1 (Nat.not_succ_le_zero _)⟩
      exact absurd (List.cons.inj (hkeep (w :: vs) rfl)).1 hw
    | cons chunk chunks =>
      rw [List.length_cons, List.length_cons, List.take_succ_cons, List.forall_mem_cons, Nat.succ_le_succ_iff,
        and_left_comm, ← ih chunks, ← h chunk v]
      constructor
      · intro hkeep
        refine ⟨fun r => ?_, fun rs hrs => ?_⟩
        · exact (List.cons.inj (hkeep (r :: vs) rfl)).1
        · exact (List.cons.inj (hkeep (v :: rs) (congrArg Nat.succ hrs))).2
      · rintro ⟨hhead, htail⟩ rs hrs
        cases rs with
        | nil => cases hrs
        | cons r rs => rw [keepElements_cons, hhead r, htail rs (Nat.succ.inj hrs)]

mutual

theorem SszType.keep_eq_iff : {α : Type} → (τ : SszType α) → τ.WellFormed → τ.dense = true → (bytes : Bytes) →
    (v : α) → ((∀ r, τ.keep bytes v r = v) ↔ τ.overwrites bytes = true)
  | _, .basic _, _, _, _, _ => ⟨fun _ => rfl, fun _ _ => rfl⟩
  | _, .array e n, hwf, hdense, bytes, v => by
    simp only [SszType.dense, Bool.and_eq_true, decide_eq_true_eq] at hdense
    have he := fun p x => SszType.keep_eq_iff e hwf.2 hdense.2 p x
    have helements := keepElements_eq_iff he (e.exists_ne hwf.2 (.inr hdense.1)) (pieces e.width bytes) v.1
    simp only [SszType.keep, SszType.overwrites]
    cases e.basicLayout with
    | some layout => simp
    | none =>
      simp only [Option.isSome_none, Bool.false_eq_true, if_false, Bool.false_or, Bool.and_eq_true,
        decide_eq_true_eq, List.all_eq_true]
      rw [v.2] at helements
      rw [← helements]
      exact ⟨fun h rs hrs => congrArg Subtype.val (h ⟨rs, hrs⟩), fun h r => Subtype.ext (h r.1 r.2)⟩
  | _, .vector _, hwf, _, _, _ => hwf.elim
  | _, .list _ _, _, _, _, _ => ⟨fun _ => rfl, fun _ _ => rfl⟩
  | _, .bitlist _, _, _, _, _ => ⟨fun _ => rfl, fun _ _ => rfl⟩
  | _, .bitset _, _, _, _, _ => ⟨fun _ => rfl, fun _ _ => rfl⟩
  | _, .container _ ms, hwf, hdense, bytes, v => Members.keep_eq_iff ms hwf.2 hdense bytes _ v

theorem Members.keep_eq_iff : {α : Type} → (ms : Members α) → ms.WellFormed → ms.dense = true → (shifted : Bytes) →
    (ranges : List Bytes) → (v : α) →
    ((∀ r, ms.keep shifted ranges v r = v) ↔ ms.overwrites shifted ranges = true)
  | _, .nil, _, _, _, _, _ => ⟨fun _ => rfl, fun _ _ => rfl⟩
  | _, .cons m ms, hwf, hdense, shifted, ranges, (v, vs) => by
    rw [Members.dense, Bool.and_eq_true] at hdense
    have hm := fun p => SszType.keep_eq_iff m hwf.1 hdense.1 p v
    have hms := fun p ps => Members.keep_eq_iff ms hwf.2 hdense.2 p ps vs
    simp only [Members.keep, Members.overwrites, Prod.forall]
    cases m.isVariableSize with
    | true =>
      cases ranges with
      | nil =>
        rw [if_pos rfl, ← hms]
        exact ⟨fun h r => (Prod.mk.inj (h v r)).2, fun h r rs => by simp only [if_true, h rs]⟩
      | cons p ps =>
        rw [if_pos rfl, Bool.and_eq_true, ← hm, ← hms]
        exact ⟨fun h => ⟨fun r => (Prod.mk.inj (h r vs)).1, fun rs => (Prod.mk.inj (h v rs)).2⟩,
          fun h r rs => by simp only [if_true, h.1 r, h.2 rs]⟩
    | false =>
      rw [if_neg Bool.false_ne_true, Bool.and_eq_true, ← hm, ← hms]
      exact ⟨fun h => ⟨fun r => (Prod.mk.inj (h r vs)).1, fun rs => (Prod.mk.inj (h v rs)).2⟩,
        fun h r rs => by simp only [Bool.false_eq_true, if_false, h.1 r, h.2 rs]⟩

end

mutual

/-- The decoder does not return on an empty input. -/
def SszType.demands {α : Type} : SszType α → Bool
  | .basic _ => true
  | .array e n => e.basicLayout.isSome && decide (0 < n)
  | .vector _ => false
  | .list _ _ => false
  | .bitlist _ => false
  | .bitset _ => false
  | .container _ ms => ms.demands

def Members.demands {α : Type} : Members α → Bool
  | .nil => false
  | .cons m ms => m.isVariableSize || m.demands || ms.demands

end

mutual

/-- An array of objects that are not basic stands before a member that needs bytes. -/
def SszType.refreshes {α : Type} : SszType α → Bool
  | .basic _ => true
  | .array e _ => e.basicLayout.isSome
  | .vector _ => true
  | .list _ _ => true
  | .bitlist _ => true
  | .bitset _ => true
  | .container _ ms => ms.refreshes

def Members.refreshes {α : Type} : Members α → Bool
  | .nil => true
  | .cons m ms =>
    (m.refreshes || !m.isVariableSize && ms.demands && decide (m.fixedSize < 2 ^ 32)) && ms.refreshes

end

mutual

theorem SszType.ne_nil_of_demands : {α : Type} → (τ : SszType α) → τ.WellFormed → {bytes : Bytes} → {r v : α} →
    τ.demands = true → τ.deserialize bytes r = .ok v → bytes ≠ []
  | _, .basic b, _, bytes, _, v, _, h => by
    rintro rfl
    have hlen := (BasicType.deserialize_eq_ok h).1
    exact absurd hlen (Nat.not_le_of_gt b.sizeof_pos)
  | _, .array e n, hwf, bytes, r, v, hdemands, h => by
    rintro rfl
    simp only [SszType.demands, Bool.and_eq_true, decide_eq_true_eq] at hdemands
    simp only [SszType.deserialize, deserializeArray] at h
    cases hlayout : e.basicLayout with
    | none => simp [hlayout] at hdemands
    | some layout =>
      have hpos : 0 < layout.sizeof * n := Nat.mul_pos layout.sizeof_pos hdemands.2
      simp only [hlayout, deserializeBasicArray, List.length_nil, if_pos hpos, reduceCtorEq] at h
  | _, .vector _, hwf, _, _, _, _, _ => hwf.elim
  | _, .list _ _, _, _, _, _, hdemands, _ => by cases hdemands
  | _, .bitlist _, _, _, _, _, hdemands, _ => by cases hdemands
  | _, .bitset _, _, _, _, _, hdemands, _ => by cases hdemands
  | _, .container _ ms, hwf, bytes, r, v, hdemands, h =>
    Members.ne_nil_of_demands ms hwf.2 hdemands (ms.deserializeContainer_eq_ok hwf.2 h).2

theorem Members.ne_nil_of_demands : {α : Type} → (ms : Members α) → ms.WellFormed → {shifted : Bytes} →
    {ranges : List Bytes} → {v : α} → ms.demands = true → ms.Decoded shifted ranges v → shifted ≠ []
  | _, .nil, _, _, _, _, hdemands, _ => by cases hdemands
  | _, .cons m ms, hwf, shifted, ranges, (v, vs), hdemands, h => by
    rintro rfl
    simp only [Members.Decoded] at h
    cases hvar : m.isVariableSize with
    | true =>
      rw [hvar, if_pos rfl] at h
      exact absurd h.1 (by decide)
    | false =>
      rw [hvar, if_neg Bool.false_ne_true] at h
      simp only [Members.demands, hvar, Bool.false_or, Bool.or_eq_true] at hdemands
      obtain ⟨⟨old, hm⟩, hms⟩ := h
      rcases hdemands with hdemands | hdemands
      · exact SszType.ne_nil_of_demands m hwf.1 hdemands hm (by simp)
      · exact Members.ne_nil_of_demands ms hwf.2 hdemands hms (by simp)

end

mutual

/-- As many bytes as the type takes fill its arrays. -/
theorem SszType.overwrites_of_length : {α : Type} → (τ : SszType α) → τ.WellFormed → τ.dense = true →
    τ.isVariableSize = false → τ.fixedSize < 2 ^ 32 → {bytes : Bytes} → bytes.length = τ.fixedSize →
    τ.overwrites bytes = true
  | _, .basic _, _, _, _, _, _, _ => rfl
  | _, .array e n, hwf, hdense, hfix, hlt, bytes, hlen => by
    simp only [SszType.dense, Bool.and_eq_true, decide_eq_true_eq] at hdense
    simp only [SszType.overwrites, Bool.or_eq_true, Bool.and_eq_true, decide_eq_true_eq, List.all_eq_true]
    refine .inr ?_
    rcases Nat.eq_zero_or_pos n with rfl | hn
    · exact ⟨Nat.zero_le _, fun p hp => by cases hp⟩
    · have hle : e.fixedSize ≤ n * e.fixedSize := Nat.le_mul_of_pos_left _ hn
      have hwidth := e.width_eq_fixedSize hwf.2 hwf.1 (Nat.lt_of_le_of_lt hle hlt)
      have hlen' : bytes.length = n * e.width := by rw [hwidth]; exact hlen
      have hmod : bytes.length % e.width = 0 := by rw [hlen', Nat.mul_mod_left]
      refine ⟨le_of_eq (length_pieces_of_length hdense.1 hlen').symm, fun p hp => ?_⟩
      have hp' := length_of_mem_pieces hdense.1 hmod (List.mem_of_mem_take hp)
      exact SszType.overwrites_of_length e hwf.2 hdense.2 hwf.1 (Nat.lt_of_le_of_lt hle hlt) (hp'.trans hwidth)
  | _, .vector _, hwf, _, _, _, _, _ => hwf.elim
  | _, .list _ _, _, _, hfix, _, _, _ => by cases hfix
  | _, .bitlist _, _, _, hfix, _, _, _ => by cases hfix
  | _, .bitset _, _, _, _, _, _, _ => rfl
  | _, .container _ ms, hwf, hdense, hfix, hlt, bytes, hlen =>
    Members.overwrites_of_length ms hwf.2 hdense hfix hlt hlen _

theorem Members.overwrites_of_length : {α : Type} → (ms : Members α) → ms.WellFormed → ms.dense = true →
    ms.hasVariableSize = false → ms.fixedSize < 2 ^ 32 → {shifted : Bytes} → shifted.length = ms.fixedSize →
    (ranges : List Bytes) → ms.overwrites shifted ranges = true
  | _, .nil, _, _, _, _, _, _, _ => rfl
  | _, .cons m ms, hwf, hdense, hfix, hlt, shifted, hlen, ranges => by
    rw [Members.hasVariableSize, Bool.or_eq_false_iff] at hfix
    rw [Members.dense, Bool.and_eq_true] at hdense
    obtain ⟨hm, hms⟩ := Members.fixedSize_cons_lt hlt
    have hwidth := m.width_eq_fixedSize hwf.1 hfix.1 hm
    rw [Members.fixedSize] at hlen
    simp only [Members.overwrites, hfix.1, Bool.false_eq_true, if_false, Bool.and_eq_true]
    constructor
    · refine SszType.overwrites_of_length m hwf.1 hdense.1 hfix.1 hm ?_
      rw [List.length_take, hwidth]
      omega
    · refine Members.overwrites_of_length ms hwf.2 hdense.2 hfix.2 hms ?_ ranges
      rw [List.length_drop, hwidth]
      omega

end

mutual

theorem SszType.overwrites_of_refreshes : {α : Type} → (τ : SszType α) → τ.WellFormed → τ.dense = true →
    τ.refreshes = true → {bytes : Bytes} → {r v : α} → τ.deserialize bytes r = .ok v → τ.overwrites bytes = true
  | _, .basic _, _, _, _, _, _, _, _ => rfl
  | _, .array e _, _, _, hrefreshes, _, _, _, _ => by
    have hbasic : e.basicLayout.isSome = true := hrefreshes
    rw [SszType.overwrites, hbasic, Bool.true_or]
  | _, .vector _, hwf, _, _, _, _, _, _ => hwf.elim
  | _, .list _ _, _, _, _, _, _, _, _ => rfl
  | _, .bitlist _, _, _, _, _, _, _, _ => rfl
  | _, .bitset _, _, _, _, _, _, _, _ => rfl
  | _, .container _ ms, hwf, hdense, hrefreshes, _, _, _, h =>
    Members.overwrites_of_refreshes ms hwf.2 hdense hrefreshes (ms.deserializeContainer_eq_ok hwf.2 h).2

theorem Members.overwrites_of_refreshes : {α : Type} → (ms : Members α) → ms.WellFormed → ms.dense = true →
    ms.refreshes = true → {shifted : Bytes} → {ranges : List Bytes} → {v : α} →
    ms.Decoded shifted ranges v → ms.overwrites shifted ranges = true
  | _, .nil, _, _, _, _, _, _, _ => rfl
  | _, .cons m ms, hwf, hdense, hrefreshes, shifted, ranges, (v, vs), h => by
    rw [Members.dense, Bool.and_eq_true] at hdense
    rw [Members.refreshes, Bool.and_eq_true, Bool.or_eq_true] at hrefreshes
    simp only [Members.Decoded, Members.overwrites] at h ⊢
    cases hvar : m.isVariableSize with
    | true =>
      simp only [hvar, if_true, Bool.not_true, Bool.false_and, Bool.false_eq_true, or_false] at h hrefreshes ⊢
      obtain ⟨-, p, ps, old, rfl, hm, hms⟩ := h
      rw [Bool.and_eq_true]
      exact ⟨SszType.overwrites_of_refreshes m hwf.1 hdense.1 hrefreshes.1 hm,
        Members.overwrites_of_refreshes ms hwf.2 hdense.2 hrefreshes.2 hms⟩
    | false =>
      simp only [hvar, Bool.false_eq_true, if_false, Bool.not_false, Bool.true_and, Bool.and_eq_true,
        decide_eq_true_eq] at h hrefreshes ⊢
      obtain ⟨⟨old, hm⟩, hms⟩ := h
      refine ⟨?_, Members.overwrites_of_refreshes ms hwf.2 hdense.2 hrefreshes.2 hms⟩
      rcases hrefreshes.1 with hrefresh | ⟨hdemands, hlt⟩
      · exact SszType.overwrites_of_refreshes m hwf.1 hdense.1 hrefresh hm
      · -- bytes are left for the next members, so this one got all of its own
        have hrest := List.length_pos_iff.mpr (Members.ne_nil_of_demands ms hwf.2 hdemands hms)
        rw [List.length_drop] at hrest
        refine SszType.overwrites_of_length m hwf.1 hdense.1 hvar hlt ?_
        rw [List.length_take_of_le (by omega), m.width_eq_fixedSize hwf.1 hvar hlt]

end

/-- The outcome does not depend on the target. -/
theorem SszType.deserialize_eq_of_refreshes {τ : SszType α} (hwf : τ.WellFormed) (hdense : τ.dense = true)
    (h : τ.refreshes = true) (bytes : Bytes) (r r' : α) : τ.deserialize bytes r' = τ.deserialize bytes r := by
  rw [SszType.deserialize_map τ hwf bytes r r']
  rcases hdec : τ.deserialize bytes r with stop | v
  · rfl
  · have hkeep := (SszType.keep_eq_iff τ hwf hdense bytes v).mpr
      (SszType.overwrites_of_refreshes τ hwf hdense h hdec)
    exact congrArg Except.ok (hkeep r')

end Sszpp
