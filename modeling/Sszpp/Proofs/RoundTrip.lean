import Sszpp.Proofs.Encoding

/-!
# Decoding what was encoded

The decoder of a container reads its members back in two passes: the first leaves the objects of
variable size as they were and collects their offsets, the second one cuts the tails at these
offsets.
-/

namespace Sszpp

open Library

variable {α : Type}

/-! ### Sequences of elements -/

lemma deserializeCopy_flatMap (layout : BasicLayout α) {n : Nat} (vs : List α) (hvs : vs.length = n) :
    deserializeCopy layout n (vs.flatMap layout.toBytes) = .ok ⟨vs, hvs⟩ := by
  subst hvs
  induction vs with
  | nil => rfl
  | cons v vs ih =>
    simp only [List.flatMap_cons, List.length_cons, deserializeCopy, layout.load_toBytes,
      Outcome.ok_bind, List.drop_left' (layout.length_toBytes v), ih]

lemma deserializeChunks_map {deserialize : Bytes → α → Outcome α} {encode : α → Bytes}
    (vs ret : List α) (h : ∀ v ∈ vs, ∀ r, deserialize (encode v) r = .ok v)
    (hlen : vs.length = ret.length) :
    deserializeChunks deserialize (vs.map encode) ret = .ok ⟨vs, hlen⟩ := by
  induction vs generalizing ret with
  | nil =>
    cases ret with
    | nil => rfl
    | cons r ret => cases hlen
  | cons v vs ih =>
    cases ret with
    | nil => cases hlen
    | cons r ret =>
      have hrest := ih ret (fun w hw => h w (List.mem_cons_of_mem _ hw)) (by simpa using hlen)
      simp only [List.map_cons, deserializeChunks]
      rw [h v (by simp), Outcome.nested_ok, Outcome.ok_bind, hrest, Outcome.ok_bind]

lemma deserializeChunked_flatMap {deserialize : Bytes → α → Outcome α} {encode : α → Bytes}
    {k : Nat} (hk : 0 < k) (vs ret : List α)
    (h : ∀ v ∈ vs, (encode v).length = k ∧ ∀ r, deserialize (encode v) r = .ok v)
    (hlen : vs.length = ret.length) :
    deserializeChunked deserialize k (vs.flatMap encode) ret = .ok ⟨vs, hlen⟩ := by
  rw [deserializeChunked, if_neg (by omega), pieces_flatMap hk encode vs fun v hv => (h v hv).1]
  exact deserializeChunks_map vs ret (fun v hv => (h v hv).2) hlen

lemma subrange_eq_ok {bytes out : Bytes} {first last : Nat} :
    subrange bytes first last = .ok out ↔
      first ≤ last ∧ last ≤ bytes.length ∧ (bytes.drop first).take (last - first) = out := by
  unfold subrange
  split
  · rename_i h
    simp [h, List.drop_take]
  · rename_i h
    constructor
    · rintro ⟨⟩
    · rintro ⟨h1, h2, -⟩
      exact absurd ⟨h1, h2⟩ h

/-- The range between the beginnings of two consecutive tails. -/
lemma subrange_append (pre mid post : Bytes) {first last : Nat} (hfirst : first = pre.length)
    (hlast : last = first + mid.length) : subrange (pre ++ (mid ++ post)) first last = .ok mid := by
  subst hfirst hlast
  refine subrange_eq_ok.mpr ⟨by omega, by simp only [List.length_append]; omega, ?_⟩
  rw [List.drop_left, Nat.add_sub_cancel_left, List.take_left]

/-- The loop over the elements from `v` on, `pre` being the bytes before the encoding of `v`. -/
lemma deserializeVariableLoop_eq {deserialize : Bytes → α → Outcome α} {encode : α → Bytes} (vac : α)
    (v : α) (vs : List α) (h : ∀ w ∈ v :: vs, ∀ r, deserialize (encode w) r = .ok w)
    (pre post : Bytes) (idx : Nat)
    (hoff : ∀ o ∈ offsets pre.length (variableParts encode (v :: vs)), o < 2 ^ 32)
    (hidx : (pre ++ tails (variableParts encode (v :: vs))).drop idx =
      heads (pre.length + (encode v).length) (variableParts encode vs) ++ post) :
    deserializeVariableLoop deserialize vac (pre ++ tails (variableParts encode (v :: vs)))
      vs.length pre.length idx = .ok (v :: vs) := by
  induction vs generalizing v pre idx with
  | nil =>
    simp only [List.length_nil, deserializeVariableLoop]
    rw [List.drop_left]
    simp [h v (by simp)]
  | cons w ws ih =>
    have hregroup : pre ++ tails (variableParts encode (v :: w :: ws)) =
        pre ++ encode v ++ tails (variableParts encode (w :: ws)) := by simp
    have hnext : (pre ++ encode v).length = pre.length + (encode v).length := List.length_append
    have hlt : pre.length + (encode v).length < 2 ^ 32 := hoff _ (by simp)
    have hrest := ih w (fun u hu => h u (List.mem_cons_of_mem _ hu)) (pre ++ encode v) (idx + 4)
      (by
        intro o ho
        rw [hnext] at ho
        exact hoff o (by rw [variableParts_cons, offsets_variable]; exact List.mem_cons_of_mem _ ho))
      (by
        rw [← hregroup, ← List.drop_drop, hidx, hnext, variableParts_cons, heads_variable,
          List.append_assoc, List.drop_left' (length_leBytes 4 _)])
    have hrange : subrange (pre ++ tails (variableParts encode (v :: w :: ws))) pre.length
        (pre.length + (encode v).length) = .ok (encode v) := by
      rw [variableParts_cons, tails_cons, tail_variable]
      exact subrange_append pre (encode v) _ rfl rfl
    rw [List.length_cons, deserializeVariableLoop, hidx, variableParts_cons, heads_variable,
      List.append_assoc, readOffset_append hlt, Outcome.ok_bind, hrange, Outcome.ok_bind,
      h v (by simp), Outcome.nested_ok, Outcome.ok_bind, BYTES_PER_LENGTH_OFFSET, hregroup, ← hnext,
      hrest, Outcome.ok_bind]

lemma deserializeVariableVector_eq {deserialize : Bytes → α → Outcome α} {encode : α → Bytes} (vac : α)
    (vs : List α) (h : ∀ v ∈ vs, ∀ r, deserialize (encode v) r = .ok v)
    (hoff : ∀ o ∈ offsets (fixedLength (variableParts encode vs)) (variableParts encode vs),
      o < 2 ^ 32) :
    deserializeVariableVector deserialize vac (assemble (variableParts encode vs)) = .ok vs := by
  have hfixed := fixedLength_variableParts encode vs
  cases vs with
  | nil => rfl
  | cons v vs =>
    set bytes := assemble (variableParts encode (v :: vs)) with hbytes
    have hlt : fixedLength (variableParts encode (v :: vs)) < 2 ^ 32 := hoff _ (by simp)
    have hhead : bytes = leBytes 4 (fixedLength (variableParts encode (v :: vs))) ++
        (heads (fixedLength (variableParts encode (v :: vs)) + (encode v).length)
          (variableParts encode vs) ++ tails (variableParts encode (v :: vs))) := by
      rw [hbytes, assemble, variableParts_cons, heads_variable, List.append_assoc]
    have hne : bytes ≠ [] := by
      rw [hhead]
      simp [leBytes]
    have hread : readOffset bytes = .ok (4 * (vs.length + 1)) := by
      rw [hhead, readOffset_append hlt, hfixed, List.length_cons]
    have hcount : 4 * (vs.length + 1) / 4 = vs.length + 1 := by omega
    have hpre : (heads (fixedLength (variableParts encode (v :: vs)))
        (variableParts encode (v :: vs))).length = 4 * (vs.length + 1) := by
      rw [length_heads, hfixed, List.length_cons]
    have hloop := deserializeVariableLoop_eq vac v vs h
      (heads (fixedLength (variableParts encode (v :: vs))) (variableParts encode (v :: vs)))
      (tails (variableParts encode (v :: vs))) 4
      (by rwa [hpre, ← List.length_cons, ← hfixed])
      (by
        rw [hpre, ← List.length_cons, ← hfixed]
        change bytes.drop 4 = _
        rw [hhead, List.drop_left' (length_leBytes 4 _)])
    rw [hpre] at hloop
    rw [deserializeVariableVector, if_neg hne, hread, Outcome.ok_bind, hcount]
    exact hloop

/-! ### Bitsets -/

lemma getD_setBits (i : Nat) (b : Byte) (ret : List Bool) (k : Nat) :
    (setBits i b ret).getD k false =
      (ret.getD k false || (decide (k < ret.length ∧ k / 8 = i) && b.getLsbD (k % 8))) := by
  have hfold : ∀ js : List Nat, (∀ j ∈ js, j < 8) → ∀ ret : List Bool,
      (js.foldl (fun ret j =>
        if 8 * i + j < ret.length ∧ b.getLsbD j then ret.set (8 * i + j) true else ret) ret).getD k false =
      (ret.getD k false || (decide (k < ret.length ∧ k / 8 = i ∧ k % 8 ∈ js) && b.getLsbD (k % 8))) := by
    intro js
    induction js with
    | nil => simp
    | cons j js ih =>
      intro hjs ret
      have hj : j < 8 := hjs j (by simp)
      rw [List.foldl_cons, ih fun j' hj' => hjs j' (List.mem_cons_of_mem _ hj')]
      by_cases hk : 8 * i + j = k
      · have hdiv : k / 8 = i := by omega
        have hmod : k % 8 = j := by omega
        subst hk
        rw [hdiv, hmod]
        split
        · rename_i hset
          simp [List.getD_eq_getElem?_getD, hset]
        · rename_i hset
          by_cases hlt : 8 * i + j < ret.length
          · have hbit : b.getLsbD j = false := by simpa [hlt] using hset
            simp [hbit]
          · simp [hlt]
      · have hmod : k / 8 = i → k % 8 ≠ j := by omega
        split
        · rename_i hset
          by_cases hdiv : k / 8 = i
          · simp [List.getD_eq_getElem?_getD, hk, hmod hdiv]
          · simp [List.getD_eq_getElem?_getD, hk, hdiv]
        · by_cases hdiv : k / 8 = i
          · simp [hmod hdiv]
          · simp [hdiv]
  rw [setBits, hfold _ (by simp)]
  simp [Nat.mod_lt k (by decide : 0 < 8)]

lemma getD_setBytes (i : Nat) (bytes : Bytes) (ret : List Bool) (k : Nat) :
    (setBytes i bytes ret).getD k false =
      (ret.getD k false ||
        (decide (k < ret.length ∧ 8 * i ≤ k) && bitAt bytes (k - 8 * i))) := by
  induction bytes generalizing i ret with
  | nil => simp [setBytes, bitAt]
  | cons b bs ih =>
    rw [setBytes, ih, getD_setBits, length_setBits, Bool.or_assoc]
    congr 1
    by_cases hlt : k < ret.length
    · rcases Nat.lt_trichotomy (k / 8) i with h | h | h
      · have h1 : ¬ 8 * i ≤ k := by omega
        have h2 : ¬ 8 * (i + 1) ≤ k := by omega
        have h3 : ¬ k / 8 = i := by omega
        simp [h1, h2, h3]
      · have h1 : 8 * i ≤ k := by omega
        have h2 : ¬ 8 * (i + 1) ≤ k := by omega
        have h3 : (k - 8 * i) / 8 = 0 := by omega
        have h4 : (k - 8 * i) % 8 = k % 8 := by omega
        simp [hlt, h1, h2, h, bitAt, h3, h4]
      · have h1 : 8 * i ≤ k := by omega
        have h2 : 8 * (i + 1) ≤ k := by omega
        have h3 : ¬ k / 8 = i := by omega
        have h4 : (k - 8 * i) / 8 = (k - 8 * (i + 1)) / 8 + 1 := by omega
        have h5 : (k - 8 * i) % 8 = (k - 8 * (i + 1)) % 8 := by omega
        simp [hlt, h1, h2, h3, bitAt, h4, h5]
    · simp [hlt]

/-- A bitset takes its bits from the input whatever it held before. -/
lemma deserializeBitset_eq {n : Nat} (bytes : Bytes) (r : StdArray Bool n) :
    (deserializeBitset bytes r).1 = unpackBits n bytes := by
  have hreset : (deserializeBitset bytes r).1 = setBytes 0 bytes (List.replicate n false) :=
    congrArg (setBytes 0 bytes) (by rw [List.map_const', r.2])
  have hlen : (setBytes 0 bytes (List.replicate n false)).length = n := by
    rw [length_setBytes, List.length_replicate]
  rw [hreset]
  apply List.ext_getElem (hlen.trans (length_unpackBits _ _).symm)
  intro k hk hk'
  have hkn : k < n := by rwa [length_unpackBits] at hk'
  have hbit := getD_setBytes 0 bytes (List.replicate n false) k
  rw [List.getD_eq_getElem _ _ (by rwa [hlen])] at hbit
  simpa [unpackBits, hkn] using hbit

/-! ### Vectors and arrays -/

lemma SszType.width_eq {e : SszType α} (he : e.Decodable) (hfix : e.isVariableSize = false) {x : α}
    (hx : e.Fits x) : e.width = (e.encode x).length := by
  rw [← e.size_eq_width he.encodable.wellFormed hfix x, e.size_eq he.encodable x hx]

lemma vectorLength_eq {k n : Nat} (hk : 0 < k) {bytes : Bytes} (h : bytes.length = n * k) :
    vectorLength k bytes = .ok n := by
  have hmod : ¬ bytes.length % k ≠ 0 := by simp [h]
  have hdiv : bytes.length / k = n := by rw [h, Nat.mul_div_cancel _ hk]
  rw [vectorLength, if_neg (by omega), if_neg hmod, hdiv]

lemma deserializeVector_eq {e : SszType α} (he : e.Decodable) (vs : List α)
    (hdec : ∀ x ∈ vs, ∀ r, e.deserialize (e.encode x) r = .ok x)
    (hvac : e.isVariableSize = false → 0 < e.width)
    (hfit : ∀ x ∈ vs, e.Fits x)
    (hoff : ∀ o ∈ offsets (fixedLength (e.elementParts vs)) (e.elementParts vs), o < 2 ^ 32) :
    deserializeVector e.basicLayout e.variableSize e.deserialize e.vac e.width
      (assemble (e.elementParts vs)) = .ok vs := by
  unfold deserializeVector
  cases hlayout : e.basicLayout with
  | some layout =>
    obtain ⟨hbytes, hfix⟩ := e.basicLayout_eq_some hlayout
    have hlen := length_flatMap_const layout.toBytes vs fun x _ => layout.length_toBytes x
    rw [e.assemble_elementParts hfix, ← hbytes]
    simp only [deserializeBasicVector]
    rw [vectorLength_eq layout.sizeof_pos hlen, Outcome.ok_bind, deserializeCopy_flatMap layout vs rfl,
      Outcome.ok_bind]
  | none =>
    simp only
    rw [he.encodable.variableSize_eq]
    cases hvar : e.isVariableSize with
    | true =>
      rw [e.elementParts_of_variable hvar] at hoff ⊢
      exact deserializeVariableVector_eq e.vac vs hdec hoff
    | false =>
      have hk := hvac hvar
      have hlen : ∀ x ∈ vs, (e.encode x).length = e.width :=
        fun x hx => (e.width_eq he hvar (hfit x hx)).symm
      rw [e.assemble_elementParts hvar]
      simp only [Bool.false_eq_true, if_false, deserializeFixedVector]
      rw [vectorLength_eq hk (length_flatMap_const e.encode vs hlen), Outcome.ok_bind,
        deserializeChunked_flatMap hk vs _ (fun x hx => ⟨hlen x hx, hdec x hx⟩)
          (by rw [List.length_replicate]), Outcome.ok_bind]

lemma deserializeArray_eq {e : SszType α} (he : e.Decodable) (hfix : e.isVariableSize = false)
    {n : Nat} (hn : 0 < n) (v r : StdArray α n)
    (hdec : ∀ x ∈ v.1, ∀ r, e.deserialize (e.encode x) r = .ok x) (hpos : 0 < e.fixedSize)
    (hfit : ∀ x ∈ v.1, e.Fits x) :
    deserializeArray e.basicLayout e.variableSize e.deserialize e.width
      (assemble (e.elementParts v.1)) r = .ok v := by
  obtain ⟨vs, rfl⟩ := v
  rw [e.assemble_elementParts hfix]
  unfold deserializeArray
  cases hlayout : e.basicLayout with
  | some layout =>
    obtain ⟨hbytes, -⟩ := e.basicLayout_eq_some hlayout
    have hlen := length_flatMap_const layout.toBytes vs fun x _ => layout.length_toBytes x
    have hnot : ¬ (vs.flatMap layout.toBytes).length < layout.sizeof * vs.length := by
      rw [hlen, Nat.mul_comm]
      omega
    rw [← hbytes]
    simp only [deserializeBasicArray]
    rw [if_neg hnot, deserializeCopy_flatMap layout vs rfl]
  | none =>
    simp only
    rw [he.encodable.variableSize_eq, hfix]
    have hlen : ∀ x ∈ vs, (e.encode x).length = e.width :=
      fun x hx => (e.width_eq he hfix (hfit x hx)).symm
    obtain ⟨x, hx⟩ := List.exists_mem_of_length_pos hn
    have hk : 0 < e.width := by
      rwa [← hlen x hx, e.length_encode_of_fixed he.encodable hfix]
    simp only [Bool.false_eq_true, if_false, deserializeFixedArray]
    rw [deserializeChunked_flatMap hk vs r.1 (fun x hx => ⟨hlen x hx, hdec x hx⟩) r.2.symm,
      Outcome.ok_bind]

/-! ### Fixed-size types have positive size -/

mutual

theorem SszType.fixedSize_pos : {α : Type} → (τ : SszType α) → τ.Decodable →
    τ.isVariableSize = false → 0 < τ.fixedSize
  | _, .basic b, _, _ => b.sizeof_pos
  | _, .array e _, h, hfix => Nat.mul_pos h.1 (e.fixedSize_pos h.2.2.2 hfix)
  | _, .vector _, h, _ => h.elim
  | _, .list _ _, _, hfix => by cases hfix
  | _, .bitlist _, h, _ => h.elim
  | _, .bitset n, h, _ => by
    have hn : 0 < n := h
    rw [SszType.fixedSize]
    omega
  | _, .container _ ms, h, hfix => ms.fixedSize_pos h.2.2 hfix (by have hcount := h.1; omega)

theorem Members.fixedSize_pos : {α : Type} → (ms : Members α) → ms.Decodable →
    ms.hasVariableSize = false → 0 < ms.count → 0 < ms.fixedSize
  | _, .nil, _, _, hcount => by cases hcount
  | _, .cons m ms, h, hfix, _ => by
    rw [Members.hasVariableSize, Bool.or_eq_false_iff] at hfix
    have hm := m.fixedSize_pos h.1 hfix.1
    rw [Members.fixedSize]
    omega

end

/-! ### Containers -/

/-- The objects after the first pass: the fixed-size members of `v`, the others of `r`. -/
def Members.mixed {α : Type} : Members α → α → α → α
  | .nil, _, _ => ()
  | .cons m ms, (v, vs), (r, rs) => (if m.isVariableSize then r else v, ms.mixed vs rs)

/-- A decoder that gives back every member whatever the member held. -/
def Members.Inverts {α : Type} : Members α → α → Prop
  | .nil, _ => True
  | .cons m ms, (v, vs) => (∀ r, m.deserialize (m.encode v) r = .ok v) ∧ ms.Inverts vs

theorem Members.deserializeFixedSizeMembers_eq : {α : Type} → (ms : Members α) → ms.Encodable →
    (v : α) → ms.Fits v → ms.Inverts v → (r : α) → (off : Nat) → (rest : Bytes) →
    (∀ o ∈ offsets off (ms.parts v), o < 2 ^ 32) →
    ms.deserializeFixedSizeMembers (heads off (ms.parts v) ++ rest) r =
      .ok (ms.mixed v r, offsets off (ms.parts v))
  | _, .nil, _, _, _, _, _, _, _, _ => rfl
  | _, .cons m ms, h, (v, vs), hfit, hinv, (r, rs), off, rest, hoff => by
    rw [Members.deserializeFixedSizeMembers, h.1.variableSize_eq]
    simp only [Members.parts, Members.mixed] at hoff ⊢
    cases hvar : m.isVariableSize with
    | true =>
      simp only [hvar, offsets_variable] at hoff
      have hrest := ms.deserializeFixedSizeMembers_eq h.2 vs hfit.2 hinv.2 rs
        (off + (m.encode v).length) rest fun o ho => hoff o (List.mem_cons_of_mem _ ho)
      simp only [heads_variable, offsets_variable, if_true, List.append_assoc]
      rw [readOffset_append (hoff off (by simp)), Outcome.ok_bind, BYTES_PER_LENGTH_OFFSET,
        List.drop_left' (length_leBytes 4 off), hrest, Outcome.ok_bind]
    | false =>
      simp only [hvar, offsets_fixed] at hoff
      have hrest := ms.deserializeFixedSizeMembers_eq h.2 vs hfit.2 hinv.2 rs off rest hoff
      have hsize : (m.encode v).length = m.size true r := by
        rw [← m.size_eq h.1 v hfit.1, m.size_eq_width h.1.wellFormed hvar,
          m.size_eq_width h.1.wellFormed hvar]
      simp only [heads_fixed, offsets_fixed, Bool.false_eq_true, if_false, List.append_assoc]
      rw [List.take_left' hsize, List.drop_left' hsize, hinv.1, Outcome.nested_ok, Outcome.ok_bind,
        hrest, Outcome.ok_bind]

/-- The second pass on the members whose tails `pre` does not hold. -/
theorem Members.deserializeVariableSizeMembers_eq : {α : Type} → (ms : Members α) → ms.Encodable →
    (v : α) → ms.Inverts v → (r : α) → (pre : Bytes) → (offset : Nat) → (os : List Nat) →
    (offsets pre.length (ms.parts v) = offset :: os ∨ offsets pre.length (ms.parts v) = []) →
    ms.deserializeVariableSizeMembers (pre ++ tails (ms.parts v)) offset os (ms.mixed v r) = .ok v
  | _, .nil, _, _, _, _, _, _, _, _ => rfl
  | _, .cons m ms, h, (v, vs), hinv, (r, rs), pre, offset, os, hoff => by
    simp only [Members.mixed, Members.deserializeVariableSizeMembers, h.1.variableSize_eq]
    simp only [Members.parts] at hoff ⊢
    cases hvar : m.isVariableSize with
    | true =>
      simp only [hvar, offsets_variable, List.cons.injEq, reduceCtorEq, or_false] at hoff
      obtain ⟨rfl, hos⟩ := hoff
      have hlen : (pre ++ m.encode v).length = pre.length + (m.encode v).length := List.length_append
      have hrest := ms.deserializeVariableSizeMembers_eq h.2 vs hinv.2 rs (pre ++ m.encode v)
      rw [hlen, List.append_assoc] at hrest
      simp only [tails_cons, tail_variable, if_true]
      cases os with
      | nil =>
        have htails := tails_of_offsets_nil hos
        have hnext := hrest pre.length [] (.inr hos)
        rw [htails, List.append_nil] at hnext ⊢
        simp only [List.drop_left, hinv.1, Outcome.nested_ok, Outcome.ok_bind, hnext]
      | cons next os =>
        have hnext := hrest next os (.inl hos)
        have hrange : subrange (pre ++ (m.encode v ++ tails (ms.parts vs))) pre.length next =
            .ok (m.encode v) :=
          subrange_append pre (m.encode v) _ rfl (eq_of_offsets_cons hos)
        simp only [hrange, Outcome.ok_bind, hinv.1, Outcome.nested_ok, hnext]
    | false =>
      simp only [hvar, offsets_fixed] at hoff
      have hrest := ms.deserializeVariableSizeMembers_eq h.2 vs hinv.2 rs pre offset os hoff
      simp only [tails_cons, tail_fixed, List.nil_append, Bool.false_eq_true, if_false]
      rw [hrest, Outcome.ok_bind]

lemma Members.mixed_of_fixed : {α : Type} → (ms : Members α) → (v r : α) → (off : Nat) →
    offsets off (ms.parts v) = [] → ms.mixed v r = v
  | _, .nil, _, _, _, _ => rfl
  | _, .cons m ms, (v, vs), (r, rs), off, hoff => by
    simp only [Members.parts] at hoff
    cases hvar : m.isVariableSize with
    | true => simp [hvar] at hoff
    | false =>
      simp only [hvar, offsets_fixed] at hoff
      simp [Members.mixed, hvar, ms.mixed_of_fixed vs rs off hoff]

mutual

/-- The decoder inverts the reference encoding, whatever the destination held. -/
theorem SszType.deserialize_encode : {α : Type} → (τ : SszType α) → τ.Decodable → (v : α) →
    τ.Fits v → (r : α) → τ.deserialize (τ.encode v) r = .ok v
  | _, .basic b, _, v, _, _ => by
    have hdec := b.deserialize_toBytes v []
    rwa [List.append_nil] at hdec
  | _, .array e n, h, v, hfit, r =>
    deserializeArray_eq h.2.2.2 h.2.1 h.1 v r
      (fun x hx r => e.deserialize_encode h.2.2.2 x (hfit x hx) r) (e.fixedSize_pos h.2.2.2 h.2.1) hfit
  | _, .vector _, h, _, _, _ => h.elim
  | _, .list e _, h, v, hfit, _ =>
    deserializeVector_eq h.2.2.1 v (fun x hx r => e.deserialize_encode h.2.2.1 x (hfit.1 x hx) r)
      h.2.2.2 hfit.1 hfit.2
  | _, .bitlist _, h, _, _, _ => h.elim
  | _, .bitset n, _, v, _, _ => by
    refine congrArg Except.ok (Subtype.ext ?_)
    obtain ⟨bits, rfl⟩ := v
    rw [deserializeBitset_eq]
    exact unpackBits_packBits bits
  | _, .container _ ms, h, v, hfit, r => by
    have hinv := ms.inverts h.2.2 v hfit.2
    have hencodable := Members.Decodable.encodable h.2.2
    have hlen := hfit.1
    rw [length_assemble] at hlen
    have hfixed := ms.deserializeFixedSizeMembers_eq hencodable v hfit.2 hinv r
      (fixedLength (ms.parts v)) (tails (ms.parts v)) fun o ho =>
        Nat.lt_of_le_of_lt (le_of_mem_offsets ho).2 hlen
    rw [SszType.deserialize, SszType.encode, assemble, hfixed, Outcome.ok_bind]
    cases hoffsets : offsets (fixedLength (ms.parts v)) (ms.parts v) with
    | nil => rw [ms.mixed_of_fixed v r _ hoffsets]
    | cons offset os =>
      have hvariable := ms.deserializeVariableSizeMembers_eq hencodable v hinv r
        (heads (fixedLength (ms.parts v)) (ms.parts v)) offset os
      rw [length_heads] at hvariable
      exact hvariable (.inl hoffsets)

theorem Members.inverts : {α : Type} → (ms : Members α) → ms.Decodable → (v : α) → ms.Fits v →
    ms.Inverts v
  | _, .nil, _, _, _ => trivial
  | _, .cons m ms, h, (v, vs), hfit =>
    ⟨m.deserialize_encode h.1 v hfit.1, ms.inverts h.2 vs hfit.2⟩

end

/-- Decoding the bytes of an encoded value gives the value back, with every access in range and
whatever the destination held before. -/
theorem deserialize_serialize (τ : SszType α) (hτ : τ.Decodable) (v r : α)
    (hlen : (τ.encode v).length < 2 ^ 32) :
    (τ.serialize v >>= fun bytes => τ.deserialize bytes r) = .ok v := by
  have hfit := τ.fits_of_length v hlen
  rw [τ.serialize_eq_of_fits hτ.encodable v hfit, Outcome.ok_bind, τ.deserialize_encode hτ v hfit]

/-- A list of byte lists between an integer and a bitset. -/
def sampleRecord : SszType (BitVec 16 × List (List (BitVec 8)) × StdArray Bool 3 × Unit) :=
  .container true
    (.cons (.basic .uint16) (.cons (.list (.list (.basic .uint8) 4) 4) (.cons (.bitset 3) .nil)))

lemma decodable_sampleRecord : sampleRecord.Decodable :=
  ⟨by decide, rfl, trivial,
    ⟨rfl, rfl, ⟨rfl, rfl, trivial, fun _ => by decide⟩, fun h => by cases h⟩, Nat.succ_pos 2, trivial⟩

/-- The destination holds longer lists and other bits than the value. -/
theorem deserialize_serialize_sample :
    (sampleRecord.serialize (7, [[], [1, 2]], ⟨[true, false, true], rfl⟩, ()) >>= fun bytes =>
      sampleRecord.deserialize bytes (9, [[3], [4], [5]], ⟨[false, true, true], rfl⟩, ())) =
      .ok (7, [[], [1, 2]], ⟨[true, false, true], rfl⟩, ()) :=
  deserialize_serialize sampleRecord decodable_sampleRecord _ _ (by decide)

end Sszpp
