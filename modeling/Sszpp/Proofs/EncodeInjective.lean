import Sszpp.Proofs.Canonical
import Sszpp.Proofs.RoundTripBitlists

/-!
# Different objects have different encodings

An encoding determines its offset table, the table determines the parts, and the parts determine
the members and the elements. Bitlists without room for their delimiter, which the decoder refuses,
are no exception.
-/

namespace Sszpp

open Library

variable {α : Type}

/-- Elements of one type have parts of one shape. -/
lemma SszType.sameShape_elementParts {e : SszType α} (h : e.Encodable) {vs ws : List α}
    (hlen : vs.length = ws.length) : SameShape (e.elementParts vs) (e.elementParts ws) := by
  induction vs generalizing ws with
  | nil =>
    obtain rfl := List.length_eq_zero_iff.mp hlen.symm
    exact .nil
  | cons v vs ih =>
    cases ws with
    | nil => cases hlen
    | cons w ws =>
      refine .cons ⟨rfl, fun hfix => ?_⟩ (ih (Nat.succ.inj hlen))
      rw [e.length_encode_of_fixed h hfix v, e.length_encode_of_fixed h hfix w]

theorem Members.sameShape_parts : {α : Type} → (ms : Members α) → ms.Encodable → (v w : α) →
    SameShape (ms.parts v) (ms.parts w)
  | _, .nil, _, _, _ => .nil
  | _, .cons m ms, h, (v, vs), (w, ws) => by
    refine .cons ⟨rfl, fun hfix => ?_⟩ (Members.sameShape_parts ms h.2 vs ws)
    rw [m.length_encode_of_fixed h.1 hfix v, m.length_encode_of_fixed h.1 hfix w]

/-- The encoding of a list tells its length: by the width of the elements, or by the first offset. -/
lemma SszType.length_eq_of_encode_list {e : SszType α} {limit : Nat} (h : (SszType.list e limit).Invertible)
    {vs ws : List α} (hvs : (SszType.list e limit).Fits vs) (hws : (SszType.list e limit).Fits ws)
    (heq : assemble (e.elementParts vs) = assemble (e.elementParts ws)) : vs.length = ws.length := by
  cases hvar : e.isVariableSize with
  | true =>
    have hfirst : ∀ us : List α, (SszType.list e limit).Fits us →
        leNat ((assemble (e.elementParts us)).take 4) = 4 * us.length := by
      intro us hus
      have hoff := hus.2
      rw [e.elementParts_of_variable hvar] at hoff ⊢
      cases us with
      | nil => rfl
      | cons u us =>
        have hfixed := fixedLength_variableParts e.encode (u :: us)
        rw [assemble, variableParts_cons, heads_variable, List.append_assoc,
          List.take_left' (length_leBytes 4 _), ← variableParts_cons, leNat_leBytes_of_lt (hoff _ (by simp)), hfixed]
    have hcounts : 4 * vs.length = 4 * ws.length := by rw [← hfirst vs hvs, ← hfirst ws hws, heq]
    omega
  | false =>
    have hpos : 0 < e.fixedSize :=
      Nat.lt_of_lt_of_le (h.2.2.2.2 hvar) (e.width_le_fixedSize h.2.2.2.1.encodable.wellFormed hvar)
    have hlen : ∀ us : List α, (assemble (e.elementParts us)).length = us.length * e.fixedSize := by
      intro us
      rw [e.assemble_elementParts hvar,
        length_flatMap_const _ _ fun x _ => e.length_encode_of_fixed h.2.2.2.1.encodable hvar x]
    have hcounts : vs.length * e.fixedSize = ws.length * e.fixedSize := by rw [← hlen, ← hlen, heq]
    exact Nat.eq_of_mul_eq_mul_right hpos hcounts

lemma SszType.offsets_lt_of_fixed {e : SszType α} (h : e.isVariableSize = false) (vs : List α) :
    ∀ o ∈ offsets (fixedLength (e.elementParts vs)) (e.elementParts vs), o < 2 ^ 32 := by
  rw [offsets_elementParts_of_fixed h]
  exact fun o ho => by cases ho

/-- Every offset is a position in the encoding. -/
lemma offsets_lt_of_length {ps : List Part} {n : Nat} (h : (assemble ps).length < n) :
    ∀ o ∈ offsets (fixedLength ps) ps, o < n := by
  intro o ho
  rw [length_assemble] at h
  exact Nat.lt_of_le_of_lt (le_of_mem_offsets ho).2 h

/-- The elements, from their encodings. -/
lemma SszType.eq_of_elementParts {e : SszType α} {vs ws : List α}
    (h : ∀ v ∈ vs, ∀ w ∈ ws, e.encode v = e.encode w → v = w) (heq : e.elementParts vs = e.elementParts ws) :
    vs = ws := by
  induction vs generalizing ws with
  | nil => exact (List.map_eq_nil_iff.mp heq.symm).symm
  | cons v vs ih =>
    cases ws with
    | nil => cases heq
    | cons w ws =>
      obtain ⟨hhead, htail⟩ := List.cons.inj heq
      have hencode : e.encode v = e.encode w := congrArg Part.bytes hhead
      rw [h v List.mem_cons_self w List.mem_cons_self hencode,
        ih (fun a ha b hb => h a (List.mem_cons_of_mem _ ha) b (List.mem_cons_of_mem _ hb)) htail]

/-- The bits before the delimiter can be read off. -/
lemma packBits_delimited_injective {xs ys : List Bool} (h : packBits (xs ++ [true]) = packBits (ys ++ [true])) :
    xs = ys := by
  have hdecoded := deserializeVectorBool_packBits xs []
  rw [h, deserializeVectorBool_packBits ys] at hdecoded
  exact (Except.ok.inj hdecoded).symm

mutual

theorem SszType.encode_inj : {α : Type} → (τ : SszType α) → τ.Invertible → (v w : α) → τ.Fits v →
    τ.Fits w → τ.encode v = τ.encode w → v = w
  | _, .basic b, _, _, _, _, _, heq => b.toBytes_injective heq
  | _, .array e n, h, v, w, hv, hw, heq => by
    have hshape := e.sameShape_elementParts h.2.2.2.encodable (v.2.trans w.2.symm)
    have hparts := assemble_injective hshape (SszType.offsets_lt_of_fixed h.2.1 v.1)
      (SszType.offsets_lt_of_fixed h.2.1 w.1) heq
    exact Subtype.ext (SszType.eq_of_elementParts
      (fun x hx y hy => SszType.encode_inj e h.2.2.2 x y (hv x hx) (hw y hy)) hparts)
  | _, .vector _, h, _, _, _, _, _ => h.elim
  | _, .list e limit, h, v, w, hv, hw, heq => by
    have hlen := SszType.length_eq_of_encode_list h hv hw heq
    have hshape := e.sameShape_elementParts h.2.2.2.1.encodable hlen
    have hparts := assemble_injective hshape hv.2 hw.2 heq
    exact SszType.eq_of_elementParts
      (fun x hx y hy => SszType.encode_inj e h.2.2.2.1 x y (hv.1 x hx) (hw.1 y hy)) hparts
  | _, .bitlist _, _, _, _, _, _, heq => packBits_delimited_injective heq
  | _, .bitset _, _, v, w, _, _, heq => Subtype.ext (packBits_injective (v.2.trans w.2.symm) heq)
  | _, .container _ ms, h, v, w, hv, hw, heq => by
    have hshape := Members.sameShape_parts ms (Members.Invertible.encodable h.2.2) v w
    have hparts := assemble_injective hshape (offsets_lt_of_length hv.1) (offsets_lt_of_length hw.1) heq
    exact Members.parts_inj ms h.2.2 v w hv.2 hw.2 hparts

theorem Members.parts_inj : {α : Type} → (ms : Members α) → ms.Invertible → (v w : α) → ms.Fits v →
    ms.Fits w → ms.parts v = ms.parts w → v = w
  | _, .nil, _, _, _, _, _, _ => rfl
  | _, .cons m ms, h, (v, vs), (w, ws), hv, hw, heq => by
    obtain ⟨hhead, htail⟩ := List.cons.inj heq
    have hencode : m.encode v = m.encode w := congrArg Part.bytes hhead
    rw [SszType.encode_inj m h.1 v w hv.1 hw.1 hencode, Members.parts_inj ms h.2 vs ws hv.2 hw.2 htail]

end

/-- Two objects of a type with one serialization are equal. -/
theorem serialize_injective (τ : SszType α) (hτ : τ.Invertible) {v w : α} (hv : (τ.encode v).length < 2 ^ 32)
    (hw : (τ.encode w).length < 2 ^ 32) : τ.serialize v = τ.serialize w ↔ v = w := by
  have hfit := τ.fits_of_length v hv
  have hfit' := τ.fits_of_length w hw
  rw [τ.serialize_eq_of_fits hτ.encodable v hfit, τ.serialize_eq_of_fits hτ.encodable w hfit', Except.ok.injEq]
  exact ⟨τ.encode_inj hτ v w hfit hfit', congrArg τ.encode⟩

/-- Two bitlists over the limit, which differ in their last bit. -/
theorem serialize_injective_sample :
    sampleVotes.serialize [(List.replicate 17 true, 1, ())] =
        sampleVotes.serialize [(List.replicate 16 true ++ [false], 1, ())] ↔
      [(List.replicate 17 true, (1 : BitVec 8), ())] = [(List.replicate 16 true ++ [false], 1, ())] :=
  serialize_injective sampleVotes invertible_sampleVotes (by decide) (by decide)

end Sszpp
