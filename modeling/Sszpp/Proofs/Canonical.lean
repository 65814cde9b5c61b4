import Sszpp.Proofs.Decoded
import Sszpp.Proofs.Encoding

/-!
# Which inputs are canonical

A decoder of a variable-size type accepts gaps and overlaps after its offset table, offsets that
are no multiple of four, and trailing bytes. Serialization gives back exactly those inputs whose
first offset is the length of the fixed part, at every level.
-/

namespace Sszpp

open Library

variable {α : Type}

/-- The length of the fixed part. -/
def Members.headLength {α : Type} : Members α → Nat
  | .nil => 0
  | .cons m ms => (if m.isVariableSize then 4 else m.width) + ms.headLength

mutual

/-- No gap, no overlap and no unused byte: a scalar or an array fills its bytes; the first offset
of a container is the length of its fixed part and that of a list a multiple of four; so at every
level below. A container of `2 ^ 32` bytes or more has no 32-bit length. -/
def SszType.Canonical {α : Type} : SszType α → Bytes → Prop
  | .basic b, bytes => bytes.length = b.sizeof
  | .array e n, bytes => bytes.length = n * e.width
  | .vector _, _ => True
  | .list e _, bytes =>
    e.isVariableSize = true → bytes = [] ∨
      leNat (bytes.take 4) % 4 = 0 ∧ ∀ p ∈ rangesAt bytes (elementWords bytes), e.Canonical p
  | .bitlist _, _ => True
  | .bitset _, _ => True
  | .container _ ms, bytes =>
    bytes.length < 2 ^ 32 ∧ (ms.offsetWords bytes).headD bytes.length = ms.headLength ∧
      ms.Canonical (rangesAt bytes (ms.offsetWords bytes))

/-- The same of the ranges of the members of variable size. -/
def Members.Canonical {α : Type} : Members α → List Bytes → Prop
  | .nil, _ => True
  | .cons m ms, ranges =>
    if m.isVariableSize then
      match ranges with
      | p :: ps => m.Canonical p ∧ ms.Canonical ps
      | [] => True
    else ms.Canonical ranges

end

/-! ### Fixed-size objects -/

mutual

theorem SszType.width_le_fixedSize : {α : Type} → (τ : SszType α) → τ.WellFormed →
    τ.isVariableSize = false → τ.width ≤ τ.fixedSize
  | _, .basic _, _, _ => le_refl _
  | _, .array e n, h, _ => by
    rw [SszType.width_array h]
    exact Nat.mul_le_mul_left n (e.width_le_fixedSize h.2 h.1)
  | _, .vector _, h, _ => h.elim
  | _, .list _ _, _, hfix => by cases hfix
  | _, .bitlist _, _, hfix => by cases hfix
  | _, .bitset _, _, _ => le_refl _
  | _, .container _ ms, h, hfix => ms.computeTotalLength_le_fixedSize h.2 hfix

theorem Members.computeTotalLength_le_fixedSize : {α : Type} → (ms : Members α) → ms.WellFormed →
    ms.hasVariableSize = false → ms.computeTotalLength ms.vac ≤ ms.fixedSize
  | _, .nil, _, _ => le_refl _
  | _, .cons m ms, h, hfix => by
    rw [Members.hasVariableSize, Bool.or_eq_false_iff] at hfix
    have hm := m.width_le_fixedSize h.1 hfix.1
    have hms := ms.computeTotalLength_le_fixedSize h.2 hfix.2
    simp only [Members.vac, Members.computeTotalLength, sizePlusPlaceholder, h.1.variableSize_eq,
      hfix.1, Bool.false_eq_true, if_false, Members.fixedSize]
    rw [SszType.width] at hm
    omega

end

lemma SszType.basicLayout_fixedSize {e : SszType α} {layout : BasicLayout α}
    (h : e.basicLayout = some layout) : layout.sizeof = e.fixedSize := by
  cases e with
  | basic b =>
    cases h
    rfl
  | _ => cases h

/-- A decoder that reads `n` bytes, called on `k ≤ n` bytes. -/
lemma take_of_le_length {bytes enc : Bytes} {n k : Nat} (hk : k ≤ n)
    (hlen : n ≤ (bytes.take k).length) (henc : enc = (bytes.take k).take n) :
    k = n ∧ n ≤ bytes.length ∧ enc = bytes.take n := by
  rw [List.length_take] at hlen
  obtain rfl : k = n := by omega
  exact ⟨rfl, by omega, by rw [henc, List.take_take, Nat.min_self]⟩

lemma Members.isVariable_of_fixed : {α : Type} → (ms : Members α) → ms.hasVariableSize = false →
    (v : α) → ∀ p ∈ ms.parts v, p.isVariable = false
  | _, .nil, _, _, _, hp => by cases hp
  | _, .cons m ms, hfix, (v, vs), p, hp => by
    rw [Members.hasVariableSize, Bool.or_eq_false_iff] at hfix
    rcases List.mem_cons.mp hp with rfl | hmem
    · exact hfix.1
    · exact ms.isVariable_of_fixed hfix.2 vs p hmem

mutual

/-- A decoder of a fixed-size type reads the encoding of its object at the beginning of its input. -/
theorem SszType.encode_of_fixed : {α : Type} → (τ : SszType α) → τ.Plain →
    τ.isVariableSize = false → (bytes : Bytes) → (r v : α) → τ.deserialize bytes r = .ok v →
    τ.fixedSize ≤ bytes.length ∧ τ.encode v = bytes.take τ.fixedSize
  | _, .basic b, _, _, _, _, _, h => b.deserialize_eq_ok h
  | _, .array e n, hplain, hfix, bytes, r, v, h => by
    obtain ⟨layout, hlayout⟩ := Option.isSome_iff_exists.mp hplain.2
    obtain ⟨hbytes, -⟩ := e.basicLayout_eq_some hlayout
    simp only [SszType.deserialize, deserializeArray, hlayout, deserializeBasicArray] at h
    split at h
    · cases h
    · obtain ⟨hlen, hflat⟩ := deserializeCopy_eq_ok h
      rw [SszType.basicLayout_fixedSize hlayout] at hlen hflat
      refine ⟨hlen, ?_⟩
      rw [SszType.encode, e.assemble_elementParts hfix, ← hbytes, hflat, SszType.fixedSize]
  | _, .vector _, hplain, _, _, _, _, _ => hplain.elim
  | _, .list _ _, _, hfix, _, _, _, _ => by cases hfix
  | _, .bitlist _, hplain, _, _, _, _, _ => hplain.elim
  | _, .bitset _, hplain, _, _, _, _, _ => hplain.elim
  | _, .container _ ms, hplain, hfix, bytes, r, v, h => by
    have hwf := (Members.Plain.encodable hplain.2.2).wellFormed
    rw [SszType.encode, assemble_of_fixed (ms.isVariable_of_fixed hfix v)]
    exact ms.parts_of_fixed hplain.2.2 hfix bytes _ v (Members.deserializeContainer_eq_ok hwf h).2

theorem Members.parts_of_fixed : {α : Type} → (ms : Members α) → ms.Plain →
    ms.hasVariableSize = false → (shifted : Bytes) → (ranges : List Bytes) → (v : α) →
    ms.Decoded shifted ranges v →
    ms.fixedSize ≤ shifted.length ∧ (ms.parts v).flatMap Part.bytes = shifted.take ms.fixedSize
  | _, .nil, _, _, _, _, _, _ => by simp [Members.fixedSize, Members.parts]
  | _, .cons m ms, hplain, hfix, shifted, ranges, (v, vs), h => by
    rw [Members.hasVariableSize, Bool.or_eq_false_iff] at hfix
    simp only [Members.Decoded, hfix.1, Bool.false_eq_true, if_false] at h
    obtain ⟨⟨old, hm⟩, hms⟩ := h
    obtain ⟨hmlen, hmenc⟩ := m.encode_of_fixed hplain.1 hfix.1 _ old v hm
    have hwidth := m.width_le_fixedSize (SszType.Plain.encodable hplain.1).wellFormed hfix.1
    obtain ⟨hw, hlen, henc⟩ := take_of_le_length hwidth hmlen hmenc
    obtain ⟨hrest, hparts⟩ := ms.parts_of_fixed hplain.2 hfix.2 _ ranges vs hms
    rw [hw] at hrest hparts
    rw [List.length_drop] at hrest
    refine ⟨by rw [Members.fixedSize]; omega, ?_⟩
    rw [Members.parts, List.flatMap_cons, hparts, henc, Members.fixedSize, List.take_add]

end

/-- A fixed-size member or element that was decoded from the bytes set apart for it. -/
lemma SszType.encode_of_take_width {m : SszType α} (hplain : m.Plain) (hfix : m.isVariableSize = false)
    {shifted : Bytes} {old v : α} (h : m.deserialize (shifted.take m.width) old = .ok v) :
    m.width = m.fixedSize ∧ m.width ≤ shifted.length ∧ m.encode v = shifted.take m.width := by
  obtain ⟨hlen, henc⟩ := m.encode_of_fixed hplain hfix _ old v h
  have hwidth := m.width_le_fixedSize (SszType.Plain.encodable hplain).wellFormed hfix
  obtain ⟨hw, hle, htake⟩ := take_of_le_length hwidth hlen henc
  exact ⟨hw, by omega, by rw [htake, hw]⟩

lemma SszType.fits_of_fixed {m : SszType α} (hplain : m.Plain) (hfix : m.isVariableSize = false)
    (hwidth : m.width = m.fixedSize) (v : α) : m.Fits v := by
  cases m with
  | basic b => trivial
  | array e n =>
    cases e with
    | basic b => exact fun _ _ => trivial
    | _ => exact absurd hplain.2 (by simp [SszType.basicLayout])
  | vector e => exact hplain.elim
  | list e limit => cases hfix
  | bitlist limit => exact hplain.elim
  | bitset n => exact hplain.elim
  | container variableSize ms =>
    apply SszType.fits_of_length
    have hencodable := SszType.Plain.encodable hplain
    rw [SszType.length_encode_of_fixed _ hencodable hfix, ← hwidth]
    cases ms with
    | nil => exact absurd hplain.1 (by decide)
    | cons m ms =>
      exact Nat.mod_lt _ (by decide)

/-! ### A canonical input is the encoding of what it decodes to -/

lemma Members.headLength_le : {α : Type} → (ms : Members α) → ms.Plain → (shifted : Bytes) →
    (ranges : List Bytes) → (v : α) → ms.Decoded shifted ranges v → ms.headLength ≤ shifted.length
  | _, .nil, _, _, _, _, _ => Nat.zero_le _
  | _, .cons m ms, hplain, shifted, ranges, (v, vs), h => by
    simp only [Members.Decoded, Members.headLength] at h ⊢
    cases hvar : m.isVariableSize with
    | true =>
      simp only [hvar, if_true] at h ⊢
      obtain ⟨hlen, p, ps, old, -, -, hms⟩ := h
      have hrest := ms.headLength_le hplain.2 _ ps vs hms
      rw [List.length_drop] at hrest
      omega
    | false =>
      simp only [hvar, Bool.false_eq_true, if_false] at h ⊢
      obtain ⟨⟨old, hm⟩, hms⟩ := h
      obtain ⟨-, hlen, -⟩ := SszType.encode_of_take_width hplain.1 hvar hm
      have hrest := ms.headLength_le hplain.2 _ ranges vs hms
      rw [List.length_drop] at hrest
      omega

/-- The fixed part of a decoded container, when the offsets in it are those of its encoding. -/
theorem Members.heads_of_decoded : {α : Type} → (ms : Members α) → ms.Plain → (shifted : Bytes) →
    (ranges : List Bytes) → (v : α) → ms.Decoded shifted ranges v → (off : Nat) →
    ms.offsetWords shifted = offsets off (ms.parts v) →
    fixedLength (ms.parts v) = ms.headLength ∧
      heads off (ms.parts v) = shifted.take ms.headLength
  | _, .nil, _, _, _, _, _, _, _ => by simp [Members.headLength, Members.parts, heads]
  | _, .cons m ms, hplain, shifted, ranges, (v, vs), h, off, hwords => by
    simp only [Members.Decoded, Members.offsetWords, Members.parts, Members.headLength,
      fixedLength_cons] at h hwords ⊢
    cases hvar : m.isVariableSize with
    | true =>
      simp only [hvar, if_true, offsets_variable, List.cons.injEq, headLength_variable,
        heads_variable] at h hwords ⊢
      obtain ⟨hlen, p, ps, old, -, -, hms⟩ := h
      obtain ⟨hfixed, hheads⟩ := ms.heads_of_decoded hplain.2 _ ps vs hms _ hwords.2
      have hword : leBytes 4 off = shifted.take 4 :=
        leBytes_eq_of_leNat_eq (List.length_take_of_le hlen) hwords.1
      refine ⟨by rw [hfixed], ?_⟩
      rw [hheads, hword, List.take_add]
    | false =>
      simp only [hvar, Bool.false_eq_true, if_false, offsets_fixed, headLength_fixed,
        heads_fixed] at h hwords ⊢
      obtain ⟨⟨old, hm⟩, hms⟩ := h
      obtain ⟨-, hlen, henc⟩ := SszType.encode_of_take_width hplain.1 hvar hm
      obtain ⟨hfixed, hheads⟩ := ms.heads_of_decoded hplain.2 _ ranges vs hms _ hwords
      have henclen : (m.encode v).length = m.width := by
        rw [henc, List.length_take, Nat.min_eq_left hlen]
      refine ⟨by rw [hfixed, henclen], ?_⟩
      rw [hheads, henc, List.take_add]

lemma forall₂_encode {encode : α → Bytes} {fits : α → Prop} {ps : List Bytes} {vs : List α}
    (h : List.Forall₂ (fun p v => encode v = p ∧ fits v) ps vs) :
    vs.map encode = ps ∧ ∀ v ∈ vs, fits v := by
  induction h with
  | nil => simp
  | cons hpv _ ih => exact ⟨by simp [hpv.1, ih.1], by simpa [hpv.2] using ih.2⟩

/-- A list of fixed-size elements holds the encodings of its elements. -/
lemma SszType.encode_list_of_fixed {e : SszType α} {limit : Nat} (hplain : e.Plain)
    (hfix : e.isVariableSize = false) {bytes : Bytes} {vs : List α}
    (h : deserializeVector e.basicLayout e.variableSize e.deserialize e.vac e.width bytes = .ok vs) :
    (SszType.list e limit).encode vs = bytes ∧ (SszType.list e limit).Fits vs := by
  have hflat : vs.flatMap e.encode = bytes ∧ ∀ v ∈ vs, e.Fits v := by
    unfold deserializeVector at h
    split at h
    · rename_i layout hlayout
      obtain ⟨n, hn, h⟩ := Outcome.bind_eq_ok.mp h
      obtain ⟨ws, hws, h⟩ := Outcome.bind_eq_ok.mp h
      cases h
      obtain ⟨-, hlen⟩ := vectorLength_eq_ok hn
      obtain ⟨-, hbytes⟩ := deserializeCopy_eq_ok hws
      rw [(e.basicLayout_eq_some hlayout).1, ← hlen, List.take_length] at hbytes
      refine ⟨hbytes, fun v _ => ?_⟩
      cases e with
      | basic b => trivial
      | _ => cases hlayout
    · rw [(SszType.Plain.encodable hplain).variableSize_eq, hfix, if_neg Bool.false_ne_true] at h
      obtain ⟨hk, hlen, hall⟩ := deserializeFixedVector_eq_ok h
      have hmod : bytes.length % e.width = 0 := by rw [hlen, Nat.mul_mod_left]
      have helems : List.Forall₂ (fun p v => e.encode v = p ∧ e.Fits v) (pieces e.width bytes) vs := by
        have hfull : ∀ p ∈ pieces e.width bytes, p.length = e.width :=
          fun p hp => length_of_mem_pieces hk hmod hp
        refine ((List.forall₂_and_left _ _).mpr ⟨hfull, hall⟩).imp ?_
        rintro p v ⟨hp, r, hv⟩
        have htake : p.take e.width = p := List.take_of_length_le (le_of_eq hp)
        rw [← htake] at hv
        obtain ⟨hwidth, -, henc⟩ := SszType.encode_of_take_width hplain hfix hv
        exact ⟨by rw [henc, htake], SszType.fits_of_fixed hplain hfix hwidth v⟩
      obtain ⟨hmap, hfits⟩ := forall₂_encode helems
      exact ⟨by rw [List.flatMap_def, hmap, flatten_pieces hk], hfits⟩
  refine ⟨(e.assemble_elementParts hfix vs).trans hflat.1, hflat.2, ?_⟩
  rw [offsets_elementParts_of_fixed hfix]
  simp

/-- A list of variable-size elements without gaps. -/
lemma SszType.encode_list_of_variable {e : SszType α} {limit : Nat} (hvar : e.isVariableSize = true)
    {bytes : Bytes} {vs : List α} (hne : elementWords bytes ≠ [])
    (hlen : 4 * (elementWords bytes).length ≤ bytes.length)
    (hordered : OrderedTable bytes.length (elementWords bytes))
    (hmod : leNat (bytes.take 4) % 4 = 0)
    (hall : List.Forall₂ (fun p v => e.encode v = p ∧ e.Fits v) (rangesAt bytes (elementWords bytes)) vs) :
    (SszType.list e limit).encode vs = bytes ∧ (SszType.list e limit).Fits vs := by
  obtain ⟨hmap, hfits⟩ := forall₂_encode hall
  have hcount : vs.length = (elementWords bytes).length := by
    rw [← hall.length_eq, length_rangesAt]
  have hfirst : leNat (bytes.take 4) = 4 * (elementWords bytes).length := by
    rw [elementWords, length_words]
    omega
  obtain ⟨o, os, htable⟩ := List.exists_cons_of_ne_nil hne
  have ho := elementWords_head htable
  have hwords : (elementWords bytes).flatMap (leBytes 4) =
      bytes.take (4 * (elementWords bytes).length) := by
    rw [elementWords, length_words] at hlen ⊢
    exact flatMap_words hlen
  rw [htable] at hordered hmap hlen hfirst hcount hwords
  obtain ⟨hflat, hrun⟩ := rangesAt_partition (by rw [ho, hfirst]; exact hlen) hordered
  have hfixed : fixedLength (variableParts e.encode vs) = o := by
    rw [fixedLength_variableParts, hcount, ← hfirst, ho]
  have hoffsets : offsets o (variableParts e.encode vs) = o :: os := by
    rw [offsets_eq_runningOffsets, variableBytes_variableParts, hmap, hrun]
  have hheads : heads o (variableParts e.encode vs) = bytes.take o := by
    rw [heads_variableParts, hoffsets, hwords, ← hfirst, ← ho]
  have hparts := e.elementParts_of_variable hvar vs
  constructor
  · change assemble (e.elementParts vs) = bytes
    rw [hparts, assemble, hfixed, hheads, tails_eq_flatten, variableBytes_variableParts, hmap, hflat,
      List.take_append_drop]
  · refine ⟨hfits, fun o' ho' => ?_⟩
    rw [hparts, hfixed, hoffsets, ← htable] at ho'
    exact lt_of_mem_words ho'

/-- A container without gaps. -/
lemma Members.assemble_parts {ms : Members α} (hplain : ms.Plain) {bytes : Bytes} {v : α}
    (hordered : OrderedTable bytes.length (ms.offsetWords bytes))
    (hdecoded : ms.Decoded bytes (rangesAt bytes (ms.offsetWords bytes)) v)
    (hfirst : (ms.offsetWords bytes).headD bytes.length = ms.headLength)
    (hbytes : variableBytes (ms.parts v) = rangesAt bytes (ms.offsetWords bytes)) :
    assemble (ms.parts v) = bytes := by
  have hle := ms.headLength_le hplain bytes _ v hdecoded
  have htable : ms.offsetWords bytes = offsets ms.headLength (ms.parts v) ∧
      tails (ms.parts v) = bytes.drop ms.headLength := by
    rw [offsets_eq_runningOffsets, tails_eq_flatten, hbytes]
    cases hwords : ms.offsetWords bytes with
    | nil =>
      rw [hwords, List.headD_nil] at hfirst
      simp [rangesAt, runningOffsets, ← hfirst]
    | cons o os =>
      rw [hwords, List.headD_cons] at hfirst
      subst hfirst
      rw [hwords] at hordered
      obtain ⟨hflat, hrun⟩ := rangesAt_partition hle hordered
      exact ⟨hrun.symm, hflat⟩
  obtain ⟨hfixed, hheads⟩ := ms.heads_of_decoded hplain bytes _ v hdecoded _ htable.1
  rw [assemble, hfixed, hheads, htable.2, List.take_append_drop]

mutual

theorem SszType.encode_of_canonical : {α : Type} → (τ : SszType α) → τ.Plain → (bytes : Bytes) →
    (r v : α) → τ.deserialize bytes r = .ok v → τ.Canonical bytes →
    τ.encode v = bytes ∧ τ.Fits v
  | _, .basic b, _, _, _, _, h, hcan => by
    obtain ⟨-, henc⟩ := b.deserialize_eq_ok h
    refine ⟨?_, trivial⟩
    rw [SszType.encode, henc, List.take_of_length_le (le_of_eq hcan)]
  | _, .array e n, hplain, bytes, r, v, h, hcan => by
    have hfix : (SszType.array e n).isVariableSize = false := (SszType.Plain.encodable hplain).2.1
    obtain ⟨-, henc⟩ := SszType.encode_of_fixed _ hplain hfix bytes r v h
    cases e with
    | basic b =>
      refine ⟨?_, fun _ _ => trivial⟩
      rw [henc, List.take_of_length_le]
      exact le_of_eq hcan
    | _ => exact absurd hplain.2 (by simp [SszType.basicLayout])
  | _, .vector _, hplain, _, _, _, _, _ => hplain.elim
  | _, .list e limit, hplain, bytes, r, v, h, hcan => by
    have hwf := (SszType.Plain.encodable hplain.2).wellFormed
    cases hvar : e.isVariableSize with
    | true =>
      rcases SszType.deserialize_list_of_variable hwf hvar h with ⟨rfl, rfl⟩ | ⟨hne, hlen, hordered, hall⟩
      · exact ⟨rfl, by simp [SszType.Fits, offsets]⟩
      · rcases hcan hvar with rfl | ⟨hmod, hranges⟩
        · exact absurd rfl hne
        · refine SszType.encode_list_of_variable hvar hne hlen hordered hmod ?_
          refine ((List.forall₂_and_left _ _).mpr ⟨hranges, hall⟩).imp ?_
          rintro p x ⟨hp, hx⟩
          exact e.encode_of_canonical hplain.2 p e.vac x hx hp
    | false => exact SszType.encode_list_of_fixed hplain.2 hvar h
  | _, .bitlist _, hplain, _, _, _, _, _ => hplain.elim
  | _, .bitset _, hplain, _, _, _, _, _ => hplain.elim
  | _, .container variableSize ms, hplain, bytes, r, v, h, hcan => by
    obtain ⟨hlt, hfirst, hranges⟩ := hcan
    have hwf := (Members.Plain.encodable hplain.2.2).wellFormed
    obtain ⟨hordered, hdecoded⟩ := Members.deserializeContainer_eq_ok hwf h
    have hbytes := ms.variableBytes_of_canonical hplain.2.2 bytes _ v hdecoded hranges
    have hencode : (SszType.container variableSize ms).encode v = bytes :=
      Members.assemble_parts hplain.2.2 hordered hdecoded hfirst hbytes
    exact ⟨hencode, SszType.fits_of_length _ v (by rw [hencode]; exact hlt)⟩

theorem Members.variableBytes_of_canonical : {α : Type} → (ms : Members α) → ms.Plain →
    (shifted : Bytes) → (ranges : List Bytes) → (v : α) → ms.Decoded shifted ranges v →
    ms.Canonical ranges → variableBytes (ms.parts v) = ranges
  | _, .nil, _, _, _, _, h, _ => h.symm
  | _, .cons m ms, hplain, shifted, ranges, (v, vs), h, hcan => by
    simp only [Members.Decoded, Members.Canonical, Members.parts] at h hcan ⊢
    cases hvar : m.isVariableSize with
    | true =>
      simp only [hvar, if_true] at h hcan
      obtain ⟨-, p, ps, old, rfl, hp, hps⟩ := h
      obtain ⟨hm, -⟩ := m.encode_of_canonical hplain.1 p old v hp hcan.1
      have hrest := ms.variableBytes_of_canonical hplain.2 _ ps vs hps hcan.2
      simpa [variableBytes, hm] using hrest
    | false =>
      simp only [hvar, Bool.false_eq_true, if_false] at h hcan
      have hrest := ms.variableBytes_of_canonical hplain.2 _ ranges vs h.2 hcan
      simpa [variableBytes] using hrest

end

end Sszpp
