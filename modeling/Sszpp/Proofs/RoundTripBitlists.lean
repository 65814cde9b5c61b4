import Sszpp.Proofs.BitlistCodec
import Sszpp.Proofs.RoundTrip

/-!
# Round trips of types with bitlists

The decoder of a bitlist compares the bytes that it gets, delimiter included, with the limit. On the
encoding of a value the decoder of any type gets to each of its bitlists, and throws at the first one
whose last byte is one too many.
-/

namespace Sszpp

open Library

variable {α β : Type}

/-! ### Requirements -/

/-- `a` where `c` holds, and an exception elsewhere. -/
def Outcome.require (c : Bool) (e : Exception) (a : α) : Outcome α :=
  if c then .ok a else .error (.thrown e)

namespace Outcome

variable (e : Exception)

@[simp] lemma require_true (a : α) : require true e a = .ok a := rfl

@[simp] lemma nested_require (c : Bool) (a : α) : nested (require c e a) = require c e a := by
  cases c <;> rfl

lemma require_bind {c d : Bool} {a : α} {b : β} {f : α → Outcome β} (h : f a = require d e b) :
    (require c e a >>= f) = require (c && d) e b := by
  cases c with
  | true => exact h
  | false => rfl

lemma require_bind_ok (c : Bool) (a : α) (g : α → β) :
    (require c e a >>= fun a => .ok (g a)) = require c e (g a) := by
  cases c <;> rfl

end Outcome

open Outcome

/-! ### The types -/

mutual

/-- The encodable types whose decoders have no divisor of zero. -/
def SszType.Invertible {α : Type} : SszType α → Prop
  | .basic _ => True
  | .array e n => 0 < n ∧ e.isVariableSize = false ∧ e.isBitset = false ∧ e.Invertible
  | .vector _ => False
  | .list e _ =>
    e.isBool = false ∧ e.isBitset = false ∧ e.isBitlist = false ∧ e.Invertible ∧
      (e.isVariableSize = false → 0 < e.width)
  | .bitlist _ => True
  | .bitset n => 0 < n
  | .container variableSize ms => 2 ≤ ms.count ∧ variableSize = ms.hasVariableSize ∧ ms.Invertible

def Members.Invertible {α : Type} : Members α → Prop
  | .nil => True
  | .cons m ms => m.Invertible ∧ ms.Invertible

end

mutual

theorem SszType.Invertible.encodable : {α : Type} → {τ : SszType α} → τ.Invertible → τ.Encodable
  | _, .basic _, _ => trivial
  | _, .array _ _, h => ⟨h.1, h.2.1, h.2.2.1, SszType.Invertible.encodable h.2.2.2⟩
  | _, .vector _, h => h.elim
  | _, .list _ _, h => ⟨h.1, h.2.1, h.2.2.1, SszType.Invertible.encodable h.2.2.2.1⟩
  | _, .bitlist _, _ => trivial
  | _, .bitset _, _ => trivial
  | _, .container _ _, h => ⟨h.1, h.2.1, Members.Invertible.encodable h.2.2⟩

theorem Members.Invertible.encodable : {α : Type} → {ms : Members α} → ms.Invertible → ms.Encodable
  | _, .nil, _ => trivial
  | _, .cons _ _, h => ⟨SszType.Invertible.encodable h.1, Members.Invertible.encodable h.2⟩

end

mutual

/-- A type of fixed size has no bitlist inside. -/
theorem SszType.Invertible.decodable : {α : Type} → {τ : SszType α} → τ.Invertible →
    τ.isVariableSize = false → τ.Decodable
  | _, .basic _, _, _ => trivial
  | _, .array _ _, h, _ => ⟨h.1, h.2.1, h.2.2.1, SszType.Invertible.decodable h.2.2.2 h.2.1⟩
  | _, .vector _, h, _ => h.elim
  | _, .list _ _, _, hfix => by cases hfix
  | _, .bitlist _, _, hfix => by cases hfix
  | _, .bitset _, h, _ => h
  | _, .container _ _, h, hfix => ⟨h.1, h.2.1, Members.Invertible.decodable h.2.2 hfix⟩

theorem Members.Invertible.decodable : {α : Type} → {ms : Members α} → ms.Invertible →
    ms.hasVariableSize = false → ms.Decodable
  | _, .nil, _, _ => trivial
  | _, .cons _ _, h, hfix => by
    rw [Members.hasVariableSize, Bool.or_eq_false_iff] at hfix
    exact ⟨SszType.Invertible.decodable h.1 hfix.1, Members.Invertible.decodable h.2 hfix.2⟩

end

mutual

/-- Every bitlist in the value has room for its delimiter in the bytes that its limit allows. -/
def SszType.hasRoom {α : Type} : SszType α → α → Bool
  | .basic _, _ => true
  | .array e _, v => v.1.all e.hasRoom
  | .vector e, v => v.all e.hasRoom
  | .list e _, v => v.all e.hasRoom
  | .bitlist limit, v => decide ((v.length / 8 + 1) * 8 ≤ limit)
  | .bitset _, _ => true
  | .container _ ms, v => ms.hasRoom v

def Members.hasRoom {α : Type} : Members α → α → Bool
  | .nil, _ => true
  | .cons m ms, (v, vs) => m.hasRoom v && ms.hasRoom vs

end

mutual

theorem SszType.hasRoom_of_fixed : {α : Type} → (τ : SszType α) → τ.isVariableSize = false → (v : α) →
    τ.hasRoom v = true
  | _, .basic _, _, _ => rfl
  | _, .array e _, hfix, v => List.all_eq_true.mpr fun x _ => e.hasRoom_of_fixed hfix x
  | _, .vector e, hfix, v => List.all_eq_true.mpr fun x _ => e.hasRoom_of_fixed hfix x
  | _, .list _ _, hfix, _ => by cases hfix
  | _, .bitlist _, hfix, _ => by cases hfix
  | _, .bitset _, _, _ => rfl
  | _, .container _ ms, hfix, v => ms.hasRoom_of_fixed hfix v

theorem Members.hasRoom_of_fixed : {α : Type} → (ms : Members α) → ms.hasVariableSize = false → (v : α) →
    ms.hasRoom v = true
  | _, .nil, _, _ => rfl
  | _, .cons m ms, hfix, (v, vs) => by
    rw [Members.hasVariableSize, Bool.or_eq_false_iff] at hfix
    rw [Members.hasRoom, m.hasRoom_of_fixed hfix.1, ms.hasRoom_of_fixed hfix.2]
    rfl

end

/-- What the bitlist decoder throws. -/
def tooLong : Exception := .outOfRange "byte slice larger than list limit"

/-! ### Lists of elements of variable size -/

section Elements

variable {deserialize : Bytes → α → Outcome α} {encode : α → Bytes} {room : α → Bool} (e : Exception)

/-- The loop from `v` on, `pre` being the bytes before the encoding of `v`. -/
lemma deserializeVariableLoop_require (vac v : α) (vs : List α)
    (h : ∀ w ∈ v :: vs, ∀ r, deserialize (encode w) r = require (room w) e w) (pre post : Bytes) (idx : Nat)
    (hoff : ∀ o ∈ offsets pre.length (variableParts encode (v :: vs)), o < 2 ^ 32)
    (hidx : (pre ++ tails (variableParts encode (v :: vs))).drop idx =
      heads (pre.length + (encode v).length) (variableParts encode vs) ++ post) :
    deserializeVariableLoop deserialize vac (pre ++ tails (variableParts encode (v :: vs)))
      vs.length pre.length idx = require ((v :: vs).all room) e (v :: vs) := by
  induction vs generalizing v pre idx with
  | nil =>
    have hlast := h v List.mem_cons_self vac
    simp only [List.length_nil, deserializeVariableLoop, variableParts_cons, variableParts_nil, tails_cons,
      tails_nil, tail_variable, List.append_nil, List.drop_left, hlast, nested_require, require_bind_ok,
      List.all_cons, List.all_nil, Bool.and_true]
  | cons w ws ih =>
    have hregroup : pre ++ tails (variableParts encode (v :: w :: ws)) =
        pre ++ encode v ++ tails (variableParts encode (w :: ws)) := by simp
    have hnext : (pre ++ encode v).length = pre.length + (encode v).length := List.length_append
    have hlt : pre.length + (encode v).length < 2 ^ 32 := hoff _ (by simp)
    have hrest := ih w (fun u hu => h u (List.mem_cons_of_mem _ hu)) (pre ++ encode v) (idx + 4)
      (by
        intro o ho
        rw [hnext] at ho
        exact hoff o (by rw [variableParts_cons, offsets_variable]; exact List.mem_cons_of_mem _ ho))
      (by
        rw [← hregroup, ← List.drop_drop, hidx, hnext, variableParts_cons, heads_variable,
          List.append_assoc, List.drop_left' (length_leBytes 4 _)])
    have hrange : subrange (pre ++ tails (variableParts encode (v :: w :: ws))) pre.length
        (pre.length + (encode v).length) = .ok (encode v) := by
      rw [variableParts_cons, tails_cons, tail_variable]
      exact subrange_append pre (encode v) _ rfl rfl
    rw [List.length_cons, deserializeVariableLoop, hidx, variableParts_cons, heads_variable,
      List.append_assoc, readOffset_append hlt, ok_bind, hrange, ok_bind,
      h v List.mem_cons_self, nested_require, BYTES_PER_LENGTH_OFFSET, hregroup, ← hnext, List.all_cons]
    refine require_bind e ?_
    rw [hrest]
    exact require_bind_ok e _ _ (v :: ·)

lemma deserializeVariableVector_require (vac : α) (vs : List α)
    (h : ∀ v ∈ vs, ∀ r, deserialize (encode v) r = require (room v) e v)
    (hoff : ∀ o ∈ offsets (fixedLength (variableParts encode vs)) (variableParts encode vs), o < 2 ^ 32) :
    deserializeVariableVector deserialize vac (assemble (variableParts encode vs)) =
      require (vs.all room) e vs := by
  have hfixed := fixedLength_variableParts encode vs
  cases vs with
  | nil => rfl
  | cons v vs =>
    have hlen : 4 * (v :: vs).length = 4 * (vs.length + 1) := rfl
    have hlt : 4 * (vs.length + 1) < 2 ^ 32 := by
      rw [← hlen, ← hfixed]
      exact hoff _ (by simp)
    rw [hlen] at hfixed
    obtain ⟨pre, hpre⟩ : ∃ pre, pre = heads (4 * (vs.length + 1)) (variableParts encode (v :: vs)) := ⟨_, rfl⟩
    have hbytes : assemble (variableParts encode (v :: vs)) = pre ++ tails (variableParts encode (v :: vs)) := by
      rw [assemble, hfixed, hpre]
    have hprelen : pre.length = 4 * (vs.length + 1) := by rw [hpre, length_heads, hfixed]
    have hhead : assemble (variableParts encode (v :: vs)) = leBytes 4 (4 * (vs.length + 1)) ++
        (heads (4 * (vs.length + 1) + (encode v).length) (variableParts encode vs) ++
          tails (variableParts encode (v :: vs))) := by
      rw [hbytes, hpre, variableParts_cons, heads_variable, List.append_assoc]
    have hne : assemble (variableParts encode (v :: vs)) ≠ [] := by
      rw [hhead]
      simp [leBytes]
    have hcount : 4 * (vs.length + 1) / 4 = vs.length + 1 := by omega
    have hloop := deserializeVariableLoop_require e vac v vs h pre (tails (variableParts encode (v :: vs))) 4
      (by rwa [hprelen, ← hfixed])
      (by rw [← hbytes, hhead, List.drop_left' (length_leBytes 4 _), hprelen])
    rw [deserializeVariableVector, if_neg hne, hhead, readOffset_append hlt, ok_bind, ← hhead, hcount]
    rw [hprelen, ← hbytes] at hloop
    exact hloop

end Elements

/-! ### Containers -/

/-- A decoder for every member that only asks for room. -/
def Members.Requires {α : Type} : Members α → α → Prop
  | .nil, _ => True
  | .cons m ms, (v, vs) =>
    (∀ r, m.deserialize (m.encode v) r = require (m.hasRoom v) tooLong v) ∧ ms.Requires vs

/-- The first pass leaves the members of variable size for the second one. -/
theorem Members.deserializeFixedSizeMembers_require : {α : Type} → (ms : Members α) → ms.Encodable →
    (v : α) → ms.Fits v → ms.Requires v → (r : α) → (off : Nat) → (rest : Bytes) →
    (∀ o ∈ offsets off (ms.parts v), o < 2 ^ 32) →
    ms.deserializeFixedSizeMembers (heads off (ms.parts v) ++ rest) r =
      .ok (ms.mixed v r, offsets off (ms.parts v))
  | _, .nil, _, _, _, _, _, _, _, _ => rfl
  | _, .cons m ms, h, (v, vs), hfit, hreq, (r, rs), off, rest, hoff => by
    rw [Members.deserializeFixedSizeMembers, h.1.variableSize_eq]
    simp only [Members.parts, Members.mixed] at hoff ⊢
    cases hvar : m.isVariableSize with
    | true =>
      simp only [hvar, offsets_variable] at hoff
      have hrest := ms.deserializeFixedSizeMembers_require h.2 vs hfit.2 hreq.2 rs
        (off + (m.encode v).length) rest fun o ho => hoff o (List.mem_cons_of_mem _ ho)
      simp only [heads_variable, offsets_variable, if_true, List.append_assoc]
      rw [readOffset_append (hoff off (by simp)), ok_bind, BYTES_PER_LENGTH_OFFSET,
        List.drop_left' (length_leBytes 4 off), hrest, ok_bind]
    | false =>
      simp only [hvar, offsets_fixed] at hoff
      have hrest := ms.deserializeFixedSizeMembers_require h.2 vs hfit.2 hreq.2 rs off rest hoff
      have hsize : (m.encode v).length = m.size true r := by
        rw [← m.size_eq h.1 v hfit.1, m.size_eq_width h.1.wellFormed hvar,
          m.size_eq_width h.1.wellFormed hvar]
      have hmember := hreq.1 r
      rw [m.hasRoom_of_fixed hvar, require_true] at hmember
      simp only [heads_fixed, offsets_fixed, Bool.false_eq_true, if_false, List.append_assoc]
      rw [List.take_left' hsize, List.drop_left' hsize, hmember, nested_ok, ok_bind, hrest, ok_bind]

/-- The second pass stops at the first member without room. -/
theorem Members.deserializeVariableSizeMembers_require : {α : Type} → (ms : Members α) → ms.Encodable →
    (v : α) → ms.Requires v → (r : α) → (pre : Bytes) → (offset : Nat) → (os : List Nat) →
    (offsets pre.length (ms.parts v) = offset :: os ∨ offsets pre.length (ms.parts v) = []) →
    ms.deserializeVariableSizeMembers (pre ++ tails (ms.parts v)) offset os (ms.mixed v r) =
      require (ms.hasRoom v) tooLong v
  | _, .nil, _, _, _, _, _, _, _, _ => rfl
  | _, .cons m ms, h, (v, vs), hreq, (r, rs), pre, offset, os, hoff => by
    simp only [Members.mixed, Members.deserializeVariableSizeMembers, h.1.variableSize_eq, Members.hasRoom]
    simp only [Members.parts] at hoff ⊢
    cases hvar : m.isVariableSize with
    | true =>
      simp only [hvar, offsets_variable, List.cons.injEq, reduceCtorEq, or_false] at hoff
      obtain ⟨rfl, hos⟩ := hoff
      have hlen : (pre ++ m.encode v).length = pre.length + (m.encode v).length := List.length_append
      have hrest := ms.deserializeVariableSizeMembers_require h.2 vs hreq.2 rs (pre ++ m.encode v)
      rw [hlen, List.append_assoc] at hrest
      simp only [tails_cons, tail_variable, if_true]
      cases os with
      | nil =>
        have htails := tails_of_offsets_nil hos
        have hnext := hrest pre.length [] (.inr hos)
        rw [htails, List.append_nil] at hnext ⊢
        simp only [List.drop_left, hreq.1, nested_require]
        refine require_bind _ ?_
        rw [hnext]
        exact require_bind_ok _ _ _ (v, ·)
      | cons next os =>
        have hnext := hrest next os (.inl hos)
        have hrange : subrange (pre ++ (m.encode v ++ tails (ms.parts vs))) pre.length next =
            .ok (m.encode v) :=
          subrange_append pre (m.encode v) _ rfl (eq_of_offsets_cons hos)
        simp only [hrange, ok_bind, hreq.1, nested_require]
        refine require_bind _ ?_
        rw [hnext]
        exact require_bind_ok _ _ _ (v, ·)
    | false =>
      simp only [hvar, offsets_fixed] at hoff
      have hrest := ms.deserializeVariableSizeMembers_require h.2 vs hreq.2 rs pre offset os hoff
      simp only [tails_cons, tail_fixed, List.nil_append, Bool.false_eq_true, if_false]
      rw [hrest, m.hasRoom_of_fixed hvar, Bool.true_and]
      exact require_bind_ok _ _ _ (v, ·)

lemma Members.hasRoom_of_offsets_nil : {α : Type} → (ms : Members α) → (v : α) → (off : Nat) →
    offsets off (ms.parts v) = [] → ms.hasRoom v = true
  | _, .nil, _, _, _ => rfl
  | _, .cons m ms, (v, vs), off, hoff => by
    simp only [Members.parts] at hoff
    cases hvar : m.isVariableSize with
    | true => simp [hvar] at hoff
    | false =>
      simp only [hvar, offsets_fixed] at hoff
      rw [Members.hasRoom, m.hasRoom_of_fixed hvar, ms.hasRoom_of_offsets_nil vs off hoff]
      rfl

/-- The bytes up to the tails may hold more than the heads: the offsets skip what follows them. -/
lemma Members.deserializeContainer_require {ms : Members α} (h : ms.Encodable) {v : α} (hfit : ms.Fits v)
    (hreq : ms.Requires v) (r : α) {pre : Bytes}
    (hlen : pre.length + (tails (ms.parts v)).length < 2 ^ 32)
    (hheads : pre.take (fixedLength (ms.parts v)) = heads pre.length (ms.parts v)) :
    ms.deserializeContainer (pre ++ tails (ms.parts v)) r = require (ms.hasRoom v) tooLong v := by
  have hsplit : pre ++ tails (ms.parts v) = heads pre.length (ms.parts v) ++
      (pre.drop (fixedLength (ms.parts v)) ++ tails (ms.parts v)) := by
    rw [← hheads, ← List.append_assoc, List.take_append_drop]
  have hfixed := ms.deserializeFixedSizeMembers_require h v hfit hreq r pre.length
    (pre.drop (fixedLength (ms.parts v)) ++ tails (ms.parts v))
    fun o ho => Nat.lt_of_le_of_lt (le_of_mem_offsets ho).2 hlen
  rw [Members.deserializeContainer, hsplit, hfixed, ok_bind, ← hsplit]
  cases hoffsets : offsets pre.length (ms.parts v) with
  | nil =>
    rw [ms.hasRoom_of_offsets_nil v _ hoffsets, ms.mixed_of_fixed v r _ hoffsets]
    rfl
  | cons offset os =>
    exact ms.deserializeVariableSizeMembers_require h v hreq r pre offset os (.inl hoffsets)

lemma Members.deserializeContainer_encode {ms : Members α} (h : ms.Encodable) {v : α} (hfit : ms.Fits v)
    (hreq : ms.Requires v) (hlen : (assemble (ms.parts v)).length < 2 ^ 32) (r : α) :
    ms.deserializeContainer (assemble (ms.parts v)) r = require (ms.hasRoom v) tooLong v := by
  have hheads := length_heads (fixedLength (ms.parts v)) (ms.parts v)
  rw [length_assemble, ← hheads] at hlen
  refine Members.deserializeContainer_require h hfit hreq r hlen ?_
  rw [List.take_of_length_le (le_of_eq hheads), hheads]

/-! ### The induction over types -/

mutual

/-- The decoder on an encoding asks for room and for nothing else. -/
theorem SszType.deserialize_encode_require : {α : Type} → (τ : SszType α) → τ.Invertible → (v : α) →
    τ.Fits v → (r : α) → τ.deserialize (τ.encode v) r = require (τ.hasRoom v) tooLong v
  | _, .basic b, _, v, _, _ => by
    have hdec := b.deserialize_toBytes v []
    rwa [List.append_nil] at hdec
  | _, .array e n, h, v, hfit, r => by
    have hdec := (SszType.array e n).deserialize_encode (SszType.Invertible.decodable h h.2.1) v hfit r
    rw [hdec, (SszType.array e n).hasRoom_of_fixed h.2.1, require_true]
  | _, .vector _, h, _, _, _ => h.elim
  | _, .list e limit, h, v, hfit, r => by
    cases hvar : e.isVariableSize with
    | true =>
      have hoff := hfit.2
      rw [e.elementParts_of_variable hvar] at hoff
      have hvariable := deserializeVariableVector_require tooLong e.vac v
        (fun x hx r => SszType.deserialize_encode_require e h.2.2.2.1 x (hfit.1 x hx) r) hoff
      have hencode : (SszType.list e limit).encode v = assemble (variableParts e.encode v) :=
        congrArg assemble (e.elementParts_of_variable hvar v)
      rw [hencode, SszType.deserialize, e.basicLayout_of_variable hvar,
        h.2.2.2.1.encodable.variableSize_eq, hvar]
      exact hvariable
    | false =>
      have hroom : (SszType.list e limit).hasRoom v = true :=
        List.all_eq_true.mpr fun x _ => e.hasRoom_of_fixed hvar x
      have hdecodable : (SszType.list e limit).Decodable :=
        ⟨h.1, h.2.1, SszType.Invertible.decodable h.2.2.2.1 hvar, h.2.2.2.2⟩
      rw [hroom, (SszType.list e limit).deserialize_encode hdecodable v hfit r]
      rfl
  | _, .bitlist limit, _, v, _, r => by
    have hbits : (SszType.bitlist limit).encode v = packBits (v ++ [true]) := rfl
    have hlen : (packBits (v ++ [true])).length = v.length / 8 + 1 := by
      rw [length_packBits, List.length_append, List.length_singleton]
      omega
    rw [hbits, SszType.deserialize, deserializeBitlist, hlen, deserializeVectorBool_packBits]
    by_cases hroom : (v.length / 8 + 1) * 8 ≤ limit
    · rw [if_neg (by omega), SszType.hasRoom, decide_eq_true hroom, require_true]
    · rw [if_pos (by omega), SszType.hasRoom, decide_eq_false hroom]
      rfl
  | _, .bitset n, h, v, hfit, r => (SszType.bitset n).deserialize_encode h v hfit r
  | _, .container _ ms, h, v, hfit, r =>
    Members.deserializeContainer_encode (Members.Invertible.encodable h.2.2) hfit.2
      (Members.requires ms h.2.2 v hfit.2) hfit.1 r

theorem Members.requires : {α : Type} → (ms : Members α) → ms.Invertible → (v : α) → ms.Fits v →
    ms.Requires v
  | _, .nil, _, _, _ => trivial
  | _, .cons m ms, h, (v, vs), hfit =>
    ⟨fun r => SszType.deserialize_encode_require m h.1 v hfit.1 r, Members.requires ms h.2 vs hfit.2⟩

end

/-- The round trip of any type: the value comes back when each of its bitlists has room for its
delimiter, and otherwise the decoder throws. -/
theorem deserialize_serialize_outcome (τ : SszType α) (hτ : τ.Invertible) (v r : α)
    (hlen : (τ.encode v).length < 2 ^ 32) :
    (τ.serialize v >>= fun bytes => τ.deserialize bytes r) =
      if τ.hasRoom v then .ok v
      else .error (.thrown (.outOfRange "byte slice larger than list limit")) := by
  have hfit := τ.fits_of_length v hlen
  rw [τ.serialize_eq_of_fits hτ.encodable v hfit, ok_bind]
  exact SszType.deserialize_encode_require τ hτ v hfit r

/-- Bitlists beside integers, in a list. -/
def sampleVotes : SszType (List (List Bool × BitVec 8 × Unit)) :=
  .list (.container true (.cons (.bitlist 16) (.cons (.basic .uint8) .nil))) 4

lemma invertible_sampleVotes : sampleVotes.Invertible :=
  ⟨rfl, rfl, rfl, ⟨by decide, rfl, trivial, trivial, trivial⟩, fun h => by cases h⟩

/-- The second of two lists fills its limit of 16 bits. -/
theorem deserialize_serialize_outcome_sample :
    ((sampleVotes.serialize [([true], 1, ()), (List.replicate 15 true, 2, ())] >>= fun bytes =>
        sampleVotes.deserialize bytes []) = .ok [([true], 1, ()), (List.replicate 15 true, 2, ())]) ∧
      ((sampleVotes.serialize [([true], 1, ()), (List.replicate 16 true, 2, ())] >>= fun bytes =>
        sampleVotes.deserialize bytes []) =
          .error (.thrown (.outOfRange "byte slice larger than list limit"))) :=
  ⟨deserialize_serialize_outcome sampleVotes invertible_sampleVotes _ _ (by decide),
    deserialize_serialize_outcome sampleVotes invertible_sampleVotes _ _ (by decide)⟩

end Sszpp
