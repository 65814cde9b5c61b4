import Mathlib.Data.List.Forall2
import Sszpp.Spec.Encoding

/-!
# What a successful decoding says about the input

Each decoder as a relation between the bytes it accepted and the object it returned: which bytes
were handed to the decoder of which element or member, and which checks they passed.
-/

namespace Sszpp

open Library

variable {α : Type}

/-! ### Sequences of elements -/

lemma vectorLength_eq_ok {k n : Nat} {bytes : Bytes} (h : vectorLength k bytes = .ok n) :
    0 < k ∧ bytes.length = n * k := by
  unfold vectorLength at h
  split at h
  · cases h
  · rename_i hk
    split at h
    · cases h
    · rename_i hmod
      cases h
      have hdiv := Nat.div_add_mod bytes.length k
      rw [Nat.mul_comm] at hdiv
      omega

lemma deserializeCopy_eq_ok {layout : BasicLayout α} {n : Nat} {bytes : Bytes} {vs : StdArray α n}
    (h : deserializeCopy layout n bytes = .ok vs) :
    n * layout.sizeof ≤ bytes.length ∧ vs.1.flatMap layout.toBytes = bytes.take (n * layout.sizeof) := by
  induction n generalizing bytes with
  | zero =>
    cases h
    simp
  | succ n ih =>
    obtain ⟨v, hv, h⟩ := Outcome.bind_eq_ok.mp h
    obtain ⟨ws, hws, h⟩ := Outcome.bind_eq_ok.mp h
    cases h
    obtain ⟨hlen, hbytes⟩ := layout.toBytes_of_load hv
    obtain ⟨hrest, hflat⟩ := ih hws
    rw [List.length_drop] at hrest
    have hmul : (n + 1) * layout.sizeof = layout.sizeof + n * layout.sizeof := by ring
    refine ⟨by omega, ?_⟩
    rw [List.flatMap_cons, hbytes, hflat, hmul, List.take_add]

lemma deserializeChunks_eq_ok {deserialize : Bytes → α → Outcome α} {chunks : List Bytes}
    {ret : List α} {vs : StdArray α ret.length}
    (h : deserializeChunks deserialize chunks ret = .ok vs) (hlen : chunks.length = ret.length) :
    List.Forall₂ (fun p v => ∃ r, deserialize p r = .ok v) chunks vs.1 := by
  induction ret generalizing chunks with
  | nil =>
    obtain rfl := List.length_eq_zero_iff.mp hlen
    cases h
    exact .nil
  | cons r ret ih =>
    cases chunks with
    | nil => cases hlen
    | cons p ps =>
      obtain ⟨v, hv, h⟩ := Outcome.bind_eq_ok.mp h
      obtain ⟨ws, hws, h⟩ := Outcome.bind_eq_ok.mp h
      cases h
      exact .cons ⟨r, Outcome.nested_eq_ok.mp hv⟩ (ih hws (by simpa using hlen))

/-- A vector of fixed-size elements that are not basic. -/
lemma deserializeFixedVector_eq_ok {deserialize : Bytes → α → Outcome α} {vac : α} {k : Nat}
    {bytes : Bytes} {vs : List α} (h : deserializeFixedVector deserialize vac k bytes = .ok vs) :
    0 < k ∧ bytes.length = vs.length * k ∧
      List.Forall₂ (fun p v => ∃ r, deserialize p r = .ok v) (pieces k bytes) vs := by
  obtain ⟨n, hn, h⟩ := Outcome.bind_eq_ok.mp h
  obtain ⟨ws, hws, h⟩ := Outcome.bind_eq_ok.mp h
  cases h
  obtain ⟨hk, hlen⟩ := vectorLength_eq_ok hn
  have hwslen : ws.1.length = n := ws.2.trans List.length_replicate
  rw [deserializeChunked, if_neg (by omega)] at hws
  have hpieces : (pieces k bytes).length = (List.replicate n vac).length := by
    rw [length_pieces_of_length hk hlen, List.length_replicate]
  exact ⟨hk, by rw [hlen, hwslen], deserializeChunks_eq_ok hws hpieces⟩

lemma deserializeVariableLoop_eq_ok {deserialize : Bytes → α → Outcome α} {vac : α} {bytes : Bytes}
    {count offset idx : Nat} {vs : List α} (hidx : idx ≤ bytes.length)
    (h : deserializeVariableLoop deserialize vac bytes count offset idx = .ok vs) :
    idx + 4 * count ≤ bytes.length ∧
      OrderedTable bytes.length (offset :: words count (bytes.drop idx)) ∧
      List.Forall₂ (fun p v => deserialize p vac = .ok v)
        (rangesAt bytes (offset :: words count (bytes.drop idx))) vs := by
  induction count generalizing offset idx vs with
  | zero =>
    obtain ⟨v, hv, h⟩ := Outcome.bind_eq_ok.mp h
    cases h
    exact ⟨hidx, trivial, .cons (Outcome.nested_eq_ok.mp hv) .nil⟩
  | succ count ih =>
    obtain ⟨next, hnext, h⟩ := Outcome.bind_eq_ok.mp h
    obtain ⟨range, hrange, h⟩ := Outcome.bind_eq_ok.mp h
    obtain ⟨v, hv, h⟩ := Outcome.bind_eq_ok.mp h
    obtain ⟨ws, hws, h⟩ := Outcome.bind_eq_ok.mp h
    cases h
    obtain ⟨hread, rfl⟩ := readOffset_eq_ok.mp hnext
    rw [List.length_drop] at hread
    obtain ⟨hlen, hordered, hall⟩ := ih (by rw [BYTES_PER_LENGTH_OFFSET]; omega) hws
    rw [BYTES_PER_LENGTH_OFFSET, ← List.drop_drop] at hordered hall
    unfold subrange at hrange
    split at hrange
    · rename_i hord
      cases hrange
      refine ⟨by rw [BYTES_PER_LENGTH_OFFSET] at hlen; omega, ⟨hord.1, hord.2, hordered⟩, ?_⟩
      exact .cons (Outcome.nested_eq_ok.mp hv) hall
    · cases hrange

/-- A vector of variable-size elements. -/
lemma deserializeVariableVector_eq_ok {deserialize : Bytes → α → Outcome α} {vac : α} {bytes : Bytes}
    {vs : List α} (h : deserializeVariableVector deserialize vac bytes = .ok vs) :
    bytes = [] ∧ vs = [] ∨
      elementWords bytes ≠ [] ∧ 4 * (elementWords bytes).length ≤ bytes.length ∧
        OrderedTable bytes.length (elementWords bytes) ∧
        List.Forall₂ (fun p v => deserialize p vac = .ok v) (rangesAt bytes (elementWords bytes)) vs := by
  unfold deserializeVariableVector at h
  split at h
  · rename_i hnil
    cases h
    exact .inl ⟨hnil, rfl⟩
  · obtain ⟨offset, hoffset, h⟩ := Outcome.bind_eq_ok.mp h
    obtain ⟨hlen, rfl⟩ := readOffset_eq_ok.mp hoffset
    unfold elementWords
    split at h
    · cases h
    · rename_i count hcount
      obtain ⟨hend, hordered, hall⟩ := deserializeVariableLoop_eq_ok hlen h
      rw [hcount]
      refine .inr ⟨by simp [words], by rw [length_words]; omega, hordered, hall⟩

/-- A list of elements of fixed size has as many as there are pieces of their width. -/
lemma SszType.deserialize_list_of_fixed {e : SszType α} {limit : Nat} (hwf : e.WellFormed)
    (hfix : e.isVariableSize = false) {bytes : Bytes} {r vs : List α}
    (h : (SszType.list e limit).deserialize bytes r = .ok vs) :
    0 < e.width ∧ bytes.length = vs.length * e.width := by
  change deserializeVector e.basicLayout e.variableSize e.deserialize e.vac e.width bytes = .ok vs at h
  unfold deserializeVector at h
  split at h
  · rename_i layout hlayout
    obtain ⟨n, hn, h⟩ := Outcome.bind_eq_ok.mp h
    obtain ⟨ws, hws, h⟩ := Outcome.bind_eq_ok.mp h
    cases h
    obtain ⟨hk, hlen⟩ := vectorLength_eq_ok hn
    rw [SszType.width_of_basicLayout hlayout, ws.2]
    exact ⟨hk, hlen⟩
  · rw [hwf.variableSize_eq, hfix, if_neg Bool.false_ne_true] at h
    obtain ⟨hk, hlen, -⟩ := deserializeFixedVector_eq_ok h
    exact ⟨hk, hlen⟩

/-- A list of elements of variable size has one element for each of its offsets. -/
lemma SszType.deserialize_list_of_variable {e : SszType α} {limit : Nat} (hwf : e.WellFormed)
    (hvar : e.isVariableSize = true) {bytes : Bytes} {r vs : List α}
    (h : (SszType.list e limit).deserialize bytes r = .ok vs) :
    bytes = [] ∧ vs = [] ∨
      elementWords bytes ≠ [] ∧ 4 * (elementWords bytes).length ≤ bytes.length ∧
        OrderedTable bytes.length (elementWords bytes) ∧
        List.Forall₂ (fun p v => e.deserialize p e.vac = .ok v) (rangesAt bytes (elementWords bytes)) vs := by
  change deserializeVector e.basicLayout e.variableSize e.deserialize e.vac e.width bytes = .ok vs at h
  simp only [deserializeVector, SszType.basicLayout_of_variable hvar, hwf.variableSize_eq, hvar,
    if_true] at h
  exact deserializeVariableVector_eq_ok h

/-- The first offset of a list is the one that tells how many there are. -/
lemma elementWords_head {bytes : Bytes} {o : Nat} {os : List Nat} (h : elementWords bytes = o :: os) :
    o = leNat (bytes.take 4) := by
  unfold elementWords at h
  cases hn : leNat (bytes.take 4) / 4 with
  | zero =>
    rw [hn, words] at h
    cases h
  | succ n =>
    rw [hn, words, List.cons.injEq] at h
    exact h.1.symm

/-! ### Containers -/

/-- The first pass put the fixed-size members into `r`. -/
def Members.FirstPass {α : Type} : Members α → Bytes → α → Prop
  | .nil, _, _ => True
  | .cons m ms, shifted, (r, rs) =>
    if m.isVariableSize then 4 ≤ shifted.length ∧ ms.FirstPass (shifted.drop 4) rs
    else (∃ old, m.deserialize (shifted.take m.width) old = .ok r) ∧
      ms.FirstPass (shifted.drop m.width) rs

/-- Every fixed-size member of `v` was decoded from its place in `shifted`, every other one from
the next of the ranges. -/
def Members.Decoded {α : Type} : Members α → Bytes → List Bytes → α → Prop
  | .nil, _, ranges, _ => ranges = []
  | .cons m ms, shifted, ranges, (v, vs) =>
    if m.isVariableSize then
      4 ≤ shifted.length ∧ ∃ p ps old, ranges = p :: ps ∧ m.deserialize p old = .ok v ∧
        ms.Decoded (shifted.drop 4) ps vs
    else (∃ old, m.deserialize (shifted.take m.width) old = .ok v) ∧
      ms.Decoded (shifted.drop m.width) ranges vs

theorem Members.deserializeFixedSizeMembers_eq_ok : {α : Type} → (ms : Members α) →
    ms.WellFormed → (shifted : Bytes) → (old r : α) → (table : List Nat) →
    ms.deserializeFixedSizeMembers shifted old = .ok (r, table) →
    table = ms.offsetWords shifted ∧ ms.FirstPass shifted r
  | _, .nil, _, _, _, _, _, h => by
    cases h
    exact ⟨rfl, trivial⟩
  | _, .cons m ms, hwf, shifted, (v, vs), (r, rs), table, h => by
    simp only [Members.deserializeFixedSizeMembers, hwf.1.variableSize_eq] at h
    cases hvar : m.isVariableSize with
    | true =>
      simp only [hvar, if_true, Members.offsetWords, Members.FirstPass, BYTES_PER_LENGTH_OFFSET] at h ⊢
      obtain ⟨offset, hoffset, h⟩ := Outcome.bind_eq_ok.mp h
      obtain ⟨⟨ws, rest⟩, hrest, h⟩ := Outcome.bind_eq_ok.mp h
      cases h
      obtain ⟨hlen, rfl⟩ := readOffset_eq_ok.mp hoffset
      obtain ⟨rfl, hpass⟩ := ms.deserializeFixedSizeMembers_eq_ok hwf.2 _ _ _ _ hrest
      exact ⟨rfl, hlen, hpass⟩
    | false =>
      simp only [hvar, Bool.false_eq_true, if_false, Members.offsetWords, Members.FirstPass,
        m.size_eq_width hwf.1 hvar] at h ⊢
      obtain ⟨w, hw, h⟩ := Outcome.bind_eq_ok.mp h
      obtain ⟨⟨ws, rest⟩, hrest, h⟩ := Outcome.bind_eq_ok.mp h
      cases h
      obtain ⟨rfl, hpass⟩ := ms.deserializeFixedSizeMembers_eq_ok hwf.2 _ _ _ _ hrest
      exact ⟨rfl, ⟨v, Outcome.nested_eq_ok.mp hw⟩, hpass⟩

theorem Members.deserializeVariableSizeMembers_eq_ok : {α : Type} → (ms : Members α) →
    ms.WellFormed → (bytes shifted : Bytes) → (offset : Nat) → (table : List Nat) → (r v : α) →
    ms.FirstPass shifted r →
    (ms.offsetWords shifted = offset :: table ∨ ms.offsetWords shifted = []) →
    ms.deserializeVariableSizeMembers bytes offset table r = .ok v →
    OrderedTable bytes.length (ms.offsetWords shifted) ∧
      ms.Decoded shifted (rangesAt bytes (ms.offsetWords shifted)) v
  | _, .nil, _, _, _, _, _, _, _, _, _, _ => ⟨trivial, rfl⟩
  | _, .cons m ms, hwf, bytes, shifted, offset, table, (r, rs), (v, vs), hpass, htable, h => by
    simp only [Members.deserializeVariableSizeMembers, hwf.1.variableSize_eq] at h
    cases hvar : m.isVariableSize with
    | true =>
      simp only [hvar, if_true, Members.offsetWords, Members.FirstPass, Members.Decoded,
        List.cons.injEq, reduceCtorEq, or_false] at h hpass htable ⊢
      obtain ⟨rfl, hwords⟩ := htable
      cases table with
      | nil =>
        obtain ⟨w, hw, h⟩ := Outcome.bind_eq_ok.mp h
        obtain ⟨ws, hws, h⟩ := Outcome.bind_eq_ok.mp h
        cases h
        obtain ⟨-, hdecoded⟩ := ms.deserializeVariableSizeMembers_eq_ok hwf.2 bytes _ _ _ rs vs
          hpass.2 (.inr hwords) hws
        rw [hwords] at hdecoded ⊢
        exact ⟨trivial, hpass.1, _, [], r, rfl, Outcome.nested_eq_ok.mp hw, hdecoded⟩
      | cons next table =>
        obtain ⟨range, hrange, h⟩ := Outcome.bind_eq_ok.mp h
        obtain ⟨w, hw, h⟩ := Outcome.bind_eq_ok.mp h
        obtain ⟨ws, hws, h⟩ := Outcome.bind_eq_ok.mp h
        cases h
        obtain ⟨hordered, hdecoded⟩ := ms.deserializeVariableSizeMembers_eq_ok hwf.2 bytes _ _ _ rs vs
          hpass.2 (.inl hwords) hws
        rw [hwords] at hordered hdecoded ⊢
        unfold subrange at hrange
        split at hrange
        · rename_i hord
          cases hrange
          exact ⟨⟨hord.1, hord.2, hordered⟩, hpass.1, _, _, r, rfl, Outcome.nested_eq_ok.mp hw, hdecoded⟩
        · cases hrange
    | false =>
      simp only [hvar, Bool.false_eq_true, if_false, Members.offsetWords, Members.FirstPass,
        Members.Decoded] at h hpass htable ⊢
      obtain ⟨ws, hws, h⟩ := Outcome.bind_eq_ok.mp h
      cases h
      obtain ⟨hordered, hdecoded⟩ := ms.deserializeVariableSizeMembers_eq_ok hwf.2 bytes _ _ _ rs vs
        hpass.2 htable hws
      exact ⟨hordered, hpass.1, hdecoded⟩

lemma Members.decoded_of_firstPass : {α : Type} → (ms : Members α) → (shifted : Bytes) → (v : α) →
    ms.offsetWords shifted = [] → ms.FirstPass shifted v → ms.Decoded shifted [] v
  | _, .nil, _, _, _, _ => rfl
  | _, .cons m ms, shifted, (v, vs), hwords, hpass => by
    cases hvar : m.isVariableSize with
    | true => simp [Members.offsetWords, hvar] at hwords
    | false =>
      simp only [hvar, Bool.false_eq_true, if_false, Members.offsetWords, Members.FirstPass,
        Members.Decoded] at hwords hpass ⊢
      exact ⟨hpass.1, ms.decoded_of_firstPass _ vs hwords hpass.2⟩

/-- The members of a decoded container come from the places its offsets name. -/
theorem Members.deserializeContainer_eq_ok {ms : Members α} (hwf : ms.WellFormed) {bytes : Bytes}
    {r v : α} (h : ms.deserializeContainer bytes r = .ok v) :
    OrderedTable bytes.length (ms.offsetWords bytes) ∧
      ms.Decoded bytes (rangesAt bytes (ms.offsetWords bytes)) v := by
  obtain ⟨⟨r', table⟩, hfixed, h⟩ := Outcome.bind_eq_ok.mp h
  obtain ⟨rfl, hpass⟩ := ms.deserializeFixedSizeMembers_eq_ok hwf bytes r r' table hfixed
  cases hwords : ms.offsetWords bytes with
  | nil =>
    simp only [hwords] at h
    cases h
    exact ⟨trivial, ms.decoded_of_firstPass bytes v hwords hpass⟩
  | cons offset table =>
    simp only [hwords] at h
    have hvariable := ms.deserializeVariableSizeMembers_eq_ok hwf bytes bytes offset table r' v hpass
      (.inl hwords) h
    rwa [hwords] at hvariable

end Sszpp
