import Sszpp.Proofs.Canonical
import Sszpp.Proofs.Classification
import Sszpp.Proofs.RoundTrip

/-!
# The decoders of fixed-size types

No decoder compares the length of its input with the size of its type: scalars and arrays of basic
types ask for a minimum, arrays of other types take the chunks that come, bitsets ask for nothing and
containers pass on what is left of a member. Which inputs are read and which are rejected follows from
the type alone, whatever the object held before.
-/

namespace Sszpp

open Library

variable {α : Type}

mutual

/-- The types built from basic types, non-empty arrays of them, of arrays and of containers, bitsets,
and containers of fixed size. -/
def SszType.Flat {α : Type} : SszType α → Prop
  | .basic _ => True
  | .array e n => 0 < n ∧ e.isBitset = false ∧ e.Flat
  | .vector _ => False
  | .list _ _ => False
  | .bitlist _ => False
  | .bitset _ => True
  | .container variableSize ms => variableSize = false ∧ ms.Flat

def Members.Flat {α : Type} : Members α → Prop
  | .nil => True
  | .cons m ms => m.Flat ∧ ms.Flat

end

mutual

/-- The elements of arrays take up bytes, so that an input can be divided among them. -/
def SszType.Chunkable {α : Type} : SszType α → Prop
  | .basic _ => True
  | .array e _ => 0 < e.fixedSize ∧ e.Chunkable
  | .vector _ => True
  | .list _ _ => True
  | .bitlist _ => True
  | .bitset _ => True
  | .container _ ms => ms.Chunkable

def Members.Chunkable {α : Type} : Members α → Prop
  | .nil => True
  | .cons m ms => m.Chunkable ∧ ms.Chunkable

end

mutual

/-- What the bytes of an encoding satisfy: those of a `bool` are 0 or 1 and the high bits of a
bitvector that stand for nothing are 0. -/
def SszType.Content {α : Type} : SszType α → Bytes → Prop
  | .basic b, bytes => b = .boolean → ∀ x ∈ bytes, x = 0 ∨ x = 1
  | .array e n, bytes => ∀ i < n, e.Content ((bytes.drop (i * e.width)).take e.width)
  | .vector _, _ => False
  | .list _ _, _ => False
  | .bitlist _, _ => False
  | .bitset n, bytes => ∀ i, n ≤ i → bitAt bytes i = false
  | .container _ ms, bytes => ms.Content bytes

def Members.Content {α : Type} : Members α → Bytes → Prop
  | .nil, _ => True
  | .cons m ms, bytes => m.Content (bytes.take m.width) ∧ ms.Content (bytes.drop m.width)

end

/-- The encodings of a fixed-size type. -/
def IsEncoding (τ : SszType α) (bytes : Bytes) : Prop :=
  bytes.length = τ.width ∧ τ.Content bytes

/-! ### Which inputs are read -/

mutual

/-- The inputs on which the decoder returns. -/
def SszType.Reads {α : Type} : SszType α → Bytes → Prop
  | .basic b, bytes => b.sizeof ≤ bytes.length ∧ (SszType.basic b).Content (bytes.take b.sizeof)
  | .array e n, bytes =>
    if e.basicLayout.isSome then n * e.width ≤ bytes.length ∧ (SszType.array e n).Content bytes
    else 0 < e.width ∧ (pieces e.width bytes).length ≤ n ∧ ∀ p ∈ pieces e.width bytes, e.Reads p
  | .vector _, _ => False
  | .list _ _, _ => False
  | .bitlist _, _ => False
  | .bitset _, _ => True
  | .container _ ms, bytes => ms.Reads bytes

def Members.Reads {α : Type} : Members α → Bytes → Prop
  | .nil, _ => True
  | .cons m ms, bytes => m.Reads (bytes.take m.width) ∧ ms.Reads (bytes.drop m.width)

end

/-- One of the first `n` chunks is rejected after those before it were read. -/
def RejectsChunk (reads rejects : Bytes → Prop) (n : Nat) (chunks : List Bytes) : Prop :=
  ∃ pre p post, chunks = pre ++ p :: post ∧ pre.length < n ∧ (∀ q ∈ pre, reads q) ∧ rejects p

mutual

/-- The inputs on which the decoder throws. -/
def SszType.Rejects {α : Type} : SszType α → Bytes → Prop
  | .basic b, bytes => bytes.length < b.sizeof ∨ ¬ (SszType.basic b).Content (bytes.take b.sizeof)
  | .array e n, bytes =>
    if e.basicLayout.isSome then bytes.length < n * e.width
    else 0 < e.width ∧ RejectsChunk e.Reads e.Rejects n (pieces e.width bytes)
  | .vector _, _ => False
  | .list _ _, _ => False
  | .bitlist _, _ => False
  | .bitset _, _ => False
  | .container _ ms, bytes => ms.Rejects bytes

def Members.Rejects {α : Type} : Members α → Bytes → Prop
  | .nil, _ => False
  | .cons m ms, bytes =>
    m.Rejects (bytes.take m.width) ∨ m.Reads (bytes.take m.width) ∧ ms.Rejects (bytes.drop m.width)

end

/-- A decoder returns where it reads, throws where it rejects, and does something undefined on all
other inputs. -/
def Follows {β : Type} (x : Outcome β) (reads rejects : Prop) : Prop :=
  match x with
  | .ok _ => reads ∧ ¬ rejects
  | .error (.thrown _) => ¬ reads ∧ rejects
  | .error (.undefined _) => ¬ reads ∧ ¬ rejects

section Follows

variable {β γ : Type} {x : Outcome β} {reads rejects reads' rejects' : Prop}

lemma Follows.reads_iff (h : Follows x reads rejects) : (∃ v, x = .ok v) ↔ reads := by
  rcases x with (e | u) | v
  · exact ⟨nofun, fun hreads => absurd hreads h.1⟩
  · exact ⟨nofun, fun hreads => absurd hreads h.1⟩
  · exact ⟨fun _ => h.1, fun _ => ⟨v, rfl⟩⟩

lemma Follows.rejects_iff (h : Follows x reads rejects) : (∃ e, x = .error (.thrown e)) ↔ rejects := by
  rcases x with (e | u) | v
  · exact ⟨fun _ => h.2, fun _ => ⟨e, rfl⟩⟩
  · exact ⟨nofun, fun hrejects => absurd hrejects h.2⟩
  · exact ⟨nofun, fun hrejects => absurd hrejects h.2⟩

lemma Follows.nested (h : Follows x reads rejects) : Follows x.nested reads rejects := by
  rcases x with (e | u) | v <;> exact h

lemma Follows.congr (h : Follows x reads rejects) (hreads : reads ↔ reads') (hrejects : rejects ↔ rejects') :
    Follows x reads' rejects' := by
  rw [← propext hreads, ← propext hrejects]
  exact h

/-- A second decoder that runs after the first. -/
lemma Follows.bind (h : Follows x reads rejects) {f : β → Outcome γ}
    (hf : ∀ v, x = .ok v → Follows (f v) reads' rejects') :
    Follows (x >>= f) (reads ∧ reads') (rejects ∨ reads ∧ rejects') := by
  rcases x with (e | u) | v
  · exact ⟨fun hboth => h.1 hboth.1, .inl h.2⟩
  · refine ⟨fun hboth => h.1 hboth.1, ?_⟩
    rintro (hrejects | hboth)
    · exact h.2 hrejects
    · exact h.1 hboth.1
  · apply (hf v rfl).congr
    · exact ⟨fun hreads => ⟨h.1, hreads⟩, And.right⟩
    · constructor
      · exact fun hrejects => .inr ⟨h.1, hrejects⟩
      · rintro (hrejects | hboth)
        · exact absurd hrejects h.2
        · exact hboth.2

/-- Packing up a result. -/
lemma Follows.map (h : Follows x reads rejects) (f : β → γ) :
    Follows (x >>= fun v => .ok (f v)) reads rejects := by
  rcases x with (e | u) | v <;> exact h

end Follows

/-! ### Flat types in the classes of types -/

mutual

theorem SszType.Flat.regular : {α : Type} → {τ : SszType α} → τ.Flat →
    τ.Regular ∧ τ.variableSize = false ∧ τ.isVariableSize = false
  | _, .basic _, _ => ⟨trivial, rfl, rfl⟩
  | _, .array _ _, h =>
    have ⟨hregular, hvariable, hfix⟩ := SszType.Flat.regular h.2.2
    ⟨⟨hfix, hvariable, hregular⟩, rfl, hfix⟩
  | _, .vector _, h => h.elim
  | _, .list _ _, h => h.elim
  | _, .bitlist _, h => h.elim
  | _, .bitset _, _ => ⟨trivial, rfl, rfl⟩
  | _, .container _ _, h =>
    have ⟨hregular, hfix⟩ := Members.Flat.regular h.2
    ⟨⟨fun _ => hfix, hregular⟩, h.1, hfix⟩

theorem Members.Flat.regular : {α : Type} → {ms : Members α} → ms.Flat →
    ms.Regular ∧ ms.hasVariableSize = false
  | _, .nil, _ => ⟨trivial, rfl⟩
  | _, .cons _ _, h =>
    have ⟨hregular, hvariable, hfix⟩ := SszType.Flat.regular h.1
    have ⟨hregulars, hfixs⟩ := Members.Flat.regular h.2
    ⟨⟨hvariable.trans hfix.symm, hregular, hregulars⟩, by rw [Members.hasVariableSize, hfix, hfixs]; rfl⟩

end

mutual

theorem SszType.Flat.declared : {α : Type} → {τ : SszType α} → τ.Flat → τ.Declared ∧ τ.varies = false
  | _, .basic _, _ => ⟨trivial, rfl⟩
  | _, .array _ _, h =>
    have ⟨hdeclared, hfix⟩ := SszType.Flat.declared h.2.2
    ⟨hdeclared, by rw [SszType.varies, hfix, Bool.and_false]⟩
  | _, .vector _, h => h.elim
  | _, .list _ _, h => h.elim
  | _, .bitlist _, h => h.elim
  | _, .bitset _, _ => ⟨trivial, rfl⟩
  | _, .container _ _, h =>
    have ⟨hdeclared, hfix⟩ := Members.Flat.declared h.2
    ⟨⟨fun htrue => absurd (h.1.symm.trans htrue) Bool.false_ne_true, hdeclared⟩, hfix⟩

theorem Members.Flat.declared : {α : Type} → {ms : Members α} → ms.Flat →
    ms.Declared ∧ ms.varies = false
  | _, .nil, _ => ⟨trivial, rfl⟩
  | _, .cons _ _, h =>
    have ⟨hdeclared, hfix⟩ := SszType.Flat.declared h.1
    have ⟨hdeclareds, hfixs⟩ := Members.Flat.declared h.2
    ⟨⟨hdeclared, hdeclareds⟩, by rw [Members.varies, hfix, hfixs]; rfl⟩

end

lemma SszType.Flat.size_eq_width {τ : SszType α} (h : τ.Flat) (v : α) : τ.size true v = τ.width :=
  h.declared.1.size_eq_width h.declared.2 v

/-! ### The decoders -/

lemma content_boolean (x : Byte) : (SszType.basic .boolean).Content [x] ↔ x = 0 ∨ x = 1 := by
  simp [SszType.Content]

lemma BasicType.load_follows {b : BasicType} {bytes : Bytes} (hlen : b.sizeof ≤ bytes.length) :
    Follows (b.load bytes) ((SszType.basic b).Content (bytes.take b.sizeof)) False := by
  rw [BasicType.load, if_neg (by omega)]
  by_cases hb : b = .boolean
  · subst hb
    cases bytes with
    | nil => simp [BasicType.sizeof] at hlen
    | cons x xs =>
      have hbyte : ∀ x : Byte, x = 0 ∨ x = 1 ↔ ¬ 1 < leNat [x] := by decide
      have htake : (x :: xs).take BasicType.boolean.sizeof = [x] := rfl
      rw [htake, propext (content_boolean x), propext (hbyte x)]
      split
      · rename_i hlt
        exact ⟨fun hle => hle hlt.2, not_false⟩
      · rename_i hle
        exact ⟨fun hlt => hle ⟨rfl, hlt⟩, not_false⟩
  · rw [if_neg fun h => hb h.1]
    exact ⟨fun h => absurd h hb, not_false⟩

lemma deserializeBool_follows (bytes : Bytes) :
    Follows (deserializeBool bytes) ((SszType.basic .boolean).Reads bytes)
      ((SszType.basic .boolean).Rejects bytes) := by
  cases bytes with
  | nil => exact ⟨fun h => absurd h.1 (by decide), .inl (by decide)⟩
  | cons x xs =>
    have hlen : BasicType.boolean.sizeof ≤ (x :: xs).length := Nat.le_add_left 1 _
    have htake : (x :: xs).take BasicType.boolean.sizeof = [x] := rfl
    rw [SszType.Reads, SszType.Rejects, htake, propext (content_boolean x)]
    rw [deserializeBool]
    by_cases h0 : x = 0
    · rw [if_pos h0]
      refine ⟨⟨hlen, .inl h0⟩, ?_⟩
      rintro (hshort | hnot)
      · omega
      · exact hnot (.inl h0)
    · rw [if_neg h0]
      by_cases h1 : x = 1
      · rw [if_pos h1]
        refine ⟨⟨hlen, .inr h1⟩, ?_⟩
        rintro (hshort | hnot)
        · omega
        · exact hnot (.inr h1)
      · rw [if_neg h1]
        exact ⟨fun hreads => hreads.2.elim h0 h1, .inr fun hbool => hbool.elim h0 h1⟩

lemma BasicType.follows (b : BasicType) (bytes : Bytes) :
    Follows (b.deserialize bytes) ((SszType.basic b).Reads bytes) ((SszType.basic b).Rejects bytes) := by
  by_cases hb : b = .boolean
  · subst hb
    exact deserializeBool_follows bytes
  · have hcontent : (SszType.basic b).Content (bytes.take b.sizeof) := fun h => absurd h hb
    rw [BasicType.deserialize_of_ne hb]
    split
    · rename_i hlt
      exact ⟨fun h => absurd h.1 (by omega), .inl hlt⟩
    · rename_i hlen
      apply (BasicType.load_follows (by omega : b.sizeof ≤ bytes.length)).congr
      · exact ⟨fun h => ⟨by omega, h⟩, fun h => h.2⟩
      · exact ⟨False.elim, fun h => h.elim hlen fun hnot => hnot hcontent⟩

lemma deserializeCopy_follows (b : BasicType) {n : Nat} {bytes : Bytes} (hlen : n * b.sizeof ≤ bytes.length) :
    Follows (deserializeCopy b.layout n bytes)
      (∀ i < n, (SszType.basic b).Content ((bytes.drop (i * b.sizeof)).take b.sizeof)) False := by
  induction n generalizing bytes with
  | zero => exact ⟨nofun, not_false⟩
  | succ n ih =>
    rw [Nat.succ_mul] at hlen
    have hrest := @ih (bytes.drop b.sizeof) (by rw [List.length_drop]; omega)
    have hload : Follows (b.layout.load bytes) _ False := BasicType.load_follows (b := b) (by omega)
    rw [deserializeCopy]
    apply (hload.bind fun v _ => hrest.map _).congr
    · rw [Nat.forall_lt_succ_left]
      simp only [List.drop_drop, Nat.zero_mul, List.drop_zero, Nat.succ_mul, Nat.add_comm b.sizeof]
    · simp

lemma deserializeBasicArray_follows (b : BasicType) (n : Nat) (bytes : Bytes) :
    Follows (deserializeBasicArray b.layout n bytes)
      (n * b.sizeof ≤ bytes.length ∧ (SszType.array (.basic b) n).Content bytes)
      (bytes.length < n * b.sizeof) := by
  rw [deserializeBasicArray, Nat.mul_comm n]
  split
  · rename_i hlt
    exact ⟨fun hreads => absurd hreads.1 (not_le_of_gt hlt), hlt⟩
  · rename_i hlen
    have hle := not_lt.mp hlen
    apply (deserializeCopy_follows b (Nat.mul_comm n _ ▸ hle)).congr
    · exact ⟨fun hcontent => ⟨hle, hcontent⟩, And.right⟩
    · exact ⟨False.elim, hlen⟩

lemma rejectsChunk_cons {reads rejects : Bytes → Prop} {n : Nat} {p : Bytes} {ps : List Bytes} :
    RejectsChunk reads rejects (n + 1) (p :: ps) ↔
      rejects p ∨ reads p ∧ RejectsChunk reads rejects n ps := by
  constructor
  · rintro ⟨pre, q, post, heq, hlt, hreads, hrejects⟩
    cases pre with
    | nil =>
      rw [List.nil_append] at heq
      obtain ⟨rfl, -⟩ := List.cons.inj heq
      exact .inl hrejects
    | cons q' pre =>
      rw [List.cons_append] at heq
      obtain ⟨rfl, rfl⟩ := List.cons.inj heq
      exact .inr ⟨hreads p (by simp), pre, q, post, rfl, by simpa using hlt,
        fun r hr => hreads r (List.mem_cons_of_mem _ hr), hrejects⟩
  · rintro (hrejects | ⟨hread, pre, q, post, rfl, hlt, hreads, hrejects⟩)
    · exact ⟨[], p, ps, rfl, Nat.succ_pos n, nofun, hrejects⟩
    · refine ⟨p :: pre, q, post, rfl, by simpa using hlt, ?_, hrejects⟩
      intro r hr
      rcases List.mem_cons.mp hr with rfl | hmem
      · exact hread
      · exact hreads r hmem

lemma deserializeChunks_follows {deserialize : Bytes → α → Outcome α} {reads rejects : Bytes → Prop}
    (h : ∀ p r, Follows (deserialize p r) (reads p) (rejects p)) (chunks : List Bytes) (ret : List α) :
    Follows (deserializeChunks deserialize chunks ret)
      (chunks.length ≤ ret.length ∧ ∀ p ∈ chunks, reads p)
      (RejectsChunk reads rejects ret.length chunks) := by
  induction ret generalizing chunks with
  | nil =>
    cases chunks with
    | nil => exact ⟨⟨le_refl _, nofun⟩, fun ⟨pre, p, post, heq, _⟩ => by simp at heq⟩
    | cons p ps =>
      exact ⟨fun hreads => by simp at hreads, fun ⟨_, _, _, _, hlt, _⟩ => Nat.not_lt_zero _ hlt⟩
  | cons r ret ih =>
    cases chunks with
    | nil => exact ⟨⟨Nat.zero_le _, nofun⟩, fun ⟨pre, p, post, heq, _⟩ => by simp at heq⟩
    | cons p ps =>
      rw [deserializeChunks]
      apply ((h p r).nested.bind fun v _ => (ih ps).map _).congr
      · simp only [List.length_cons, Nat.add_le_add_iff_right, List.forall_mem_cons]
        tauto
      · exact rejectsChunk_cons.symm

/-- A flat container has no offsets. -/
theorem Members.Flat.offsets_nil : {α : Type} → {ms : Members α} → ms.Flat → {bytes : Bytes} → {r v : α} →
    {offsets : List Nat} → ms.deserializeFixedSizeMembers bytes r = .ok (v, offsets) → offsets = []
  | _, .nil, _, _, _, _, _, hrun => by
    cases hrun
    rfl
  | _, .cons m ms, h, bytes, (r, rs), v, offsets, hrun => by
    simp only [Members.deserializeFixedSizeMembers, h.1.regular.2.1, Bool.false_eq_true, if_false] at hrun
    obtain ⟨w, -, hrun⟩ := Outcome.bind_eq_ok.mp hrun
    obtain ⟨⟨ws, rest⟩, hrest, hrun⟩ := Outcome.bind_eq_ok.mp hrun
    cases hrun
    exact Members.Flat.offsets_nil h.2 hrest

/-- An array, with its elements' decoder. -/
lemma SszType.Flat.follows_array {e : SszType α} {n : Nat} (h : e.Flat)
    (ih : ∀ p r, Follows (e.deserialize p r) (e.Reads p) (e.Rejects p)) (bytes : Bytes) (r : StdArray α n) :
    Follows ((SszType.array e n).deserialize bytes r) ((SszType.array e n).Reads bytes)
      ((SszType.array e n).Rejects bytes) := by
  simp only [SszType.deserialize, deserializeArray, SszType.Reads, SszType.Rejects]
  cases hlayout : e.basicLayout with
  | some layout =>
    cases e with
    | basic b =>
      cases hlayout
      exact deserializeBasicArray_follows b n bytes
    | _ => cases hlayout
  | none =>
    have hvariable := h.regular.2.1
    simp only [hvariable, Option.isSome_none, Bool.false_eq_true, if_false, deserializeFixedArray,
      deserializeChunked]
    apply Follows.map
    change Follows (if e.width = 0 then _ else _) _ _
    split
    · rename_i hzero
      exact ⟨fun hreads => absurd hreads.1 (by omega), fun hrejects => absurd hrejects.1 (by omega)⟩
    · rename_i hpos
      have hchunks := deserializeChunks_follows ih (pieces e.width bytes) r.1
      apply hchunks.congr
      · rw [r.2]
        exact ⟨fun hreads => ⟨by omega, hreads⟩, And.right⟩
      · rw [r.2]
        exact ⟨fun hrejects => ⟨by omega, hrejects⟩, And.right⟩

mutual

theorem SszType.Flat.follows : {α : Type} → {τ : SszType α} → τ.Flat → (bytes : Bytes) → (r : α) →
    Follows (τ.deserialize bytes r) (τ.Reads bytes) (τ.Rejects bytes)
  | _, .basic b, _, bytes, _ => b.follows bytes
  | _, .array _ _, h, bytes, r => h.2.2.follows_array (fun p r => SszType.Flat.follows h.2.2 p r) bytes r
  | _, .vector _, h, _, _ => h.elim
  | _, .list _ _, h, _, _ => h.elim
  | _, .bitlist _, h, _, _ => h.elim
  | _, .bitset _, _, _, _ => ⟨trivial, not_false⟩
  | _, .container _ ms, h, bytes, r => by
    have hfirst := Members.Flat.follows h.2 bytes r
    rw [SszType.deserialize]
    have hpack : ∀ a, ms.deserializeFixedSizeMembers bytes r = .ok a →
        Follows (match a.2 with
          | [] => .ok a.1
          | offset :: offsets => ms.deserializeVariableSizeMembers bytes offset offsets a.1) True False := by
      rintro ⟨v, offsets⟩ hrun
      obtain rfl := Members.Flat.offsets_nil h.2 hrun
      exact ⟨trivial, not_false⟩
    apply (hfirst.bind hpack).congr
    · exact ⟨And.left, fun hreads => ⟨hreads, trivial⟩⟩
    · exact ⟨fun hrejects => hrejects.elim id fun hfalse => hfalse.2.elim, .inl⟩

theorem Members.Flat.follows : {α : Type} → {ms : Members α} → ms.Flat → (bytes : Bytes) → (r : α) →
    Follows (ms.deserializeFixedSizeMembers bytes r) (ms.Reads bytes) (ms.Rejects bytes)
  | _, .nil, _, _, _ => ⟨trivial, not_false⟩
  | _, .cons m ms, h, bytes, (v, vs) => by
    simp only [Members.deserializeFixedSizeMembers, h.1.regular.2.1, Bool.false_eq_true, if_false,
      h.1.size_eq_width, Members.Reads, Members.Rejects]
    exact (SszType.Flat.follows h.1 _ v).nested.bind fun w _ => (Members.Flat.follows h.2 _ vs).map _

end

/-! ### Encodings are read -/

lemma SszType.Flat.width_eq {τ : SszType α} (h : τ.Flat) (hwrap : τ.NoWrap) : τ.width = τ.fixedSize :=
  (h.declared.1.exact h.declared.2 hwrap τ.vac).1

/-- The slices of an array's encoding are those of its elements. -/
lemma SszType.content_of_mem_pieces {e : SszType α} {n : Nat} (hwidth : e.width = e.fixedSize) {bytes : Bytes}
    (hlen : bytes.length = n * e.fixedSize) (hcontent : (SszType.array e n).Content bytes)
    (hpos : 0 < e.fixedSize) {p : Bytes} (hp : p ∈ pieces e.fixedSize bytes) :
    p.length = e.fixedSize ∧ e.Content p := by
  refine ⟨length_of_mem_pieces hpos (by rw [hlen, Nat.mul_mod_left]) hp, ?_⟩
  obtain ⟨i, hi, rfl⟩ := (mem_pieces_of_length hpos hlen).mp hp
  have hslice := hcontent i hi
  rwa [hwidth] at hslice

lemma SszType.Flat.reads_array_iff {e : SszType α} {n : Nat} (hn : 0 < n) (hwidth : e.width = e.fixedSize)
    {bytes : Bytes} (hlen : bytes.length = n * e.fixedSize) (hcontent : (SszType.array e n).Content bytes)
    (ih : ∀ {p}, p.length = e.fixedSize → e.Content p → (e.Reads p ↔ e.Chunkable)) :
    (SszType.array e n).Reads bytes ↔ (SszType.array e n).Chunkable := by
  rw [SszType.Reads, SszType.Chunkable, hwidth]
  cases hlayout : e.basicLayout with
  | some layout =>
    have hchunkable : 0 < e.fixedSize ∧ e.Chunkable := by
      cases e with
      | basic b => exact ⟨b.sizeof_pos, trivial⟩
      | _ => cases hlayout
    rw [Option.isSome_some, if_pos rfl]
    exact ⟨fun _ => hchunkable, fun _ => ⟨hlen.ge, hcontent⟩⟩
  | none =>
    have hpiece : 0 < e.fixedSize → ∀ p ∈ pieces e.fixedSize bytes, (e.Reads p ↔ e.Chunkable) := by
      intro hpos p hp
      obtain ⟨hlength, hslice⟩ := SszType.content_of_mem_pieces hwidth hlen hcontent hpos hp
      exact ih hlength hslice
    rw [Option.isSome_none, if_neg Bool.false_ne_true]
    constructor
    · rintro ⟨hpos, -, hreads⟩
      have hfirst := (mem_pieces_of_length hpos hlen).mpr ⟨0, hn, rfl⟩
      exact ⟨hpos, (hpiece hpos _ hfirst).mp (hreads _ hfirst)⟩
    · rintro ⟨hpos, hchunkable⟩
      exact ⟨hpos, (length_pieces_of_length hpos hlen).le, fun p hp => (hpiece hpos p hp).mpr hchunkable⟩

mutual

/-- An input of the right length and content is read as soon as it can be divided into chunks. -/
theorem SszType.Flat.reads_iff : {α : Type} → {τ : SszType α} → τ.Flat → τ.NoWrap → {bytes : Bytes} →
    bytes.length = τ.fixedSize → τ.Content bytes → (τ.Reads bytes ↔ τ.Chunkable)
  | _, .basic b, _, _, bytes, hlen, hcontent => by
    change bytes.length = b.sizeof at hlen
    rw [SszType.Reads, SszType.Chunkable, List.take_of_length_le (by omega)]
    exact ⟨fun _ => trivial, fun _ => ⟨by omega, hcontent⟩⟩
  | _, .array _ _, h, hwrap, _, hlen, hcontent =>
    SszType.Flat.reads_array_iff h.1 (h.2.2.width_eq (hwrap h.1)) hlen hcontent fun hlen hcontent =>
      SszType.Flat.reads_iff h.2.2 (hwrap h.1) hlen hcontent
  | _, .vector _, h, _, _, _, _ => h.elim
  | _, .list _ _, h, _, _, _, _ => h.elim
  | _, .bitlist _, h, _, _, _, _ => h.elim
  | _, .bitset _, _, _, _, _, _ => Iff.rfl
  | _, .container _ _, h, hwrap, _, hlen, hcontent => Members.Flat.reads_iff h.2 hwrap.2 hlen hcontent

theorem Members.Flat.reads_iff : {α : Type} → {ms : Members α} → ms.Flat → ms.NoWrap → {bytes : Bytes} →
    bytes.length = ms.fixedSize → ms.Content bytes → (ms.Reads bytes ↔ ms.Chunkable)
  | _, .nil, _, _, _, _, _ => Iff.rfl
  | _, .cons m ms, h, hwrap, bytes, hlen, hcontent => by
    change bytes.length = m.fixedSize + ms.fixedSize at hlen
    have hwidth := h.1.width_eq hwrap.1
    have hm := SszType.Flat.reads_iff h.1 hwrap.1 (by rw [List.length_take]; omega) hcontent.1
    have hms := Members.Flat.reads_iff h.2 hwrap.2 (by rw [List.length_drop]; omega) hcontent.2
    exact and_congr hm hms

end

lemma SszType.Flat.encode_array {e : SszType α} {n : Nat} (he : e.Flat) (hwidth : e.width = e.fixedSize)
    {bytes : Bytes} (hlen : bytes.length = n * e.fixedSize) (hcontent : (SszType.array e n).Content bytes)
    (ih : ∀ {p}, p.length = e.fixedSize → e.Content p → ∀ {r v}, e.deserialize p r = .ok v → e.encode v = p)
    {r v : StdArray α n} (hrun : (SszType.array e n).deserialize bytes r = .ok v) :
    (SszType.array e n).encode v = bytes := by
  rw [SszType.encode, SszType.assemble_elementParts he.regular.2.2]
  simp only [SszType.deserialize, deserializeArray] at hrun
  cases hlayout : e.basicLayout with
  | some layout =>
    cases e with
    | basic b =>
      cases hlayout
      simp only [SszType.basicLayout, deserializeBasicArray] at hrun
      split at hrun
      · cases hrun
      · have hflat : v.1.flatMap b.toBytes = bytes.take (n * b.sizeof) := (deserializeCopy_eq_ok hrun).2
        rwa [List.take_of_length_le (show bytes.length ≤ n * b.sizeof from hlen.le)] at hflat
    | _ => cases hlayout
  | none =>
    simp only [hlayout, he.regular.2.1, Bool.false_eq_true, if_false] at hrun
    obtain ⟨ws, hchunks, hrun⟩ := Outcome.bind_eq_ok.mp hrun
    cases hrun
    change (if e.width = 0 then _ else _) = _ at hchunks
    split at hchunks
    · cases hchunks
    · rename_i hpos
      change deserializeChunks e.deserialize (pieces e.width bytes) r.1 = .ok ws at hchunks
      rw [hwidth] at hpos hchunks
      have hpos' : 0 < e.fixedSize := by omega
      have hslices := fun p hp => SszType.content_of_mem_pieces hwidth hlen hcontent hpos' (p := p) hp
      have hall := deserializeChunks_eq_ok hchunks ((length_pieces_of_length hpos' hlen).trans r.2.symm)
      have helems : List.Forall₂ (fun p x => e.encode x = p ∧ True) (pieces e.fixedSize bytes) ws.1 := by
        refine ((List.forall₂_and_left _ _).mpr ⟨hslices, hall⟩).imp ?_
        rintro p x ⟨⟨hlength, hslice⟩, old, hx⟩
        exact ⟨ih hlength hslice hx, trivial⟩
      rw [List.flatMap_def, (forall₂_encode helems).1, flatten_pieces hpos']

mutual

/-- What is read from an encoding has that encoding. -/
theorem SszType.Flat.encode_eq : {α : Type} → {τ : SszType α} → τ.Flat → τ.NoWrap → {bytes : Bytes} →
    bytes.length = τ.fixedSize → τ.Content bytes → {r v : α} → τ.deserialize bytes r = .ok v →
    τ.encode v = bytes
  | _, .basic b, _, _, bytes, hlen, _, _, v, hrun => by
    change bytes.length = b.sizeof at hlen
    have htake := (BasicType.deserialize_eq_ok hrun).2
    rwa [List.take_of_length_le (by omega)] at htake
  | _, .array _ _, h, hwrap, _, hlen, hcontent, _, _, hrun =>
    h.2.2.encode_array (h.2.2.width_eq (hwrap h.1)) hlen hcontent
      (fun hlen hcontent _ _ hrun => SszType.Flat.encode_eq h.2.2 (hwrap h.1) hlen hcontent hrun) hrun
  | _, .vector _, h, _, _, _, _, _, _, _ => h.elim
  | _, .list _ _, h, _, _, _, _, _, _, _ => h.elim
  | _, .bitlist _, h, _, _, _, _, _, _, _ => h.elim
  | _, .bitset n, _, _, bytes, hlen, hcontent, _, v, hrun => by
    cases hrun
    rw [SszType.encode, deserializeBitset_eq]
    refine (eq_packBits (hlen.trans (by rw [length_unpackBits, SszType.fixedSize])) fun i => ?_).symm
    rcases Nat.lt_or_ge i n with hlt | hge
    · simp [unpackBits, List.getD_eq_getElem?_getD, hlt]
    · rw [hcontent i hge, List.getD_eq_default _ _ (by rwa [length_unpackBits])]
  | _, .container _ ms, h, hwrap, bytes, hlen, hcontent, r, v, hrun => by
    obtain ⟨⟨w, offsets⟩, hfirst, hrun⟩ := Outcome.bind_eq_ok.mp hrun
    obtain rfl := Members.Flat.offsets_nil h.2 hfirst
    cases hrun
    rw [SszType.encode, assemble_of_fixed (ms.isVariable_of_fixed h.2.regular.2 v)]
    exact Members.Flat.encode_eq h.2 hwrap.2 hlen hcontent hfirst

theorem Members.Flat.encode_eq : {α : Type} → {ms : Members α} → ms.Flat → ms.NoWrap → {bytes : Bytes} →
    bytes.length = ms.fixedSize → ms.Content bytes → {r v : α} → {offsets : List Nat} →
    ms.deserializeFixedSizeMembers bytes r = .ok (v, offsets) →
    (ms.parts v).flatMap Part.bytes = bytes
  | _, .nil, _, _, bytes, hlen, _, _, _, _, _ => (List.eq_nil_of_length_eq_zero hlen).symm
  | _, .cons m ms, h, hwrap, bytes, hlen, hcontent, (r, rs), v, offsets, hrun => by
    change bytes.length = m.fixedSize + ms.fixedSize at hlen
    have hwidth := h.1.width_eq hwrap.1
    simp only [Members.deserializeFixedSizeMembers, h.1.regular.2.1, Bool.false_eq_true, if_false,
      h.1.size_eq_width] at hrun
    obtain ⟨w, hw, hrun⟩ := Outcome.bind_eq_ok.mp hrun
    obtain ⟨⟨ws, rest⟩, hrest, hrun⟩ := Outcome.bind_eq_ok.mp hrun
    cases hrun
    have hm := SszType.Flat.encode_eq h.1 hwrap.1 (by rw [List.length_take]; omega) hcontent.1
      (Outcome.nested_eq_ok.mp hw)
    have hms := Members.Flat.encode_eq h.2 hwrap.2 (by rw [List.length_drop]; omega) hcontent.2 hrest
    rw [Members.parts, List.flatMap_cons, hm, hms, List.take_append_drop]

end

/-! ### Encodings are written back -/

mutual

theorem SszType.Flat.fits : {α : Type} → {τ : SszType α} → τ.Flat → τ.NoWrap → (v : α) →
    τ.Fits v ∧ τ.BitsAgree v
  | _, .basic _, _, _, _ => ⟨trivial, trivial⟩
  | _, .array e _, h, hwrap, v => by
    have helem := fun x => SszType.Flat.fits h.2.2 (hwrap h.1) x
    have hbits := SszType.isBitlist_of_fixed h.2.2.regular.2.2
    exact ⟨fun x _ => (helem x).1, SszType.bitsBalance_of_isBitlist hbits v.1, fun x _ => (helem x).2⟩
  | _, .vector _, h, _, _ => h.elim
  | _, .list _ _, h, _, _ => h.elim
  | _, .bitlist _, h, _, _ => h.elim
  | _, .bitset _, _, _, _ => ⟨trivial, trivial⟩
  | _, .container variableSize ms, h, hwrap, v => by
    obtain ⟨hregular, -, hfix⟩ := SszType.Flat.regular h
    have hlen := hregular.sound.length_encode hfix v
    obtain ⟨hfits, hbits⟩ := Members.Flat.fits h.2 hwrap.2 v
    exact ⟨⟨hlen.trans_lt hwrap.1, hfits⟩, hbits⟩

theorem Members.Flat.fits : {α : Type} → {ms : Members α} → ms.Flat → ms.NoWrap → (v : α) →
    ms.Fits v ∧ ms.BitsAgree v
  | _, .nil, _, _, _ => ⟨trivial, trivial⟩
  | _, .cons _ _, h, hwrap, (v, vs) =>
    have ⟨hfit, hbits⟩ := SszType.Flat.fits h.1 hwrap.1 v
    have ⟨hfits, hbitss⟩ := Members.Flat.fits h.2 hwrap.2 vs
    ⟨⟨hfit, hfits⟩, hbits, hbitss⟩

end

/-- The decoder returns on the encodings of the type alone, where `serialize` gives the bytes back, and
throws on all other inputs. -/
def DecodesExactly (τ : SszType α) (bytes : Bytes) : Prop :=
  (IsEncoding τ bytes → ∃ v, τ.deserializeNew bytes = .ok v ∧ τ.serialize v = .ok bytes) ∧
    (¬ IsEncoding τ bytes → ∃ e, τ.deserializeNew bytes = .error (.thrown e))

lemma SszType.Flat.serialize_decoded {τ : SszType α} (h : τ.Flat) (hwrap : τ.NoWrap) {bytes : Bytes}
    (hbytes : IsEncoding τ bytes) {v : α} (hrun : τ.deserializeNew bytes = .ok v) :
    τ.serialize v = .ok bytes := by
  have hlen := hbytes.1.trans (h.width_eq hwrap)
  obtain ⟨hfit, hbits⟩ := h.fits hwrap v
  rw [h.regular.1.serialize_eq v hfit hbits, h.encode_eq hwrap hlen hbytes.2 hrun]

/-- The inputs that a fixed-size type decodes as it should: encodings, unless a container of the type
has `2 ^ 32` bytes or more or an array has elements without bytes, and the inputs that it rejects. -/
theorem decodesExactly_iff (τ : SszType α) (h : τ.Flat) (bytes : Bytes) :
    DecodesExactly τ bytes ↔
      IsEncoding τ bytes ∧ τ.NoWrap ∧ τ.Chunkable ∨ ¬ IsEncoding τ bytes ∧ τ.Rejects bytes := by
  have hfollows : Follows (τ.deserializeNew bytes) (τ.Reads bytes) (τ.Rejects bytes) :=
    h.follows bytes τ.vac
  obtain ⟨hdeclared, hfix⟩ := h.declared
  by_cases hbytes : IsEncoding τ bytes
  · constructor
    · intro hexact
      obtain ⟨v, hrun, hserialize⟩ := hexact.1 hbytes
      have hwrap : τ.NoWrap := by
        by_contra hwrap
        have hreach := (SszType.serialize_returns_iff.mp ⟨bytes, hserialize, hbytes.1⟩).2
        have hoverruns := (hdeclared.overruns hfix hwrap v).2
        omega
      have hreads := hfollows.reads_iff.mp ⟨v, hrun⟩
      have hlen := hbytes.1.trans (h.width_eq hwrap)
      exact .inl ⟨hbytes, hwrap, (h.reads_iff hwrap hlen hbytes.2).mp hreads⟩
    · rintro (⟨-, hwrap, hchunkable⟩ | ⟨hnot, -⟩)
      · have hlen := hbytes.1.trans (h.width_eq hwrap)
        obtain ⟨v, hrun⟩ := hfollows.reads_iff.mpr ((h.reads_iff hwrap hlen hbytes.2).mpr hchunkable)
        exact ⟨fun _ => ⟨v, hrun, h.serialize_decoded hwrap hbytes hrun⟩, fun hnot => absurd hbytes hnot⟩
      · exact absurd hbytes hnot
  · constructor
    · exact fun hexact => .inr ⟨hbytes, hfollows.rejects_iff.mp (hexact.2 hbytes)⟩
    · rintro (⟨hencoding, -⟩ | ⟨-, hrejects⟩)
      · exact absurd hencoding hbytes
      · exact ⟨fun hencoding => absurd hencoding hbytes, fun _ => hfollows.rejects_iff.mpr hrejects⟩

/-- A number, an array of two `bool` and a bitset. -/
def flatSample : SszType (BitVec 8 × StdArray Bool 2 × StdArray Bool 4 × Unit) :=
  .container false (.cons (.basic .uint8) (.cons (.array (.basic .boolean) 2) (.cons (.bitset 4) .nil)))

lemma content_flatSample : flatSample.Content [7, 0, 1, 9] := by
  refine ⟨nofun, ?_, fun i hi => ?_, trivial⟩
  · intro i hi hboolean x hx
    have hcases : i = 0 ∨ i = 1 := by omega
    rcases hcases with rfl | rfl
    · exact .inl (List.mem_singleton.mp hx)
    · exact .inr (List.mem_singleton.mp hx)
  · change bitAt (packBits [true, false, false, true]) i = false
    rw [bitAt_packBits]
    exact List.getD_eq_default _ _ hi

/-- An encoding, and one that lacks the byte of its bitset, whose decoder never misses it. -/
theorem decodesExactly_iff_sample :
    DecodesExactly flatSample [7, 0, 1, 9] ∧ ¬ DecodesExactly flatSample [7, 0, 1] := by
  have hflat : flatSample.Flat := ⟨rfl, trivial, ⟨by decide, rfl, trivial⟩, trivial, trivial⟩
  constructor
  · exact (decodesExactly_iff flatSample hflat [7, 0, 1, 9]).mpr (.inl ⟨⟨rfl, content_flatSample⟩,
      ⟨by decide, trivial, fun _ => trivial, trivial, trivial⟩, trivial, ⟨by decide, trivial⟩, trivial, trivial⟩)
  · rw [decodesExactly_iff flatSample hflat [7, 0, 1]]
    rintro (⟨⟨hlen, -⟩, -⟩ | ⟨-, hrejects⟩)
    · exact absurd hlen (by decide)
    · rcases hrejects with (hshort | hcontent) | ⟨-, hshort | ⟨-, hbitset | ⟨-, hnil⟩⟩⟩
      · exact absurd hshort (by decide)
      · exact hcontent nofun
      · have hlt : 2 < 2 := hshort
        exact absurd hlt (by decide)
      · exact hbitset
      · exact hnil

/-- A scalar with a byte too many, a bitvector with a padding bit, a `bool` in an array that is neither
0 nor 1, and a chunk too many. -/
theorem fixedSize_misread :
    (SszType.basic .uint8).deserializeNew [1, 2] = .ok (1 : BitVec 8) ∧
      (SszType.bitset 4).deserializeNew [0xff] = .ok ⟨[true, true, true, true], rfl⟩ ∧
      (SszType.array (.basic .boolean) 1).deserializeNew [2] = .error (.undefined .boolValue) ∧
      (SszType.array (.array (.basic .uint8) 1) 1).deserializeNew [1, 2] =
        .error (.undefined .elementWrite) ∧
      ¬ DecodesExactly (SszType.basic .uint8) [1, 2] := by
  have hscalar : (SszType.basic .uint8).deserializeNew [1, 2] = .ok (1 : BitVec 8) := rfl
  refine ⟨hscalar, by decide, rfl, rfl, fun hexact => ?_⟩
  have hlong : ¬ IsEncoding (SszType.basic .uint8) [1, 2] := fun hbytes => absurd hbytes.1 (by decide)
  obtain ⟨e, he⟩ := hexact.2 hlong
  cases hscalar.symm.trans he

end Sszpp
