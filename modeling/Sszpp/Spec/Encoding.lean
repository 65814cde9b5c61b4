import Sszpp.Library.BitPacking
import Sszpp.Library.OffsetLayout
import Sszpp.Model.Container

/-!
# The reference encoding

The encoding of a value by recursion on its type, and the classes of types and values that the
results about the codec are about.
-/

namespace Sszpp

open Library

mutual

/-- Whether two values of the type may have encodings of different lengths. -/
def SszType.isVariableSize {α : Type} : SszType α → Bool
  | .basic _ => false
  | .array e _ => e.isVariableSize
  | .vector e => e.isVariableSize
  | .list _ _ => true
  | .bitlist _ => true
  | .bitset _ => false
  | .container _ ms => ms.hasVariableSize

def Members.hasVariableSize {α : Type} : Members α → Bool
  | .nil => false
  | .cons m ms => m.isVariableSize || ms.hasVariableSize

end

mutual

/-- The encoding of a value. The last bit of an encoded bitlist marks its end. -/
def SszType.encode {α : Type} : SszType α → α → Bytes
  | .basic b, v => b.toBytes v
  | .array e _, v => assemble (v.1.map fun x => ⟨e.isVariableSize, e.encode x⟩)
  | .vector e, v => assemble (v.map fun x => ⟨e.isVariableSize, e.encode x⟩)
  | .list e _, v => assemble (v.map fun x => ⟨e.isVariableSize, e.encode x⟩)
  | .bitlist _, v => packBits (v ++ [true])
  | .bitset _, v => packBits v.1
  | .container _ ms, v => assemble (ms.parts v)

def Members.parts {α : Type} : Members α → α → List Part
  | .nil, _ => []
  | .cons m ms, (v, vs) => ⟨m.isVariableSize, m.encode v⟩ :: ms.parts vs

end

/-- The parts of a sequence of elements. -/
abbrev SszType.elementParts {α : Type} (e : SszType α) (vs : List α) : List Part :=
  vs.map fun x => ⟨e.isVariableSize, e.encode x⟩

mutual

/-- The length of the encodings of a type whose encodings have one length. -/
def SszType.fixedSize {α : Type} : SszType α → Nat
  | .basic b => b.sizeof
  | .array e n => n * e.fixedSize
  | .vector _ => 0
  | .list _ _ => 0
  | .bitlist _ => 0
  | .bitset n => (n + 7) / 8
  | .container _ ms => ms.fixedSize

def Members.fixedSize {α : Type} : Members α → Nat
  | .nil => 0
  | .cons m ms => m.fixedSize + ms.fixedSize

end

/-! ### Classes of types -/

def SszType.isBitlist {α : Type} : SszType α → Bool
  | .bitlist _ => true
  | _ => false

def SszType.isBitset {α : Type} : SszType α → Bool
  | .bitset _ => true
  | _ => false

def SszType.isBool {α : Type} : SszType α → Bool
  | .basic .boolean => true
  | _ => false

/-- `ssz::size` of a value-initialised object. -/
def SszType.width {α : Type} (τ : SszType α) : Nat := τ.size true τ.vac

/-- The offsets in the fixed part of a container, read from its encoding. -/
def Members.offsetWords {α : Type} : Members α → Bytes → List Nat
  | .nil, _ => []
  | .cons m ms, shifted =>
    if m.isVariableSize then leNat (shifted.take 4) :: ms.offsetWords (shifted.drop 4)
    else ms.offsetWords (shifted.drop m.width)

/-- The offsets of a list of variable-size elements: the first one tells how many there are. -/
def elementWords (bytes : Bytes) : List Nat := words (leNat (bytes.take 4) / 4) bytes

mutual

/-- The types whose containers derive from the base class that their members require; arrays have
elements of fixed size. -/
def SszType.WellFormed {α : Type} : SszType α → Prop
  | .basic _ => True
  | .array e _ => e.isVariableSize = false ∧ e.WellFormed
  | .vector _ => False
  | .list e _ => e.WellFormed
  | .bitlist _ => True
  | .bitset _ => True
  | .container variableSize ms => variableSize = ms.hasVariableSize ∧ ms.WellFormed

def Members.WellFormed {α : Type} : Members α → Prop
  | .nil => True
  | .cons m ms => m.WellFormed ∧ ms.WellFormed

end

mutual

/-- The types with an encoder: `size` has no overload for ranges of bitsets, `ssz::list<bool, N>`
is the bitlist, and a container derives from the base class that its members require. -/
def SszType.Encodable {α : Type} : SszType α → Prop
  | .basic _ => True
  | .array e n => 0 < n ∧ e.isVariableSize = false ∧ e.isBitset = false ∧ e.Encodable
  | .vector _ => False
  | .list e _ => e.isBool = false ∧ e.isBitset = false ∧ e.isBitlist = false ∧ e.Encodable
  | .bitlist _ => True
  | .bitset _ => True
  | .container variableSize ms =>
    2 ≤ ms.count ∧ variableSize = ms.hasVariableSize ∧ ms.Encodable

def Members.Encodable {α : Type} : Members α → Prop
  | .nil => True
  | .cons m ms => m.Encodable ∧ ms.Encodable

end

mutual

/-- The types whose elements and members are declared of variable size when their encodings are. -/
def SszType.Sound {α : Type} : SszType α → Prop
  | .basic _ => True
  | .array e _ => e.variableSize = e.isVariableSize ∧ e.Sound
  | .vector _ => False
  | .list e _ => e.variableSize = e.isVariableSize ∧ e.Sound
  | .bitlist _ => True
  | .bitset _ => True
  | .container _ ms => ms.Sound

def Members.Sound {α : Type} : Members α → Prop
  | .nil => True
  | .cons m ms => m.variableSize = m.isVariableSize ∧ m.Sound ∧ ms.Sound

end

mutual

/-- The sound types whose offsets are all written: array elements are of fixed size, and so is the
member of a container that has only one. -/
def SszType.Regular {α : Type} : SszType α → Prop
  | .basic _ => True
  | .array e _ => e.isVariableSize = false ∧ e.variableSize = false ∧ e.Regular
  | .vector _ => False
  | .list e _ => e.variableSize = e.isVariableSize ∧ e.Regular
  | .bitlist _ => True
  | .bitset _ => True
  | .container _ ms => (ms.count = 1 → ms.hasVariableSize = false) ∧ ms.Regular

def Members.Regular {α : Type} : Members α → Prop
  | .nil => True
  | .cons m ms => m.variableSize = m.isVariableSize ∧ m.Regular ∧ ms.Regular

end

mutual

/-- The encodable types whose decoders invert the encoder. Bitlists are not among them; `ssz::size`
of a fixed-size list element is the divisor of the decoder and has to be positive. -/
def SszType.Decodable {α : Type} : SszType α → Prop
  | .basic _ => True
  | .array e n => 0 < n ∧ e.isVariableSize = false ∧ e.isBitset = false ∧ e.Decodable
  | .vector _ => False
  | .list e _ =>
    e.isBool = false ∧ e.isBitset = false ∧ e.Decodable ∧ (e.isVariableSize = false → 0 < e.width)
  | .bitlist _ => False
  | .bitset n => 0 < n
  | .container variableSize ms =>
    2 ≤ ms.count ∧ variableSize = ms.hasVariableSize ∧ ms.Decodable

def Members.Decodable {α : Type} : Members α → Prop
  | .nil => True
  | .cons m ms => m.Decodable ∧ ms.Decodable

end

mutual

/-- The types built from integers, arrays of them, lists and containers. -/
def SszType.Plain {α : Type} : SszType α → Prop
  | .basic _ => True
  | .array e n => 0 < n ∧ e.basicLayout.isSome
  | .vector _ => False
  | .list e _ => e.isBool = false ∧ e.Plain
  | .bitlist _ => False
  | .bitset _ => False
  | .container variableSize ms => 2 ≤ ms.count ∧ variableSize = ms.hasVariableSize ∧ ms.Plain

def Members.Plain {α : Type} : Members α → Prop
  | .nil => True
  | .cons m ms => m.Plain ∧ ms.Plain

end

mutual

/-- The values all of whose offsets and container lengths are below `2 ^ 32`. -/
def SszType.Fits {α : Type} : SszType α → α → Prop
  | .basic _, _ => True
  | .array e _, v => ∀ x ∈ v.1, e.Fits x
  | .vector _, _ => True
  | .list e _, v =>
    (∀ x ∈ v, e.Fits x) ∧ ∀ o ∈ offsets (fixedLength (e.elementParts v)) (e.elementParts v), o < 2 ^ 32
  | .bitlist _, _ => True
  | .bitset _, _ => True
  | .container _ ms, v => (assemble (ms.parts v)).length < 2 ^ 32 ∧ ms.Fits v

def Members.Fits {α : Type} : Members α → α → Prop
  | .nil, _ => True
  | .cons m ms, (v, vs) => m.Fits v ∧ ms.Fits vs

end

/-- The number of bits of a bitlist. -/
def SszType.bitCount {α : Type} : SszType α → α → Nat
  | .bitlist _, v => v.length
  | _, _ => 0

/-- The number of bytes of a bitlist. -/
def SszType.bitBytes {α : Type} : SszType α → α → Nat
  | .bitlist _, v => v.length / 8 + 1
  | _, _ => 0

/-- The bitlists in a range have as many bits as bytes. -/
def SszType.BitsBalance {α : Type} (e : SszType α) (vs : List α) : Prop :=
  (vs.map e.bitCount).sum = (vs.map e.bitBytes).sum

mutual

/-- The values in which each range of bitlists has as many bits as bytes. -/
def SszType.BitsAgree {α : Type} : SszType α → α → Prop
  | .basic _, _ => True
  | .array e _, v => e.BitsBalance v.1 ∧ ∀ x ∈ v.1, e.BitsAgree x
  | .vector e, v => e.BitsBalance v ∧ ∀ x ∈ v, e.BitsAgree x
  | .list e _, v => e.BitsBalance v ∧ ∀ x ∈ v, e.BitsAgree x
  | .bitlist _, _ => True
  | .bitset _, _ => True
  | .container _ ms, v => ms.BitsAgree v

def Members.BitsAgree {α : Type} : Members α → α → Prop
  | .nil, _ => True
  | .cons m ms, (v, vs) => m.BitsAgree v ∧ ms.BitsAgree vs

end

mutual

/-- No list is longer than the limit of its type. -/
def SszType.WithinLimits {α : Type} : SszType α → α → Prop
  | .basic _, _ => True
  | .array e _, v => ∀ x ∈ v.1, e.WithinLimits x
  | .vector e, v => ∀ x ∈ v, e.WithinLimits x
  | .list e limit, v => v.length ≤ limit ∧ ∀ x ∈ v, e.WithinLimits x
  | .bitlist limit, v => v.length ≤ limit
  | .bitset _, _ => True
  | .container _ ms, v => ms.WithinLimits v

def Members.WithinLimits {α : Type} : Members α → α → Prop
  | .nil, _ => True
  | .cons m ms, (v, vs) => m.WithinLimits v ∧ ms.WithinLimits vs

end

/-! ### Relations between the classes -/

variable {α : Type}

mutual

theorem SszType.Encodable.wellFormed : {α : Type} → {τ : SszType α} → τ.Encodable → τ.WellFormed
  | _, .basic _, _ => trivial
  | _, .array _ _, h => ⟨h.2.1, SszType.Encodable.wellFormed h.2.2.2⟩
  | _, .vector _, h => h.elim
  | _, .list _ _, h =>
    have he := SszType.Encodable.wellFormed h.2.2.2
    he
  | _, .bitlist _, _ => trivial
  | _, .bitset _, _ => trivial
  | _, .container _ _, h => ⟨h.2.1, Members.Encodable.wellFormed h.2.2⟩

theorem Members.Encodable.wellFormed : {α : Type} → {ms : Members α} → ms.Encodable → ms.WellFormed
  | _, .nil, _ => trivial
  | _, .cons _ _, h => ⟨SszType.Encodable.wellFormed h.1, Members.Encodable.wellFormed h.2⟩

end

mutual

theorem SszType.Decodable.encodable : {α : Type} → {τ : SszType α} → τ.Decodable → τ.Encodable
  | _, .basic _, _ => trivial
  | _, .array _ _, h => ⟨h.1, h.2.1, h.2.2.1, SszType.Decodable.encodable h.2.2.2⟩
  | _, .vector _, h => h.elim
  | _, .list e _, h => by
    refine ⟨h.1, h.2.1, ?_, SszType.Decodable.encodable h.2.2.1⟩
    cases e with
    | bitlist limit => exact h.2.2.1.elim
    | _ => rfl
  | _, .bitlist _, h => h.elim
  | _, .bitset _, _ => trivial
  | _, .container _ _, h => ⟨h.1, h.2.1, Members.Decodable.encodable h.2.2⟩

theorem Members.Decodable.encodable : {α : Type} → {ms : Members α} → ms.Decodable → ms.Encodable
  | _, .nil, _ => trivial
  | _, .cons _ _, h => ⟨SszType.Decodable.encodable h.1, Members.Decodable.encodable h.2⟩

end

mutual

theorem SszType.Plain.encodable : {α : Type} → {τ : SszType α} → τ.Plain → τ.Encodable
  | _, .basic _, _ => trivial
  | _, .array e _, h => by
    cases e with
    | basic b => exact ⟨h.1, rfl, rfl, trivial⟩
    | _ => exact absurd h.2 (by simp [SszType.basicLayout])
  | _, .vector _, h => h.elim
  | _, .list e _, h => by
    refine ⟨h.1, ?_, ?_, SszType.Plain.encodable h.2⟩
    · cases e with
      | bitset n => exact h.2.elim
      | _ => rfl
    · cases e with
      | bitlist limit => exact h.2.elim
      | _ => rfl
  | _, .bitlist _, h => h.elim
  | _, .bitset _, h => h.elim
  | _, .container _ _, h => ⟨h.1, h.2.1, Members.Plain.encodable h.2.2⟩

theorem Members.Plain.encodable : {α : Type} → {ms : Members α} → ms.Plain → ms.Encodable
  | _, .nil, _ => trivial
  | _, .cons _ _, h => ⟨SszType.Plain.encodable h.1, Members.Plain.encodable h.2⟩

end

/-- The classification by a nested type `variable_size` is that of the encoding. -/
lemma SszType.WellFormed.variableSize_eq {τ : SszType α} (h : τ.WellFormed) :
    τ.variableSize = τ.isVariableSize := by
  cases τ with
  | array e n => exact h.1.symm
  | vector e => exact h.elim
  | container variableSize ms => exact h.1
  | _ => rfl

lemma SszType.Encodable.variableSize_eq {τ : SszType α} (h : τ.Encodable) :
    τ.variableSize = τ.isVariableSize := h.wellFormed.variableSize_eq

mutual

theorem SszType.Encodable.regular : {α : Type} → {τ : SszType α} → τ.Encodable → τ.Regular
  | _, .basic _, _ => trivial
  | _, .array _ _, h =>
    have he := h.2.2.2
    ⟨h.2.1, he.variableSize_eq.trans h.2.1, SszType.Encodable.regular he⟩
  | _, .vector _, h => h.elim
  | _, .list _ _, h => ⟨h.2.2.2.variableSize_eq, SszType.Encodable.regular h.2.2.2⟩
  | _, .bitlist _, _ => trivial
  | _, .bitset _, _ => trivial
  | _, .container _ _, h => ⟨fun hcount => absurd h.1 (by omega), Members.Encodable.regular h.2.2⟩

theorem Members.Encodable.regular : {α : Type} → {ms : Members α} → ms.Encodable → ms.Regular
  | _, .nil, _ => trivial
  | _, .cons _ _, h =>
    ⟨h.1.variableSize_eq, SszType.Encodable.regular h.1, Members.Encodable.regular h.2⟩

end

mutual

theorem SszType.Regular.sound : {α : Type} → {τ : SszType α} → τ.Regular → τ.Sound
  | _, .basic _, _ => trivial
  | _, .array _ _, h => ⟨h.2.1.trans h.1.symm, SszType.Regular.sound h.2.2⟩
  | _, .vector _, h => h.elim
  | _, .list _ _, h => ⟨h.1, SszType.Regular.sound h.2⟩
  | _, .bitlist _, _ => trivial
  | _, .bitset _, _ => trivial
  | _, .container _ _, h => Members.Regular.sound h.2

theorem Members.Regular.sound : {α : Type} → {ms : Members α} → ms.Regular → ms.Sound
  | _, .nil, _ => trivial
  | _, .cons _ _, h => ⟨h.1, SszType.Regular.sound h.2.1, Members.Regular.sound h.2.2⟩

end

/-- Only bitlists have bits to count. -/
lemma SszType.bitsBalance_of_isBitlist {e : SszType α} (h : e.isBitlist = false) (vs : List α) :
    e.BitsBalance vs := by
  cases e with
  | bitlist limit => cases h
  | _ => rfl

mutual

theorem SszType.Encodable.bitsAgree : {α : Type} → {τ : SszType α} → τ.Encodable → (v : α) →
    τ.BitsAgree v
  | _, .basic _, _, _ => trivial
  | _, .array e _, h, v => by
    refine ⟨SszType.bitsBalance_of_isBitlist ?_ v.1, fun x _ => SszType.Encodable.bitsAgree h.2.2.2 x⟩
    cases e with
    | bitlist limit => cases h.2.1
    | _ => rfl
  | _, .vector _, h, _ => h.elim
  | _, .list _ _, h, v =>
    ⟨SszType.bitsBalance_of_isBitlist h.2.2.1 v, fun x _ => SszType.Encodable.bitsAgree h.2.2.2 x⟩
  | _, .bitlist _, _, _ => trivial
  | _, .bitset _, _, _ => trivial
  | _, .container _ _, h, v => Members.Encodable.bitsAgree h.2.2 v

theorem Members.Encodable.bitsAgree : {α : Type} → {ms : Members α} → ms.Encodable → (v : α) →
    ms.BitsAgree v
  | _, .nil, _, _ => trivial
  | _, .cons _ _, h, (v, vs) => ⟨SszType.Encodable.bitsAgree h.1 v, Members.Encodable.bitsAgree h.2 vs⟩

end

/-! ### The size of a fixed-size object does not depend on its value -/

/-- `compute_total_length` is a `std::uint32_t`. -/
lemma Members.computeTotalLength_lt (ms : Members α) (v : α) : ms.computeTotalLength v < 2 ^ 32 := by
  cases ms with
  | nil => exact Nat.two_pow_pos 32
  | cons m ms => exact Nat.mod_lt _ (Nat.two_pow_pos 32)

lemma SszType.size_early {τ : SszType α} (h : τ.isBitlist = false) (v : α) :
    τ.size false v = τ.size true v := by
  cases τ with
  | bitlist limit => cases h
  | _ => rfl

lemma SszType.basicLayout_of_variable {τ : SszType α} (h : τ.isVariableSize = true) :
    τ.basicLayout = none := by
  cases τ with
  | basic b => cases h
  | _ => rfl

lemma SszType.width_of_basicLayout {τ : SszType α} {layout : BasicLayout α}
    (h : τ.basicLayout = some layout) : τ.width = layout.sizeof := by
  cases τ with
  | basic b =>
    cases h
    rfl
  | _ => cases h

lemma SszType.isBitlist_of_fixed {τ : SszType α} (h : τ.isVariableSize = false) :
    τ.isBitlist = false := by
  cases τ with
  | bitlist limit => cases h
  | _ => rfl

lemma sizeOfFixed_eq {size : α → Nat} {k : Nat} (vs : List α) (h : ∀ v ∈ vs, size v = k) :
    sizeOfFixed size vs = vs.length * k := by
  cases vs with
  | nil => simp [sizeOfFixed]
  | cons v vs => rw [sizeOfFixed, h v (by simp), List.length_cons]

mutual

theorem SszType.size_eq_width : {α : Type} → (τ : SszType α) → τ.WellFormed →
    τ.isVariableSize = false → (v : α) → τ.size true v = τ.width
  | _, .basic _, _, _, _ => rfl
  | _, .array e n, h, hfix, v => by
    have hconst : ∀ x, e.size false x = e.width := by
      intro x
      rw [SszType.size_early (SszType.isBitlist_of_fixed h.1)]
      exact e.size_eq_width h.2 h.1 x
    simp only [SszType.width, SszType.size, sizeOfRange, h.2.variableSize_eq, h.1,
      Bool.false_eq_true, if_false]
    rw [sizeOfFixed_eq v.1 fun x _ => hconst x, sizeOfFixed_eq _ fun x _ => hconst x, v.2,
      (SszType.array e n).vac.2]
  | _, .vector _, h, _, _ => h.elim
  | _, .list _ _, _, hfix, _ => by cases hfix
  | _, .bitlist _, _, hfix, _ => by cases hfix
  | _, .bitset _, _, _, _ => rfl
  | _, .container _ ms, h, hfix, v => ms.computeTotalLength_eq_vac h.2 hfix v

theorem Members.computeTotalLength_eq_vac : {α : Type} → (ms : Members α) → ms.WellFormed →
    ms.hasVariableSize = false → (v : α) → ms.computeTotalLength v = ms.computeTotalLength ms.vac
  | _, .nil, _, _, _ => rfl
  | _, .cons m ms, h, hfix, (v, vs) => by
    rw [Members.hasVariableSize, Bool.or_eq_false_iff] at hfix
    simp only [Members.computeTotalLength, Members.vac, m.size_eq_width h.1 hfix.1,
      ms.computeTotalLength_eq_vac h.2 hfix.2 vs]

end

/-- The element size that the overloads for ranges see. -/
lemma SszType.size_early_eq_width {τ : SszType α} (h : τ.WellFormed) (hfix : τ.isVariableSize = false)
    (v : α) : τ.size false v = τ.width := by
  rw [size_early (isBitlist_of_fixed hfix), τ.size_eq_width h hfix]

lemma SszType.width_array {e : SszType α} {n : Nat} (h : (SszType.array e n).WellFormed) :
    (SszType.array e n).width = n * e.width := by
  rw [width, size, h.2.variableSize_eq, h.1, sizeOfRange, if_neg Bool.false_ne_true,
    sizeOfFixed_eq _ fun x _ => size_early_eq_width h.2 h.1 x, (SszType.array e n).vac.2]

lemma Members.fixedSize_cons_lt {β : Type} {m : SszType α} {ms : Members β} {n : Nat}
    (h : (Members.cons m ms).fixedSize < n) : m.fixedSize < n ∧ ms.fixedSize < n := by
  rw [Members.fixedSize] at h
  omega

mutual

/-- Below `2 ^ 32` nothing wraps in the size that the decoders cut with. -/
theorem SszType.width_eq_fixedSize : {α : Type} → (τ : SszType α) → τ.WellFormed →
    τ.isVariableSize = false → τ.fixedSize < 2 ^ 32 → τ.width = τ.fixedSize
  | _, .basic _, _, _, _ => rfl
  | _, .array e n, hwf, _, hlt => by
    rw [SszType.width_array hwf, SszType.fixedSize]
    rcases Nat.eq_zero_or_pos n with rfl | hn
    · rw [Nat.zero_mul, Nat.zero_mul]
    · have hle : e.fixedSize ≤ n * e.fixedSize := Nat.le_mul_of_pos_left _ hn
      rw [SszType.width_eq_fixedSize e hwf.2 hwf.1 (Nat.lt_of_le_of_lt hle hlt)]
  | _, .vector _, hwf, _, _ => hwf.elim
  | _, .list _ _, _, hfix, _ => by cases hfix
  | _, .bitlist _, _, hfix, _ => by cases hfix
  | _, .bitset _, _, _, _ => rfl
  | _, .container _ ms, hwf, hfix, hlt => Members.computeTotalLength_eq_fixedSize ms hwf.2 hfix hlt

theorem Members.computeTotalLength_eq_fixedSize : {α : Type} → (ms : Members α) → ms.WellFormed →
    ms.hasVariableSize = false → ms.fixedSize < 2 ^ 32 → ms.computeTotalLength ms.vac = ms.fixedSize
  | _, .nil, _, _, _ => rfl
  | _, .cons m ms, hwf, hfix, hlt => by
    rw [Members.hasVariableSize, Bool.or_eq_false_iff] at hfix
    obtain ⟨hm, hms⟩ := Members.fixedSize_cons_lt hlt
    have hwidth : m.size true m.vac = m.fixedSize := SszType.width_eq_fixedSize m hwf.1 hfix.1 hm
    have htotal := Members.computeTotalLength_eq_fixedSize ms hwf.2 hfix.2 hms
    rw [Members.fixedSize] at hlt
    simp only [Members.vac, Members.computeTotalLength, sizePlusPlaceholder, hwf.1.variableSize_eq, hfix.1,
      Bool.false_eq_true, if_false, Members.fixedSize, hwidth, htotal]
    omega

end

end Sszpp
