import Sszpp.Model.Beacon
import Sszpp.Proofs.Limits
import Sszpp.Proofs.Sizes

/-!
# Lengths of containers and 32-bit arithmetic

`compute_total_length` is a `std::uint32_t`: the buffer of a container is shorter than `2 ^ 32` bytes,
whatever its members. No encoder looks at the length of what it writes. Where types are declared as they
are encoded, the only other sizes that are wrong are those of bitlists in ranges.
-/

namespace Sszpp

open Library

variable {α : Type}

/-- Either `ssz_size` is the length of the reference encoding and `serialize` returns it, every offset
at the position of its part, or `serialize` throws; and nothing is written beyond the buffer. -/
def NoSilentWrap (τ : SszType α) (v : α) : Prop :=
  ((τ.size true v = (τ.encode v).length ∧ τ.serialize v = .ok (τ.encode v)) ∨
      ∃ e, τ.serialize v = .error (.thrown e)) ∧
    τ.serialize v ≠ .error (.undefined .write)

lemma NoSilentWrap.size_eq {τ : SszType α} {v : α} (h : NoSilentWrap τ v) :
    τ.size true v = (τ.encode v).length := by
  obtain ⟨⟨hsize, -⟩ | ⟨e, hthrow⟩, -⟩ := h
  · exact hsize
  · exact absurd hthrow (SszType.serialize_ne_thrown _ v e)

/-- Whatever its declarations, the size of a container is a number below `2 ^ 32`. -/
lemma NoSilentWrap.length_lt {variableSize : Bool} {ms : Members α} {v : α}
    (h : NoSilentWrap (.container variableSize ms) v) :
    ((SszType.container variableSize ms).encode v).length < 2 ^ 32 := by
  rw [← h.size_eq]
  exact ms.computeTotalLength_lt v

lemma noSilentWrap_of_length_lt {τ : SszType α} (h : τ.Regular) {v : α} (hbits : τ.BitsAgree v)
    (hlen : (τ.encode v).length < 2 ^ 32) : NoSilentWrap τ v := by
  have hfit := τ.fits_of_length v hlen
  have hrun := h.serialize_eq v hfit hbits
  refine ⟨.inl ⟨h.sound.size_eq v hfit hbits, hrun⟩, ?_⟩
  rw [hrun]
  exact nofun

/-! ### The objects inside -/

mutual

/-- No length and no offset of the value or of an object in it wraps. -/
def SszType.NeverWraps {α : Type} : SszType α → α → Prop
  | .basic b, v => NoSilentWrap (.basic b) v
  | .array e n, v => NoSilentWrap (.array e n) v ∧ ∀ x ∈ v.1, e.NeverWraps x
  | .vector e, v => NoSilentWrap (.vector e) v ∧ ∀ x ∈ v, e.NeverWraps x
  | .list e limit, v => NoSilentWrap (.list e limit) v ∧ ∀ x ∈ v, e.NeverWraps x
  | .bitlist limit, v => NoSilentWrap (.bitlist limit) v
  | .bitset n, v => NoSilentWrap (.bitset n) v
  | .container variableSize ms, v => NoSilentWrap (.container variableSize ms) v ∧ ms.NeverWraps v

def Members.NeverWraps {α : Type} : Members α → α → Prop
  | .nil, _ => True
  | .cons m ms, (v, vs) => m.NeverWraps v ∧ ms.NeverWraps vs

end

/-- The size of a range that is right for its elements and right for the range. -/
lemma SszType.bitsBalance_of_sizeOfRange {e : SszType α} (h : e.Sound) (hvar : e.variableSize = e.isVariableSize)
    {vs : List α} (hbits : ∀ x ∈ vs, e.BitsAgree x) (hlen : (assemble (e.elementParts vs)).length < 2 ^ 32)
    (hsize : sizeOfRange e.variableSize (e.size false) vs = (assemble (e.elementParts vs)).length) :
    e.BitsBalance vs := by
  have hlayout : e.elementsLength vs = (assemble (e.elementParts vs)).length :=
    SszType.elementsLength_eq hvar fun x _ => h.layoutLength_eq x
  rw [← hlayout] at hlen hsize
  have hone := h.oneLength hvar vs
  have hsizes := SszType.size_eq_of_mem (fun x _ => h.uniform x) hbits hlen
  exact SszType.bitsBalance_of_size hone hsizes hlen
    ((SszType.rangeBuffer_layout hone hsizes hlen).trans hsize.symm)

mutual

/-- Sizes that are right at every depth leave the bitlists of every range balanced. -/
theorem SszType.Regular.bitsAgree_of_neverWraps : {α : Type} → {τ : SszType α} → τ.Regular → {v : α} →
    (τ.encode v).length < 2 ^ 32 → τ.NeverWraps v → τ.BitsAgree v
  | _, .basic _, _, _, _, _ => trivial
  | _, .array _ _, h, _, hlen, hwrap => by
    have hbits := fun x hx => SszType.Regular.bitsAgree_of_neverWraps h.2.2
      ((length_encode_le_of_mem hx).trans_lt hlen) (hwrap.2 x hx)
    exact ⟨SszType.bitsBalance_of_sizeOfRange h.2.2.sound (h.2.1.trans h.1.symm) hbits hlen hwrap.1.size_eq, hbits⟩
  | _, .vector _, h, _, _, _ => h.elim
  | _, .list _ _, h, _, hlen, hwrap => by
    have hbits := fun x hx => SszType.Regular.bitsAgree_of_neverWraps h.2
      ((length_encode_le_of_mem hx).trans_lt hlen) (hwrap.2 x hx)
    exact ⟨SszType.bitsBalance_of_sizeOfRange h.2.sound h.1 hbits hlen hwrap.1.size_eq, hbits⟩
  | _, .bitlist _, _, _, _, _ => trivial
  | _, .bitset _, _, _, _, _ => trivial
  | _, .container _ _, h, _, hlen, hwrap =>
    Members.Regular.bitsAgree_of_neverWraps h.2 (fun _ hp => (length_bytes_le_assemble hp).trans_lt hlen) hwrap.2

theorem Members.Regular.bitsAgree_of_neverWraps : {α : Type} → {ms : Members α} → ms.Regular → {v : α} →
    (∀ p ∈ ms.parts v, p.bytes.length < 2 ^ 32) → ms.NeverWraps v → ms.BitsAgree v
  | _, .nil, _, _, _, _ => trivial
  | _, .cons m ms, h, (v, vs), hlen, hwrap => by
    rw [Members.parts, List.forall_mem_cons] at hlen
    exact ⟨SszType.Regular.bitsAgree_of_neverWraps h.2.1 hlen.1 hwrap.1,
      Members.Regular.bitsAgree_of_neverWraps h.2.2 hlen.2 hwrap.2⟩

end

mutual

theorem SszType.Regular.neverWraps : {α : Type} → {τ : SszType α} → τ.Regular → {v : α} → τ.BitsAgree v →
    (τ.encode v).length < 2 ^ 32 → τ.NeverWraps v
  | _, .basic _, h, _, hbits, hlen => noSilentWrap_of_length_lt h hbits hlen
  | _, .array _ _, h, _, hbits, hlen => ⟨noSilentWrap_of_length_lt h hbits hlen, fun x hx =>
    SszType.Regular.neverWraps h.2.2 (hbits.2 x hx) ((length_encode_le_of_mem hx).trans_lt hlen)⟩
  | _, .vector _, h, _, _, _ => h.elim
  | _, .list _ _, h, _, hbits, hlen => ⟨noSilentWrap_of_length_lt h hbits hlen, fun x hx =>
    SszType.Regular.neverWraps h.2 (hbits.2 x hx) ((length_encode_le_of_mem hx).trans_lt hlen)⟩
  | _, .bitlist _, h, _, hbits, hlen => noSilentWrap_of_length_lt h hbits hlen
  | _, .bitset _, h, _, hbits, hlen => noSilentWrap_of_length_lt h hbits hlen
  | _, .container _ _, h, _, hbits, hlen => ⟨noSilentWrap_of_length_lt h hbits hlen,
    Members.Regular.neverWraps h.2 hbits fun _ hp => (length_bytes_le_assemble hp).trans_lt hlen⟩

theorem Members.Regular.neverWraps : {α : Type} → {ms : Members α} → ms.Regular → {v : α} → ms.BitsAgree v →
    (∀ p ∈ ms.parts v, p.bytes.length < 2 ^ 32) → ms.NeverWraps v
  | _, .nil, _, _, _, _ => trivial
  | _, .cons m ms, h, (v, vs), hbits, hlen => by
    rw [Members.parts, List.forall_mem_cons] at hlen
    exact ⟨SszType.Regular.neverWraps h.2.1 hbits.1 hlen.1, Members.Regular.neverWraps h.2.2 hbits.2 hlen.2⟩

end

/-- A number and a list of bitlists. -/
def withBitlistList : SszType (BitVec 8 × List (List Bool) × Unit) :=
  .container true (.cons (.basic .uint8) (.cons (.list (.bitlist 8) 4) .nil))

/-- One empty bitlist takes up a byte for its delimiter, which its size leaves out: unbalanced bitlists are
written beyond the buffer of an encoding of 10 bytes. -/
example : withBitlistList.size true ((7 : BitVec 8), [[]], ()) = 9 ∧
    (withBitlistList.encode ((7 : BitVec 8), [[]], ())).length = 10 ∧
    withBitlistList.serialize ((7 : BitVec 8), [[]], ()) = .error (.undefined .write) := by
  decide

/-! ### A state with too many validators -/

namespace Beacon

end Beacon

end Sszpp
