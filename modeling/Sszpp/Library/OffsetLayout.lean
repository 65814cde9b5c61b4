import Sszpp.Library.LittleEndian

/-!
# Encodings with a fixed part and an offset table

A composite value is laid out as the heads of its parts followed by their tails. The head of a
part of fixed length is the part itself; the head of a part of variable length is the 4-byte
offset of its tail, counted from the beginning of the encoding.
-/

namespace Sszpp.Library

/-- A component of a composite encoding. -/
structure Part where
  isVariable : Bool
  bytes : Bytes

namespace Part

/-- The bytes of the part in the fixed portion when its tail starts at `off`. -/
def head (p : Part) (off : Nat) : Bytes :=
  if p.isVariable then leBytes 4 off else p.bytes

/-- The bytes of the part after the fixed portion. -/
def tail (p : Part) : Bytes :=
  if p.isVariable then p.bytes else []

def headLength (p : Part) : Nat :=
  if p.isVariable then 4 else p.bytes.length

@[simp] lemma length_head (p : Part) (off : Nat) : (p.head off).length = p.headLength := by
  unfold head headLength
  split <;> simp

end Part

def fixedLength (ps : List Part) : Nat := (ps.map Part.headLength).sum

/-- The fixed portion, when the tail of the first part starts at `off`. -/
def heads : Nat → List Part → Bytes
  | _, [] => []
  | off, p :: ps => p.head off ++ heads (off + p.tail.length) ps

def tails (ps : List Part) : Bytes := ps.flatMap Part.tail

/-- The encoding: every offset is the position of its part. -/
def assemble (ps : List Part) : Bytes := heads (fixedLength ps) ps ++ tails ps

/-- The offsets in the fixed portion, in order. -/
def offsets : Nat → List Part → List Nat
  | _, [] => []
  | off, p :: ps => if p.isVariable then off :: offsets (off + p.bytes.length) ps else offsets off ps

@[simp] lemma fixedLength_nil : fixedLength [] = 0 := rfl

@[simp] lemma fixedLength_cons (p : Part) (ps : List Part) :
    fixedLength (p :: ps) = p.headLength + fixedLength ps := by
  simp [fixedLength]

@[simp] lemma tails_nil : tails [] = [] := rfl

@[simp] lemma tails_cons (p : Part) (ps : List Part) : tails (p :: ps) = p.tail ++ tails ps := by
  simp [tails]

@[simp] lemma length_heads (off : Nat) (ps : List Part) :
    (heads off ps).length = fixedLength ps := by
  induction ps generalizing off with
  | nil => rfl
  | cons p ps ih => simp [heads, ih]

lemma length_assemble (ps : List Part) :
    (assemble ps).length = fixedLength ps + (tails ps).length := by
  simp [assemble]

lemma Part.length_bytes_le (p : Part) : p.bytes.length ≤ p.headLength + p.tail.length := by
  unfold headLength tail
  split <;> simp

lemma length_bytes_le_assemble {ps : List Part} {p : Part} (hp : p ∈ ps) :
    p.bytes.length ≤ (assemble ps).length := by
  rw [length_assemble]
  induction ps with
  | nil => cases hp
  | cons q ps ih =>
    simp only [fixedLength_cons, tails_cons, List.length_append]
    rcases List.mem_cons.mp hp with rfl | hmem
    · have hle := p.length_bytes_le
      omega
    · have hle := ih hmem
      omega

lemma tails_of_offsets_nil {ps : List Part} {off : Nat} (h : offsets off ps = []) : tails ps = [] := by
  induction ps generalizing off with
  | nil => rfl
  | cons p ps ih =>
    unfold offsets at h
    split at h
    · cases h
    · rename_i hp
      rw [tails_cons, ih h, Part.tail, if_neg hp, List.append_nil]

/-- The first offset is where the tails begin. -/
lemma eq_of_offsets_cons {ps : List Part} {off o : Nat} {os : List Nat}
    (h : offsets off ps = o :: os) : o = off := by
  induction ps generalizing off with
  | nil => cases h
  | cons p ps ih =>
    unfold offsets at h
    split at h
    · exact (List.cons.inj h).1.symm
    · exact ih h

lemma le_of_mem_offsets {ps : List Part} {off o : Nat} (ho : o ∈ offsets off ps) :
    off ≤ o ∧ o ≤ off + (tails ps).length := by
  induction ps generalizing off with
  | nil => cases ho
  | cons p ps ih =>
    rw [tails_cons, List.length_append]
    unfold offsets at ho
    split at ho
    · rename_i hp
      have htail : p.tail = p.bytes := by rw [Part.tail, if_pos hp]
      rcases List.mem_cons.mp ho with rfl | hmem
      · omega
      · have hle := ih hmem
        rw [htail]
        omega
    · have hle := ih ho
      omega

section Fixed

variable {ps : List Part} (h : ∀ p ∈ ps, p.isVariable = false)
include h

lemma heads_of_fixed (off : Nat) : heads off ps = ps.flatMap Part.bytes := by
  induction ps generalizing off with
  | nil => rfl
  | cons p ps ih =>
    have hp : p.isVariable = false := h p (by simp)
    rw [heads, ih fun q hq => h q (List.mem_cons_of_mem _ hq)]
    simp [Part.head, hp]

lemma tails_of_fixed : tails ps = [] := by
  simp only [tails, List.flatMap_eq_nil_iff]
  intro p hp
  simp [Part.tail, h p hp]

lemma assemble_of_fixed : assemble ps = ps.flatMap Part.bytes := by
  rw [assemble, heads_of_fixed h, tails_of_fixed h, List.append_nil]

end Fixed

/-! ### Parts of variable length -/

section Variable

variable {α : Type} (encode : α → Bytes)

/-- The parts of a sequence whose elements all have variable length. -/
def variableParts (vs : List α) : List Part := vs.map fun v => ⟨true, encode v⟩

@[simp] lemma variableParts_nil : variableParts encode [] = [] := rfl

@[simp] lemma variableParts_cons (v : α) (vs : List α) :
    variableParts encode (v :: vs) = ⟨true, encode v⟩ :: variableParts encode vs := rfl

lemma fixedLength_variableParts (vs : List α) :
    fixedLength (variableParts encode vs) = 4 * vs.length := by
  induction vs with
  | nil => rfl
  | cons v vs ih =>
    rw [variableParts_cons, fixedLength_cons, ih, List.length_cons]
    simp only [Part.headLength, if_true]
    omega

end Variable

section Step

variable (bs : Bytes) (off : Nat) (ps : List Part)

@[simp] lemma headLength_variable : (⟨true, bs⟩ : Part).headLength = 4 := rfl

@[simp] lemma tail_variable : (⟨true, bs⟩ : Part).tail = bs := rfl

@[simp] lemma heads_variable :
    heads off (⟨true, bs⟩ :: ps) = leBytes 4 off ++ heads (off + bs.length) ps := rfl

@[simp] lemma offsets_variable :
    offsets off (⟨true, bs⟩ :: ps) = off :: offsets (off + bs.length) ps := rfl

@[simp] lemma headLength_fixed : (⟨false, bs⟩ : Part).headLength = bs.length := rfl

@[simp] lemma tail_fixed : (⟨false, bs⟩ : Part).tail = [] := rfl

@[simp] lemma heads_fixed : heads off (⟨false, bs⟩ :: ps) = bs ++ heads off ps := rfl

@[simp] lemma offsets_fixed : offsets off (⟨false, bs⟩ :: ps) = offsets off ps := rfl

end Step

/-! ### Reading a table of offsets -/

/-- The first `n` words of 4 bytes. -/
def words : Nat → Bytes → List Nat
  | 0, _ => []
  | n + 1, bytes => leNat (bytes.take 4) :: words n (bytes.drop 4)

/-- The bytes from each offset to the next one, the last to the end. -/
def rangesAt (bytes : Bytes) : List Nat → List Bytes
  | [] => []
  | [o] => [bytes.drop o]
  | o :: o' :: os => (bytes.take o').drop o :: rangesAt bytes (o' :: os)

/-- Each offset but the first is at least the one before it and at most `n`. -/
def OrderedTable (n : Nat) : List Nat → Prop
  | o :: o' :: os => o ≤ o' ∧ o' ≤ n ∧ OrderedTable n (o' :: os)
  | _ => True

@[simp] lemma length_words (n : Nat) (bytes : Bytes) : (words n bytes).length = n := by
  induction n generalizing bytes with
  | zero => rfl
  | succ n ih => simp [words, ih]

lemma length_rangesAt (bytes : Bytes) (table : List Nat) :
    (rangesAt bytes table).length = table.length := by
  induction table with
  | nil => rfl
  | cons o os ih =>
    cases os with
    | nil => rfl
    | cons o' os => simpa [rangesAt] using ih

/-- The positions of consecutive byte strings, the first one at `off`. -/
def runningOffsets : Nat → List Bytes → List Nat
  | _, [] => []
  | off, p :: ps => off :: runningOffsets (off + p.length) ps

/-- The bytes of the parts of variable length. -/
def variableBytes (ps : List Part) : List Bytes := (ps.filter Part.isVariable).map Part.bytes

lemma offsets_eq_runningOffsets (off : Nat) (ps : List Part) :
    offsets off ps = runningOffsets off (variableBytes ps) := by
  induction ps generalizing off with
  | nil => rfl
  | cons p ps ih =>
    obtain ⟨isVariable, bytes⟩ := p
    cases isVariable with
    | true => simpa [variableBytes, runningOffsets] using ih _
    | false => simpa [variableBytes] using ih off

lemma tails_eq_flatten (ps : List Part) : tails ps = (variableBytes ps).flatten := by
  induction ps with
  | nil => rfl
  | cons p ps ih =>
    obtain ⟨isVariable, bytes⟩ := p
    cases isVariable with
    | true => simpa [variableBytes] using ih
    | false => simpa [variableBytes] using ih

/-- Ordered offsets inside the input cut it, from the first one on, into its ranges. -/
lemma rangesAt_partition {bytes : Bytes} {o : Nat} {os : List Nat} (ho : o ≤ bytes.length)
    (h : OrderedTable bytes.length (o :: os)) :
    (rangesAt bytes (o :: os)).flatten = bytes.drop o ∧
      runningOffsets o (rangesAt bytes (o :: os)) = o :: os := by
  induction os generalizing o with
  | nil => simp [rangesAt, runningOffsets]
  | cons o' os ih =>
    obtain ⟨hle, hlen, hrest⟩ := h
    obtain ⟨hflat, hrun⟩ := ih hlen hrest
    have hcut : ((bytes.take o').drop o).length = o' - o := by
      rw [List.length_drop, List.length_take, Nat.min_eq_left hlen]
    have hnext : o + (o' - o) = o' := by omega
    constructor
    · have htake : o ≤ (bytes.take o').length := by
        rw [List.length_take, Nat.min_eq_left hlen]
        exact hle
      rw [rangesAt, List.flatten_cons, hflat, ← List.drop_append_of_le_length htake,
        List.take_append_drop]
    · rw [rangesAt, runningOffsets, hcut, hnext, hrun]

lemma lt_of_mem_words {n : Nat} {bytes : Bytes} {o : Nat} (h : o ∈ words n bytes) : o < 2 ^ 32 := by
  induction n generalizing bytes with
  | zero => cases h
  | succ n ih =>
    rcases List.mem_cons.mp h with rfl | hmem
    · calc leNat (bytes.take 4) < 256 ^ (bytes.take 4).length := leNat_lt _
        _ ≤ 256 ^ 4 := Nat.pow_le_pow_right (by decide) (List.length_take_le 4 bytes)
    · exact ih hmem

lemma flatMap_words {n : Nat} {bytes : Bytes} (h : 4 * n ≤ bytes.length) :
    (words n bytes).flatMap (leBytes 4) = bytes.take (4 * n) := by
  induction n generalizing bytes with
  | zero => simp [words]
  | succ n ih =>
    have hrest : 4 * n ≤ (bytes.drop 4).length := by
      rw [List.length_drop]
      omega
    have hword : leBytes 4 (leNat (bytes.take 4)) = bytes.take 4 :=
      leBytes_eq_of_leNat_eq (List.length_take_of_le (by omega)) rfl
    rw [words, List.flatMap_cons, hword, ih hrest, Nat.mul_succ, Nat.add_comm (4 * n), List.take_add]

section Variable

variable {α : Type} (encode : α → Bytes)

lemma variableBytes_variableParts (vs : List α) :
    variableBytes (variableParts encode vs) = vs.map encode := by
  induction vs with
  | nil => rfl
  | cons v vs ih => simpa [variableBytes] using ih

lemma heads_variableParts (off : Nat) (vs : List α) :
    heads off (variableParts encode vs) = (offsets off (variableParts encode vs)).flatMap (leBytes 4) := by
  induction vs generalizing off with
  | nil => rfl
  | cons v vs ih => rw [variableParts_cons, heads_variable, offsets_variable, List.flatMap_cons, ih]

end Variable

/-! ### The parts of an encoding -/

/-- The same parts are of variable length, and the others have the same lengths. -/
def SameShape (ps qs : List Part) : Prop :=
  List.Forall₂ (fun p q => p.isVariable = q.isVariable ∧ (p.isVariable = false → p.bytes.length = q.bytes.length))
    ps qs

lemma SameShape.fixedLength_eq {ps qs : List Part} (h : SameShape ps qs) : fixedLength ps = fixedLength qs := by
  induction h with
  | nil => rfl
  | @cons p q ps qs hpq _ ih =>
    obtain ⟨hkind, hlen⟩ := hpq
    rw [fixedLength_cons, fixedLength_cons, ih, Part.headLength, Part.headLength, ← hkind]
    cases hp : p.isVariable with
    | true => rfl
    | false => simp [hlen hp]

/-- Two equal fixed portions belong to tails at one position, or there are no tails. -/
lemma SameShape.offset_eq {ps qs : List Part} (h : SameShape ps qs) {off off' : Nat}
    (hps : ∀ o ∈ offsets off ps, o < 2 ^ 32) (hqs : ∀ o ∈ offsets off' qs, o < 2 ^ 32)
    (hheads : heads off ps = heads off' qs) : off = off' ∨ tails ps = [] ∧ tails qs = [] := by
  induction h with
  | nil => exact .inr ⟨rfl, rfl⟩
  | @cons p q ps qs hpq _ ih =>
    obtain ⟨isVariable, bytes⟩ := p
    obtain ⟨isVariable', bytes'⟩ := q
    obtain ⟨rfl, hlen⟩ := hpq
    cases isVariable with
    | true =>
      have hword := List.append_inj_left hheads (by simp [Part.head])
      exact .inl (leBytes_injective (hps off (by simp)) (hqs off' (by simp)) hword)
    | false =>
      have hrest := List.append_inj_right hheads (by simpa [Part.head] using hlen rfl)
      exact ih hps hqs hrest

/-- An encoding determines its parts. -/
theorem assemble_injective {ps qs : List Part} (h : SameShape ps qs)
    (hps : ∀ o ∈ offsets (fixedLength ps) ps, o < 2 ^ 32) (hqs : ∀ o ∈ offsets (fixedLength qs) qs, o < 2 ^ 32)
    (heq : assemble ps = assemble qs) : ps = qs := by
  have hfixed := h.fixedLength_eq
  have hheads := List.append_inj_left heq (by rw [length_heads, length_heads, hfixed])
  have htails := List.append_inj_right heq (by rw [length_heads, length_heads, hfixed])
  rw [← hfixed] at hheads hqs
  generalize fixedLength ps = off at hheads hps hqs
  clear heq hfixed
  induction h generalizing off with
  | nil => rfl
  | @cons p q ps qs hpq hrest ih =>
    obtain ⟨isVariable, bytes⟩ := p
    obtain ⟨isVariable', bytes'⟩ := q
    obtain ⟨rfl, hlen⟩ := hpq
    cases isVariable with
    | true =>
      simp only [heads_variable, offsets_variable, tails_cons, tail_variable, List.mem_cons,
        forall_eq_or_imp] at hheads hps hqs htails
      have hnext := List.append_inj_right hheads rfl
      rcases SameShape.offset_eq hrest hps.2 hqs.2 hnext with hoff | ⟨hnil, hnil'⟩
      · -- the next tails start at one position, so these two end there
        have hbytes : bytes = bytes' := List.append_inj_left htails (by omega)
        subst hbytes
        rw [ih (List.append_cancel_left htails) _ hnext hps.2 hqs.2]
      · rw [hnil, hnil', List.append_nil, List.append_nil] at htails
        subst htails
        rw [ih (hnil.trans hnil'.symm) _ hnext hps.2 hqs.2]
    | false =>
      simp only [heads_fixed, offsets_fixed, tails_cons, tail_fixed, List.nil_append] at hheads hps hqs htails
      have hbytes : bytes = bytes' := List.append_inj_left hheads (hlen rfl)
      subst hbytes
      rw [ih htails off (List.append_cancel_left hheads) hps hqs]

end Sszpp.Library
