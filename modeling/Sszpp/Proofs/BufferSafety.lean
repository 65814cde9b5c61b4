import Sszpp.Model.Beacon
import Sszpp.Proofs.Limits
import Sszpp.Proofs.Root
import Sszpp.Proofs.RoundTrip

/-!
# Writes to the tree buffer

`compute_hashtree_size` gives a tree of depth 0 the room of one chunk, and the tree copies all its
leaves. Its depth comes from the limit of the type: the copy stays inside the buffer exactly when the
leaves of a list whose limit is one chunk fit into one.
-/

namespace Sszpp

open Library

variable {α β : Type}

/-- A write is inside the buffer. -/
def Event.StoreInRange : Event → Prop
  | .store pos len size => pos + len ≤ size
  | _ => True

lemma Event.Within.storeInRange {K : Nat → Prop} {e : Event} (h : e.Within K) : e.StoreInRange := by
  cases e with
  | store pos len size => exact h
  | _ => trivial

/-- The function returns a value with `Q`, and all its writes are inside their buffers exactly when
`C` holds. -/
def SafeIff (Q : α → Prop) (x : Hashing α) (C : Prop) : Prop :=
  ∃ a events, x.run = .ok (a, events) ∧ Q a ∧ ((∀ e ∈ events, e.StoreInRange) ↔ C)

section Rules

variable {Q : α → Prop} {R : β → Prop} {C D : Prop}

lemma SafeIff.congr {x : Hashing α} (h : SafeIff Q x C) (hCD : C ↔ D) : SafeIff Q x D := by
  obtain ⟨a, events, hrun, ha, hiff⟩ := h
  exact ⟨a, events, hrun, ha, hiff.trans hCD⟩

lemma Yields.safeIff {K : Nat → Prop} {x : Hashing α} {a : α} {blocks : List (Chunk × Chunk)}
    (h : Yields K x a blocks) (ha : Q a) : SafeIff Q x True := by
  obtain ⟨events, hrun, hin, -⟩ := h
  exact ⟨a, events, hrun, ha, iff_true_intro fun e he => (hin e he).storeInRange⟩

lemma SafeIff.bind {x : Hashing α} {f : α → Hashing β} (hx : SafeIff Q x C)
    (hf : ∀ a, Q a → SafeIff R (f a) D) : SafeIff R (x >>= f) (C ∧ D) := by
  obtain ⟨a, events, hrun, ha, hiff⟩ := hx
  obtain ⟨b, events', hrun', hb, hiff'⟩ := hf a ha
  refine ⟨b, events ++ events', ?_, hb, ?_⟩
  · change (x.run >>= fun p => (fun q => (q.1, p.2 ++ q.2)) <$> (f p.1).run) = _
    rw [hrun, Outcome.ok_bind, hrun']
    rfl
  · rw [List.forall_mem_append, hiff, hiff']

lemma SafeIff.bind_pure {x : Hashing α} (hx : SafeIff Q x C) {f : α → β} (hf : ∀ a, Q a → R (f a)) :
    SafeIff R (x >>= fun a => pure (f a)) C := by
  have h := hx.bind (R := R) (D := True) (f := fun a => pure (f a)) fun a ha =>
    (yields_pure (K := fun _ => True) (f a)).safeIff (hf a ha)
  exact h.congr (by rw [and_true])

lemma SafeIff.lift_bind {x : Outcome α} {a : α} (hx : x = .ok a) {f : α → Hashing β}
    (hf : SafeIff R (f a) C) : SafeIff R ((liftM x : Hashing α) >>= f) C := by
  have hlift := (yields_lift (K := fun _ => True) hx).safeIff (Q := fun b => b = a) rfl
  refine (hlift.bind fun b hb => ?_).congr (by rw [true_and])
  rw [hb]
  exact hf

end Rules

/-- Any value. -/
abbrev anyValue (_ : α) : Prop := True

/-! ### One tree -/

variable (H : PairHash)

lemma safeIff_storeNodes (pos : Nat) (bytes buf : Bytes) :
    SafeIff anyValue (storeNodes pos bytes buf) (pos + bytes.length ≤ buf.length) :=
  ⟨_, [.store pos bytes.length buf.length], rfl, trivial, by simp [Event.StoreInRange]⟩

lemma treeDepth_one (count : Nat) : treeDepth 1 count = 0 := by
  rw [treeDepth, if_neg one_ne_zero, log2ceil_eq_clog]
  exact Nat.clog_one_right 2

/-- A tree has no layers for one chunk, or when its limit is one chunk. -/
lemma of_treeDepth_eq_zero {limit count : Nat} (h : treeDepth limit count = 0) : limit = 1 ∨ count ≤ 1 := by
  unfold treeDepth at h
  split at h
  · have hle := Nat.le_pow_clog (by decide : 1 < 2) count
    rw [← log2ceil_eq_clog, h] at hle
    exact .inr hle
  · have hle := Nat.le_pow_clog (by decide : 1 < 2) limit
    rw [← log2ceil_eq_clog, h] at hle
    exact .inl (by omega)

theorem safeIff_sparseHashTree (bytes : Bytes) (limit : Nat) :
    SafeIff anyValue (sparseHashTree H bytes limit) (limit = 1 → bytes.length ≤ 32) := by
  rw [sparseHashTree]
  by_cases hnil : bytes = []
  · subst hnil
    have hyields := (yields_zeroHashAt (K := fun _ => True) H
      (i := treeDepth limit (chunkCount ([] : Bytes).length)) trivial).bind_pure fun zero => zeros 32 ++ zero.1
    exact (hyields.safeIff trivial).congr (by simp)
  · have hpos := List.length_pos_of_ne_nil hnil
    simp only [if_neg (Nat.ne_of_gt (chunkCount_pos hpos))]
    cases hdepth : treeDepth limit (chunkCount bytes.length) with
    | zero =>
      have hread : Yields (fun _ => True) (readInput 0 bytes.length bytes) ((bytes.drop 0).take bytes.length) [] :=
        yields_readInput (by omega)
      rw [List.drop_zero, List.take_length] at hread
      have hcopy := (hread.safeIff (Q := fun b => b = bytes) rfl).bind
        (f := fun b => storeNodes 0 b (zeros (computeHashtreeSize (chunkCount bytes.length) 0)))
        (R := anyValue) (D := bytes.length ≤ 32) (by
          rintro b rfl
          simpa [computeHashtreeSize] using safeIff_storeNodes 0 b (zeros 32))
      refine hcopy.congr ⟨fun h _ => h.2, fun h => ⟨trivial, ?_⟩⟩
      rcases of_treeDepth_eq_zero hdepth with hone | hcount
      · exact h hone
      · change (bytes.length + 31) / 32 ≤ 1 at hcount
        omega
    | succ depth =>
      have hK : ∀ i ≤ depth, (fun _ : Nat => True) i := fun _ _ => trivial
      obtain ⟨made, hyields⟩ := yields_inPlace H hnil hK
      refine (hyields.safeIff trivial).congr ⟨fun _ hone => ?_, fun _ => trivial⟩
      rw [hone, treeDepth_one] at hdepth
      cases hdepth

lemma safeIff_htrLittleEndian (bytes : Bytes) (limit : Nat) :
    SafeIff anyValue (htrLittleEndian H bytes limit) (limit = 1 → bytes.length ≤ 32) :=
  (safeIff_sparseHashTree H bytes limit).bind_pure fun _ _ => trivial

lemma safeIff_extendRoot (count i : Nat) (c : Chunk) : SafeIff anyValue (extendRoot H count i c) True := by
  induction count generalizing i c with
  | zero => exact (yields_pure (K := fun _ => True) c).safeIff trivial
  | succ count ih =>
    have hzero := (yields_zeroHashAt (K := fun _ => True) H (i := i) trivial).safeIff (Q := anyValue) trivial
    refine (hzero.bind fun zero _ => ?_).congr (and_self_iff)
    have hhash := (yields_hash2Chunks (K := fun _ => True) H c zero).safeIff (Q := anyValue) trivial
    exact (hhash.bind fun result _ => ih (i + 1) result).congr and_self_iff

/-! ### Vectors -/

lemma safeIff_halves {x y : Hashing Chunk} {C D : Prop} (lastFirst : Bool) (hx : SafeIff anyValue x C)
    (hy : SafeIff anyValue y D) :
    SafeIff anyValue (if lastFirst then do
        let right ← y
        let left ← x
        return (left, right)
      else do
        let left ← x
        let right ← y
        return (left, right)) (C ∧ D) := by
  split
  · exact (hy.bind fun right _ => hx.bind_pure fun _ _ => trivial).congr and_comm
  · exact hx.bind fun left _ => hy.bind_pure fun _ _ => trivial

variable (P : Platform)

lemma SplitsLeaves.ne_one {threshold : Nat} {chunkSize : Nat → Nat} {leaves : List α → List Chunk}
    (h : SplitsLeaves threshold chunkSize leaves) {r : List α} (hr : threshold ≤ r.length) :
    chunkSize (bitCeil r.length / 2) ≠ 1 := by
  obtain ⟨j, hj, hsize, -⟩ := h r hr
  have hpow : 2 ^ 1 ≤ 2 ^ j := Nat.pow_le_pow_right (by decide) hj
  omega

/-- Every half has a limit of at least two chunks. -/
theorem safeIff_hashVector {threshold : Nat} {chunkSize : Nat → Nat} {leaves : List α → List Chunk}
    (hsplit : SplitsLeaves threshold chunkSize leaves) {serial : List α → Nat → Hashing Chunk}
    (size : List α → Nat) (E : α → Prop)
    (hserial : ∀ r limit, SafeIff anyValue (serial r limit) ((limit = 1 → size r ≤ 32) ∧ ∀ x ∈ r, E x))
    (s : Schedule) (r : List α) (cpuCount limit : Nat) :
    SafeIff anyValue (hashVector P threshold chunkSize serial s r cpuCount limit)
      ((limit = 1 → P.cpus cpuCount < 2 ∨ r.length < threshold → size r ≤ 32) ∧ ∀ x ∈ r, E x) := by
  induction hcpus : P.cpus cpuCount using Nat.strong_induction_on generalizing s r cpuCount limit with
  | _ cpus ih =>
    rw [hashVector, hcpus]
    by_cases hserially : cpus < 2 ∨ r.length < threshold
    · rw [if_pos hserially]
      exact (hserial r limit).congr (by simp only [hserially, true_implies])
    · rw [if_neg hserially]
      rw [not_or, not_lt, not_lt] at hserially
      have hlimit := hsplit.ne_one hserially.2
      have hleft := ih _ (P.cpus_half_lt hserially.1) s.first (r.take (bitCeil r.length / 2)) (cpus / 2)
        (chunkSize (bitCeil r.length / 2)) rfl
      have hright := ih _ (P.cpus_half_lt hserially.1) s.second (r.drop (bitCeil r.length / 2)) (cpus / 2)
        (chunkSize (bitCeil r.length / 2)) rfl
      have hall : (∀ x ∈ r, E x) ↔
          (∀ x ∈ r.take (bitCeil r.length / 2), E x) ∧ ∀ x ∈ r.drop (bitCeil r.length / 2), E x := by
        rw [← List.forall_mem_append, List.take_append_drop]
      have htop : ∀ left right : Chunk, SafeIff anyValue (do
          let result ← hash2Chunks P.hashtreeHash left right
          extendRoot P.hashtreeHash (log2ceil limit - (log2ceil (chunkSize (bitCeil r.length / 2)) + 1))
            (log2ceil (chunkSize (bitCeil r.length / 2)) + 1) result) True := by
        intro left right
        have hhash := (yields_hash2Chunks (K := fun _ => True) P.hashtreeHash left right).safeIff
          (Q := anyValue) trivial
        exact (hhash.bind fun result _ => safeIff_extendRoot P.hashtreeHash _ _ result).congr and_self_iff
      refine ((safeIff_halves s.lastFirst hleft hright).bind fun pair _ => htop pair.1 pair.2).congr ?_
      have hserially' : ¬ (cpus < 2 ∨ r.length < threshold) := by omega
      simp only [hlimit, hserially', false_implies, implies_true, true_and, and_true, hall]

/-- The number of elements from which on a range is split. -/
def splitThreshold (layout : Option (BasicLayout α)) : Nat :=
  match layout with
  | some _ => 4 * BYTES_PER_CHUNK
  | none => 4

/-- The bytes of the leaves of `count` elements. -/
def leafBytes (layout : Option (BasicLayout α)) (count : Nat) : Nat :=
  match layout with
  | some layout => count * layout.sizeof
  | none => count * BYTES_PER_CHUNK

/-- With a limit of one chunk, what is hashed without a split has at most one chunk of leaves. -/
def FitsLimit (layout : Option (BasicLayout α)) (limit cpuCount count : Nat) : Prop :=
  limit = 1 → P.cpus cpuCount < 2 ∨ count < splitThreshold layout → leafBytes layout count ≤ BYTES_PER_CHUNK

lemma safeIff_basicVector (s : Schedule) {layout : BasicLayout α} (hpacks : layout.Packs) (r : List α)
    (cpuCount limit : Nat) :
    SafeIff anyValue (hashTreeRootBasicVector P s layout r cpuCount limit)
      (FitsLimit P (some layout) limit cpuCount r.length) := by
  have h := safeIff_hashVector P hpacks.splitsLeaves (fun r => (r.flatMap layout.toBytes).length) (fun _ => True)
    (fun r limit => (safeIff_htrLittleEndian P.hashtreeHash (r.flatMap layout.toBytes) limit).congr (by simp))
    s r cpuCount limit
  refine h.congr ?_
  rw [length_flatMap_const _ _ fun x _ => layout.length_toBytes x]
  simp only [implies_true, and_true]
  rfl

lemma safeIff_bytes (s : Schedule) (bytes : Bytes) (cpuCount limit : Nat) :
    SafeIff anyValue (hashTreeRootBytes P s bytes cpuCount limit)
      (FitsLimit P (some byteLayout) limit cpuCount bytes.length) := by
  have hpacks : byteLayout.Packs := BasicType.byte.layout_packs
  exact safeIff_basicVector P s hpacks bytes cpuCount limit

/-- Bit sequences fit in one chunk where the limit is one. -/
lemma fitsLimit_bits {n count cpuCount : Nat} (h : count ≤ n) :
    FitsLimit P (some byteLayout) (bitLimit n) cpuCount ((count + 7) / 8) := by
  intro hone _
  unfold bitLimit at hone
  split at hone
  · change (n + 255) / 256 = 1 at hone
    change (count + 7) / 8 * 1 ≤ 32
    omega
  · cases hone

/-- Without a limit there is always room. -/
lemma fitsLimit_zero (layout : Option (BasicLayout α)) (cpuCount count : Nat) :
    FitsLimit P layout 0 cpuCount count := by
  intro hone
  cases hone

lemma safeIff_elementRoots {root : α → Hashing Chunk} {E : α → Prop}
    (hroot : ∀ x, SafeIff anyValue (root x) (E x)) (r : List α) :
    SafeIff (fun bytes => bytes.length = r.length * 32) (elementRoots root r) (∀ x ∈ r, E x) := by
  induction r with
  | nil =>
    have hnil := (yields_pure (K := fun _ => True) ([] : Bytes)).safeIff (Q := fun bytes => bytes.length = 0) rfl
    exact hnil.congr (by simp)
  | cons x xs ih =>
    refine ((hroot x).bind fun c _ => ih.bind_pure fun cs hcs => ?_).congr (by simp)
    rw [List.length_append, c.length, hcs, List.length_cons]
    omega

/-- One tree over the roots of the elements. -/
lemma safeIff_vectorSerial (s : Schedule) {root : α → Hashing Chunk} {E : α → Prop}
    (hroot : ∀ x, SafeIff anyValue (root x) (E x)) (r : List α) (limit : Nat) :
    SafeIff anyValue (do
        let chunks ← elementRoots root r
        hashTreeRootBytes P s chunks 1 limit)
      ((limit = 1 → r.length * 32 ≤ 32) ∧ ∀ x ∈ r, E x) := by
  have hbytes : ∀ chunks : Bytes, chunks.length = r.length * 32 →
      SafeIff anyValue (hashTreeRootBytes P s chunks 1 limit) (limit = 1 → r.length * 32 ≤ 32) := by
    intro chunks hlen
    refine (safeIff_bytes P s chunks 1 limit).congr ?_
    have hserially : P.cpus 1 < 2 := by
      rw [Platform.cpus, if_neg one_ne_zero]
      decide
    have hsize : leafBytes (some byteLayout) chunks.length = r.length * 32 := by
      rw [← hlen]
      exact Nat.mul_one _
    simp only [FitsLimit, hserially, true_or, true_implies, hsize, BYTES_PER_CHUNK]
  exact ((safeIff_elementRoots hroot r).bind hbytes).congr and_comm

lemma safeIff_rootVector (s : Schedule) {rootBytes : α → Bytes} (hlen : ∀ x, (rootBytes x).length = 32)
    (r : List α) (cpuCount limit : Nat) :
    SafeIff anyValue (hashTreeRootRootVector P s rootBytes r cpuCount limit)
      (FitsLimit P (none : Option (BasicLayout α)) limit cpuCount r.length) := by
  have h := safeIff_hashVector P (splitsLeaves_roots hlen) (fun r => (r.flatMap rootBytes).length) (fun _ => True)
    (fun r limit => (safeIff_htrLittleEndian P.hashtreeHash (r.flatMap rootBytes) limit).congr (by simp))
    s r cpuCount limit
  refine h.congr ?_
  rw [length_flatMap_const _ _ fun x _ => hlen x]
  simp only [implies_true, and_true]
  rfl

/-- The choice among the overloads; the elements that are not hashed on their own satisfy `E`. -/
lemma safeIff_range (s : Schedule) {e : SszType α} {root : α → Hashing Chunk} {E : α → Prop}
    (hroot : ∀ x, SafeIff anyValue (root x) (E x))
    (hleaf : e.basicLayout.isSome ∨ e.rootBytes.isSome → ∀ x, E x) (r : List α) (cpuCount limit : Nat) :
    SafeIff anyValue (hashTreeRootRange P s e.basicLayout e.rootBytes root r cpuCount limit)
      (FitsLimit P e.basicLayout limit cpuCount r.length ∧ ∀ x ∈ r, E x) := by
  cases hlayout : e.basicLayout with
  | some layout =>
    have hpacks := SszType.layout_packs hlayout
    have hall := hleaf (.inl (by rw [hlayout]; rfl))
    exact (safeIff_basicVector P s hpacks r cpuCount limit).congr (by simp [hall])
  | none =>
    cases hbytes : e.rootBytes with
    | some rootBytes =>
      have hall := hleaf (.inr (by rw [hbytes]; rfl))
      have hlen : ∀ x, (rootBytes x).length = 32 := fun x => (SszType.rootBytes_eq_some hbytes x).1
      exact (safeIff_rootVector P s hlen r cpuCount limit).congr (by simp [hall])
    | none =>
      have hsplit := splitsLeaves_map (fun _ : α => zeroHash)
      exact safeIff_hashVector P hsplit (fun r => r.length * 32) E
        (fun r limit => safeIff_vectorSerial P s hroot r limit) s r cpuCount limit

/-! ### All types -/

mutual

/-- Every list of the object whose limit is one chunk and that is hashed in one piece has at most one
chunk of leaves. The elements of a range are hashed with one thread. -/
def SszType.TreesFit {α : Type} (P : Platform) : SszType α → (cpuCount : Nat) → α → Prop
  | .basic _, _, _ => True
  | .array e _, _, v => ∀ x ∈ v.1, e.TreesFit P 1 x
  | .vector e, _, v => ∀ x ∈ v, e.TreesFit P 1 x
  | .list e n, cpuCount, v =>
    FitsLimit P e.basicLayout (listLimit e.basicLayout n) cpuCount v.length ∧ ∀ x ∈ v, e.TreesFit P 1 x
  | .bitlist n, cpuCount, v => FitsLimit P (some byteLayout) (bitLimit n) cpuCount ((v.length + 7) / 8)
  | .bitset _, _, _ => True
  | .container _ ms, cpuCount, v => ms.TreesFit P cpuCount v

def Members.TreesFit {α : Type} (P : Platform) : Members α → (cpuCount : Nat) → α → Prop
  | .nil, _, _ => True
  | .cons m ms, cpuCount, (v, vs) => m.TreesFit P cpuCount v ∧ ms.TreesFit P cpuCount vs

end

/-- Elements that are packed contain no list. -/
lemma SszType.treesFit_of_leaf {e : SszType α} (h : e.basicLayout.isSome ∨ e.rootBytes.isSome) (x : α) :
    e.TreesFit P 1 x := by
  cases e with
  | basic b => trivial
  | array e n =>
    cases e with
    | basic b => exact fun _ _ => trivial
    | _ => rcases h with h | h <;> cases h
  | _ => rcases h with h | h <;> cases h

mutual

theorem SszType.safeIff : {α : Type} → (τ : SszType α) → (s : Schedule) → (v : α) → (cpuCount : Nat) →
    SafeIff anyValue (τ.hashTreeRoot P s v cpuCount zeroHash) (τ.TreesFit P cpuCount v)
  | _, .basic b, _, v, _ => (yields_pure (K := fun _ => True) (Chunk.ofBytes (b.toBytes v))).safeIff trivial
  | _, .array e _, s, v, cpuCount => by
    have h := safeIff_range P s (fun x => SszType.safeIff e s x 1) (e.treesFit_of_leaf P) v.1 cpuCount 0
    exact h.congr (and_iff_right (fitsLimit_zero P e.basicLayout cpuCount v.1.length))
  | _, .vector e, s, v, cpuCount => by
    have h := safeIff_range P s (fun x => SszType.safeIff e s x 1) (e.treesFit_of_leaf P) v cpuCount 0
    exact h.congr (and_iff_right (fitsLimit_zero P e.basicLayout cpuCount v.length))
  | _, .list e n, s, v, cpuCount => by
    have h := safeIff_range P s (fun x => SszType.safeIff e s x 1) (e.treesFit_of_leaf P) v cpuCount
      (listLimit e.basicLayout n)
    have hmix : ∀ c, SafeIff anyValue (mixInLength P.hashtreeHash c v.length) True := fun c =>
      (yields_mixInLength (K := fun _ => True) P.hashtreeHash c v.length).safeIff trivial
    exact (h.bind fun c _ => hmix c).congr (and_true _ ▸ Iff.rfl)
  | _, .bitlist n, s, v, cpuCount => by
    have hser : (SszType.bitlist n).serialize v = .ok (packBits (v ++ [true])) :=
      (SszType.bitlist n).serialize_eq_of_fits trivial v trivial
    have htree := safeIff_bytes P s (packBits v) cpuCount (bitLimit n)
    have hmix : ∀ c, SafeIff anyValue (mixInLength P.hashtreeHash c v.length) True := fun c =>
      (yields_mixInLength (K := fun _ => True) P.hashtreeHash c v.length).safeIff trivial
    rw [length_packBits] at htree
    have hmixed := (htree.bind fun c _ => hmix c).congr (by rw [and_true])
    exact .lift_bind hser (.lift_bind (removeDelimiter_packBits v) hmixed)
  | _, .bitset n, s, v, cpuCount => by
    have hser : (SszType.bitset n).serialize v = .ok (packBits v.1) :=
      (SszType.bitset n).serialize_eq_of_fits trivial v trivial
    have hfits : FitsLimit P (some byteLayout) (bitLimit n) cpuCount (packBits v.1).length := by
      rw [length_packBits]
      exact fitsLimit_bits P (le_of_eq v.2)
    have htree := (safeIff_bytes P s (packBits v.1) cpuCount (bitLimit n)).congr (iff_true_intro hfits)
    exact .lift_bind hser htree
  | _, .container _ ms, s, v, cpuCount => by
    have hbytes : ∀ bytes : Bytes, True → SafeIff anyValue (hashTreeRootBytes P s.second bytes cpuCount 0) True :=
      fun bytes _ => (safeIff_bytes P s.second bytes cpuCount 0).congr
        (iff_true_intro (fitsLimit_zero P (some byteLayout) cpuCount bytes.length))
    exact ((Members.safeIff ms s.first v cpuCount).bind hbytes).congr (by rw [and_true]; rfl)

theorem Members.safeIff : {α : Type} → (ms : Members α) → (s : Schedule) → (v : α) → (cpuCount : Nat) →
    SafeIff anyValue (ms.memberRoots P s v cpuCount) (ms.TreesFit P cpuCount v)
  | _, .nil, _, _, _ => (yields_pure (K := fun _ => True) []).safeIff trivial
  | _, .cons m ms, s, (v, vs), cpuCount =>
    (SszType.safeIff m s.first v cpuCount).bind fun _ _ =>
      (Members.safeIff ms s.second vs cpuCount).bind_pure fun _ _ => trivial

end

/-- The function returns, and all its writes are inside their buffers. -/
def Safe (x : Hashing α) : Prop := ∃ a events, x.run = .ok (a, events) ∧ ∀ e ∈ events, e.StoreInRange

lemma SafeIff.safe_iff {Q : α → Prop} {x : Hashing α} {C : Prop} (h : SafeIff Q x C) : Safe x ↔ C := by
  obtain ⟨a, events, hrun, -, hiff⟩ := h
  rw [← hiff]
  constructor
  · rintro ⟨a', events', hrun', hin⟩
    obtain ⟨-, rfl⟩ := Prod.mk.inj (Except.ok.inj (hrun.symm.trans hrun'))
    exact hin
  · exact fun hin => ⟨a, events, hrun, hin⟩

/-! ### Objects within their limits -/

lemma fitsLimit_of_le {e : SszType α} {n cpuCount count : Nat}
    (hfit : ∀ l, e.basicLayout = some l → n * l.sizeof + 31 < 2 ^ 64) (h : count ≤ n) :
    FitsLimit P e.basicLayout (listLimit e.basicLayout n) cpuCount count := by
  rw [listLimit_eq hfit]
  intro hone _
  cases hlayout : e.basicLayout with
  | some layout =>
    rw [hlayout] at hone
    have hmul := Nat.mul_le_mul_right layout.sizeof h
    change (n * layout.sizeof + 31) / 32 = 1 at hone
    change count * layout.sizeof ≤ 32
    omega
  | none =>
    rw [hlayout] at hone
    change n = 1 at hone
    change count * 32 ≤ 32
    omega

mutual

theorem SszType.treesFit_of_withinLimits : {α : Type} → (τ : SszType α) → (cpuCount : Nat) → (v : α) →
    τ.WithinLimits v → τ.LimitsFit v → τ.TreesFit P cpuCount v
  | _, .basic _, _, _, _, _ => trivial
  | _, .array e _, _, _, h, hfit => fun x hx => SszType.treesFit_of_withinLimits e 1 x (h x hx) (hfit x hx)
  | _, .vector e, _, _, h, hfit => fun x hx => SszType.treesFit_of_withinLimits e 1 x (h x hx) (hfit x hx)
  | _, .list e _, _, _, h, hfit =>
    ⟨fitsLimit_of_le P hfit.1 h.1, fun x hx => SszType.treesFit_of_withinLimits e 1 x (h.2 x hx) (hfit.2 x hx)⟩
  | _, .bitlist _, _, _, h, _ => fitsLimit_bits P h
  | _, .bitset _, _, _, _, _ => trivial
  | _, .container _ ms, cpuCount, v, h, hfit => Members.treesFit_of_withinLimits ms cpuCount v h hfit

theorem Members.treesFit_of_withinLimits : {α : Type} → (ms : Members α) → (cpuCount : Nat) → (v : α) →
    ms.WithinLimits v → ms.LimitsFit v → ms.TreesFit P cpuCount v
  | _, .nil, _, _, _, _ => trivial
  | _, .cons m ms, cpuCount, (v, vs), h, hfit =>
    ⟨SszType.treesFit_of_withinLimits m cpuCount v h.1 hfit.1,
      Members.treesFit_of_withinLimits ms cpuCount vs h.2 hfit.2⟩

end

/-! ### Decoded objects -/

mutual

/-- The condition on the bytes that an object is decoded from. -/
def SszType.SlicesFit {α : Type} (P : Platform) : SszType α → (cpuCount : Nat) → Bytes → Prop
  | .basic _, _, _ => True
  | .array _ _, _, _ => True
  | .vector _, _, _ => True
  | .list e n, cpuCount, bytes =>
    if e.isVariableSize then
      FitsLimit P e.basicLayout (listLimit e.basicLayout n) cpuCount (elementWords bytes).length ∧
        ∀ p ∈ rangesAt bytes (elementWords bytes), e.SlicesFit P 1 p
    else FitsLimit P e.basicLayout (listLimit e.basicLayout n) cpuCount (bytes.length / e.width)
  | .bitlist _, _, _ => True
  | .bitset _, _, _ => True
  | .container _ ms, cpuCount, bytes => ms.SlicesFit P cpuCount (rangesAt bytes (ms.offsetWords bytes))

/-- The same of the ranges of the members of variable size. -/
def Members.SlicesFit {α : Type} (P : Platform) : Members α → (cpuCount : Nat) → List Bytes → Prop
  | .nil, _, _ => True
  | .cons m ms, cpuCount, ranges =>
    if m.isVariableSize then
      match ranges with
      | p :: ps => m.SlicesFit P cpuCount p ∧ ms.SlicesFit P cpuCount ps
      | [] => True
    else ms.SlicesFit P cpuCount ranges

end

mutual

/-- A type of fixed size contains no list. -/
theorem SszType.treesFit_of_fixed : {α : Type} → (τ : SszType α) → τ.isVariableSize = false →
    (cpuCount : Nat) → (v : α) → τ.TreesFit P cpuCount v
  | _, .basic _, _, _, _ => trivial
  | _, .array e _, h, _, _ => fun x _ => SszType.treesFit_of_fixed e h 1 x
  | _, .vector e, h, _, _ => fun x _ => SszType.treesFit_of_fixed e h 1 x
  | _, .list _ _, h, _, _ => by cases h
  | _, .bitlist _, h, _, _ => by cases h
  | _, .bitset _, _, _, _ => trivial
  | _, .container _ ms, h, cpuCount, v => Members.treesFit_of_fixed ms h cpuCount v

theorem Members.treesFit_of_fixed : {α : Type} → (ms : Members α) → ms.hasVariableSize = false →
    (cpuCount : Nat) → (v : α) → ms.TreesFit P cpuCount v
  | _, .nil, _, _, _ => trivial
  | _, .cons m ms, h, cpuCount, (v, vs) => by
    rw [Members.hasVariableSize, Bool.or_eq_false_iff] at h
    exact ⟨SszType.treesFit_of_fixed m h.1 cpuCount v, Members.treesFit_of_fixed ms h.2 cpuCount vs⟩

end

mutual

theorem SszType.treesFit_iff : {α : Type} → (τ : SszType α) → τ.WellFormed → (cpuCount : Nat) →
    (bytes : Bytes) → (r v : α) → τ.deserialize bytes r = .ok v →
    (τ.TreesFit P cpuCount v ↔ τ.SlicesFit P cpuCount bytes)
  | _, .basic _, _, _, _, _, _, _ => Iff.rfl
  | _, .array e n, hwf, cpuCount, _, _, v, _ =>
    ⟨fun _ => trivial, fun _ => SszType.treesFit_of_fixed P (.array e n) hwf.1 cpuCount v⟩
  | _, .vector _, hwf, _, _, _, _, _ => hwf.elim
  | _, .list e n, hwf, cpuCount, _, _, _, h =>
    SszType.deserialize_list_iff (e := e) hwf h (FitsLimit P e.basicLayout (listLimit e.basicLayout n) cpuCount)
      (fun hfix x => SszType.treesFit_of_fixed P e hfix 1 x)
      fun p x hx => SszType.treesFit_iff e hwf 1 p e.vac x hx
  | _, .bitlist limit, _, cpuCount, bytes, _, v, h => by
    have hlen : v.length ≤ limit := length_of_deserializeBitlist h
    exact ⟨fun _ => trivial, fun _ => fitsLimit_bits P hlen⟩
  | _, .bitset _, _, _, _, _, _, _ => Iff.rfl
  | _, .container _ ms, hwf, cpuCount, bytes, r, v, h =>
    Members.treesFit_iff ms hwf.2 cpuCount bytes _ v (Members.deserializeContainer_eq_ok hwf.2 h).2

theorem Members.treesFit_iff : {α : Type} → (ms : Members α) → ms.WellFormed → (cpuCount : Nat) →
    (shifted : Bytes) → (ranges : List Bytes) → (v : α) → ms.Decoded shifted ranges v →
    (ms.TreesFit P cpuCount v ↔ ms.SlicesFit P cpuCount ranges)
  | _, .nil, _, _, _, _, _, _ => Iff.rfl
  | _, .cons m ms, hwf, cpuCount, shifted, ranges, (v, vs), h => by
    simp only [Members.TreesFit, Members.SlicesFit, Members.Decoded] at h ⊢
    cases hvar : m.isVariableSize with
    | true =>
      simp only [hvar, if_true] at h ⊢
      obtain ⟨-, p, ps, old, rfl, hp, hps⟩ := h
      rw [SszType.treesFit_iff m hwf.1 cpuCount p old v hp, Members.treesFit_iff ms hwf.2 cpuCount _ ps vs hps]
    | false =>
      simp only [hvar, Bool.false_eq_true, if_false] at h ⊢
      rw [Members.treesFit_iff ms hwf.2 cpuCount _ ranges vs h.2]
      exact ⟨fun h => h.2, fun h => ⟨SszType.treesFit_of_fixed P m hvar cpuCount v, h⟩⟩

end

namespace Beacon

end Beacon

end Sszpp
