import Sszpp.Proofs.Root

/-!
# The call that returns the root

On an `ssz::list` the returning call runs the overload for vectors: it takes no limit from the type
and mixes in no length. A hash that counts the levels above the first leaf tells the two calls
apart.
-/

namespace Sszpp

open Library

variable {α : Type}

/-- The value that a function returns. -/
def result (x : Hashing α) : Outcome α := Prod.fst <$> x.run

lemma Returns.result_eq {x : Hashing α} {a : α} (h : Returns x a) : result x = .ok a := by
  obtain ⟨events, hrun⟩ := h
  rw [result, hrun]
  rfl

/-- The types with a returning call. The size of a list is a `size_t`, and there is no such call for
bit sequences. -/
def SszType.HasValueCall {α : Type} : SszType α → Prop
  | .list e n => e.isBool = false ∧ n < 2 ^ 64
  | .bitlist _ => False
  | .bitset _ => False
  | _ => True

def SszType.isList {α : Type} : SszType α → Bool
  | .list _ _ => true
  | _ => false

/-! ### A hash that counts levels -/

def firstByte (c : Chunk) : Nat := (c.1.headD 0).toNat

lemma firstByte_lt (c : Chunk) : firstByte c < 256 := (c.1.headD 0).isLt

/-- All bytes are the first one of the left chunk plus one. -/
def levelHash (a _ : Chunk) : Chunk :=
  ⟨List.replicate BYTES_PER_CHUNK (BitVec.ofNat 8 (firstByte a + 1)), List.length_replicate⟩

@[simp] lemma firstByte_levelHash (a b : Chunk) : firstByte (levelHash a b) = (firstByte a + 1) % 256 := rfl

lemma firstByte_sparseRoot (z : Nat → Chunk) (d : Nat) {leaves : List Chunk} (hne : leaves ≠ []) :
    firstByte (sparseRoot levelHash z d leaves) = (firstByte (leaves.head hne) + d) % 256 := by
  induction d generalizing leaves with
  | zero =>
    obtain ⟨a, as, rfl⟩ := List.exists_cons_of_ne_nil hne
    exact (Nat.mod_eq_of_lt (firstByte_lt a)).symm
  | succ d ih =>
    rw [sparseRoot_of_ne_nil levelHash z d hne, firstByte_levelHash, ih (take_two_pow_ne_nil hne d),
      List.head_take]
    omega

lemma firstByte_zeroRoot (d : Nat) : firstByte (zeroRoot levelHash zeroHash d) = d % 256 := by
  induction d with
  | zero => rfl
  | succ d ih =>
    rw [zeroRoot, firstByte_levelHash, ih]
    omega

/-- The table ends before the count wraps. -/
lemma firstByte_zeroNode_lt (d : Nat) : firstByte (zeroNode levelHash d) < 42 := by
  rcases Nat.lt_or_ge d 42 with hlt | hge
  · rw [zeroNode_eq_zeroRoot levelHash hlt, firstByte_zeroRoot]
    omega
  · have hlen : (zeroHashArray levelHash).length ≤ d := by
      rw [zeroHashArray, List.length_iterate]
      exact hge
    rw [zeroNode, List.getD_eq_default _ _ hlen]
    decide

/-- The limit of the type and the length make a difference at every depth. -/
lemma vectorRoot_levelHash_ne {limit : Nat} (hlimit : limit ≤ 2 ^ 64) {leaves : List Chunk}
    (hle : leaves.length ≤ limit) (length : Chunk) :
    vectorRoot levelHash 0 leaves ≠ levelHash (vectorRoot levelHash limit leaves) length := by
  intro h
  have hbyte := congrArg firstByte h
  rw [firstByte_levelHash] at hbyte
  by_cases hne : leaves = []
  · have hzero : treeDepth 0 ([] : List Chunk).length = 0 := rfl
    have hlt := firstByte_zeroNode_lt (treeDepth limit ([] : List Chunk).length)
    have hfirst : firstByte (zeroNode levelHash 0) = 0 := rfl
    rw [hne, vectorRoot, vectorRoot, sparseRoot_nil, sparseRoot_nil, hzero, hfirst] at hbyte
    omega
  · have hpos := List.length_pos_of_ne_nil hne
    have hshallow : treeDepth 0 leaves.length = Nat.clog 2 leaves.length := log2ceil_eq_clog _
    have hdeep : treeDepth limit leaves.length = Nat.clog 2 limit := by
      rw [treeDepth, if_neg (by omega), log2ceil_eq_clog]
    have hmono : Nat.clog 2 leaves.length ≤ Nat.clog 2 limit := Nat.clog_mono_right 2 hle
    have hbound : Nat.clog 2 limit ≤ 64 := Nat.clog_le_of_le_pow hlimit
    rw [vectorRoot, vectorRoot, firstByte_sparseRoot _ _ hne, firstByte_sparseRoot _ _ hne, hshallow,
      hdeep] at hbyte
    omega

/-! ### The two calls -/

lemma listLimit_le {e : SszType α} {n : Nat} (h : n < 2 ^ 64) : listLimit e.basicLayout n ≤ 2 ^ 64 := by
  cases e with
  | basic b =>
    change (n * b.sizeof + 31) % 2 ^ 64 / 32 ≤ 2 ^ 64
    omega
  | _ => exact le_of_lt h

lemma limitsFit_basic {b : BasicType} {n : Nat} (h : n * b.sizeof + 31 < 2 ^ 64) (v : List b.Val) :
    (SszType.list (.basic b) n).LimitsFit v := by
  refine ⟨?_, fun _ _ => trivial⟩
  rintro l ⟨⟩
  exact h

/-- What the two calls return for a list, from the same leaves. -/
lemma SszType.exists_listLeaves (P : Platform) {e : SszType α} {n : Nat} {v : List α}
    (hwithin : (SszType.list e n).WithinLimits v) (hfit : (SszType.list e n).LimitsFit v) :
    ∃ leaves : List Chunk, leaves.length ≤ listLimit e.basicLayout n ∧ ∀ s cpuCount,
      Returns ((SszType.list e n).hashTreeRootValue P s v cpuCount) (vectorRoot P.hashtreeHash 0 leaves) ∧
      Returns ((SszType.list e n).hashTreeRoot P s v cpuCount zeroHash)
        (P.hashtreeHash (vectorRoot P.hashtreeHash (listLimit e.basicLayout n) leaves)
          (Chunk.ofBytes (leBytes 8 v.length))) := by
  obtain ⟨f, hroot, hvalue⟩ := SszType.exists_elementRoots (K := fun _ => True) P fun x hx =>
    SszType.exists_root P (fun _ _ => trivial) e x (hwithin.2 x hx) (hfit.2 x hx) (.inl fun _ => trivial)
  have hle := length_leavesOf_le e.basicLayout f hwithin.1
  rw [← listLimit_eq hfit.1] at hle
  refine ⟨leavesOf e.basicLayout f v, hle, fun s cpuCount => ⟨?_, ?_⟩⟩
  · exact (SszType.yields_range P (fun x hx => hroot x hx s 1) hvalue s cpuCount
      ⟨.inl rfl, fun _ _ => trivial⟩).returns
  · exact ((SszType.yields_range P (fun x hx => hroot x hx s 1) hvalue s cpuCount
      ⟨.inr hle, fun _ _ => trivial⟩).bind (yields_mixInLength P.hashtreeHash _ v.length)).returns

lemma SszType.result_list_ne {e : SszType α} {n : Nat} (hn : n < 2 ^ 64) {v : List α}
    (hwithin : (SszType.list e n).WithinLimits v) (hfit : (SszType.list e n).LimitsFit v)
    (hardwareConcurrency : Nat) (s : Schedule) (cpuCount : Nat) :
    result ((SszType.list e n).hashTreeRootValue ⟨levelHash, hardwareConcurrency⟩ s v cpuCount) ≠
      result ((SszType.list e n).hashTreeRoot ⟨levelHash, hardwareConcurrency⟩ s v cpuCount zeroHash) := by
  obtain ⟨leaves, hle, hreturns⟩ := SszType.exists_listLeaves ⟨levelHash, hardwareConcurrency⟩ hwithin hfit
  obtain ⟨hvalue, hinPlace⟩ := hreturns s cpuCount
  rw [hvalue.result_eq, hinPlace.result_eq]
  intro h
  injection h with h
  exact vectorRoot_levelHash_ne (listLimit_le hn) hle (Chunk.ofBytes (leBytes 8 v.length)) h

/-- The returning call agrees with the in-place call for every pair hash exactly on the types that are
not lists. -/
theorem hashTreeRootValue_eq_iff (τ : SszType α) (hcall : τ.HasValueCall) {v : α}
    (hwithin : τ.WithinLimits v) (hfit : τ.isList = true → τ.LimitsFit v) (hardwareConcurrency : Nat)
    (s : Schedule) (cpuCount : Nat) :
    (∀ H : PairHash, result (τ.hashTreeRootValue ⟨H, hardwareConcurrency⟩ s v cpuCount) =
      result (τ.hashTreeRoot ⟨H, hardwareConcurrency⟩ s v cpuCount zeroHash)) ↔ τ.isList = false := by
  cases τ with
  | list e n =>
    simp only [SszType.isList, Bool.true_eq_false, iff_false]
    intro hall
    exact SszType.result_list_ne hcall.2 hwithin (hfit rfl) hardwareConcurrency s cpuCount (hall levelHash)
  | bitlist n => exact hcall.elim
  | bitset n => exact hcall.elim
  | _ => exact ⟨fun _ => rfl, fun _ _ => rfl⟩

theorem hashTreeRootValue_eq_iff_sample :
    (∀ H : PairHash, result ((SszType.list (.basic .uint16) 3).hashTreeRootValue ⟨H, 4⟩ (fun _ => true) [1, 2] 0) =
      result ((SszType.list (.basic .uint16) 3).hashTreeRoot ⟨H, 4⟩ (fun _ => true) [1, 2] 0 zeroHash)) ↔
      (SszType.list (.basic .uint16) 3).isList = false :=
  hashTreeRootValue_eq_iff (.list (.basic .uint16) 3) (v := [1, 2]) ⟨rfl, by decide⟩
    ⟨by decide, fun _ _ => trivial⟩ (fun _ => limitsFit_basic (by decide) [1, 2]) 4 (fun _ => true) 0

/-- A list of one byte. -/
theorem hashTreeRootValue_list_ne :
    result ((SszType.list (.basic .uint8) 4).hashTreeRootValue ⟨levelHash, 1⟩ (fun _ => false) [1] 1) ≠
      result ((SszType.list (.basic .uint8) 4).hashTreeRoot ⟨levelHash, 1⟩ (fun _ => false) [1] 1 zeroHash) :=
  SszType.result_list_ne (e := .basic .uint8) (n := 4) (v := [1]) (by decide) ⟨by decide, fun _ _ => trivial⟩
    (limitsFit_basic (by decide) [1]) 1 (fun _ => false) 1

end Sszpp
