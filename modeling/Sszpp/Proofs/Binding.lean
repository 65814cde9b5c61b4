import Sszpp.Proofs.Root

/-!
# List roots are binding

Two different lists with one root exhibit a collision of the pair hash. Lists of different lengths
differ in the block of the length; for one length the packing is injective and the two trees have
one shape.
-/

namespace Sszpp

open Library

variable {α : Type}

/-! ### Packing is injective -/

lemma BasicLayout.toBytes_injective (layout : BasicLayout α) : Function.Injective layout.toBytes := by
  intro x y h
  have hx := layout.load_toBytes x []
  rw [h, layout.load_toBytes y []] at hx
  injection hx with hx
  exact hx.symm

/-- The last chunk is completed with zeros only. -/
lemma take_bytesOf_chunksOf (bytes : Bytes) : (bytesOf (chunksOf bytes)).take bytes.length = bytes := by
  induction hlen : bytes.length using Nat.strong_induction_on generalizing bytes with
  | _ len ih =>
    subst hlen
    by_cases hne : bytes = []
    · rw [hne]
      rfl
    · have hpos := List.length_pos_of_ne_nil hne
      rw [chunksOf_of_ne_nil hne, bytesOf_cons]
      rcases Nat.lt_or_ge bytes.length 32 with hlt | hge
      · rw [Chunk.val_ofBytes (le_of_lt hlt), List.append_assoc, List.take_left]
      · have hdrop : (bytes.drop 32).length = bytes.length - 32 := List.length_drop
        have htail := ih (bytes.length - 32) (by omega) (bytes.drop 32) hdrop
        rw [List.take_append, Chunk.length, htail, Chunk.val_ofBytes_of_le hge, List.take_take,
          Nat.min_eq_right hge, List.take_append_drop]

lemma chunksOf_injective {xs ys : Bytes} (hlen : xs.length = ys.length)
    (h : chunksOf xs = chunksOf ys) : xs = ys := by
  rw [← take_bytesOf_chunksOf xs, ← take_bytesOf_chunksOf ys, h, hlen]

/-- The chunk that is mixed in. -/
def lengthChunk (n : Nat) : Chunk := Chunk.ofBytes (leBytes 8 n)

lemma lengthChunk_injective {m n : Nat} (hm : m < 2 ^ 64) (hn : n < 2 ^ 64)
    (h : lengthChunk m = lengthChunk n) : m = n := by
  have hval : ∀ k, (lengthChunk k).1 = leBytes 8 k ++ zeros 24 := by
    intro k
    have hlen : (leBytes 8 k).length ≤ 32 := by rw [length_leBytes]; decide
    rw [lengthChunk, Chunk.val_ofBytes hlen, length_leBytes]
  have hbytes := congrArg Subtype.val h
  rw [hval, hval] at hbytes
  have hdigits := congrArg leNat (List.append_cancel_right hbytes)
  rwa [leNat_leBytes_of_lt hm, leNat_leBytes_of_lt hn] at hdigits

/-! ### Two trees and their lengths -/

/-- The blocks hashed for leaves and a length. -/
def mixedBlocks (H : PairHash) (limit : Nat) (leaves : List Chunk) (length : Nat) : List (Chunk × Chunk) :=
  vectorBlocks H limit leaves ++ [(vectorRoot H limit leaves, lengthChunk length)]

lemma exists_mixedCollision (H : PairHash) {limit m n : Nat} {xs ys : List Chunk}
    (hm : m < 2 ^ 64) (hn : n < 2 ^ 64) (hlimit : limit = 0 ∨ xs.length ≤ limit)
    (hlen : m = n → xs.length = ys.length) (hne : m = n → xs ≠ ys)
    (hroot : H (vectorRoot H limit xs) (lengthChunk m) = H (vectorRoot H limit ys) (lengthChunk n)) :
    ∃ p ∈ mixedBlocks H limit xs m, ∃ q ∈ mixedBlocks H limit ys n, p ≠ q ∧ H p.1 p.2 = H q.1 q.2 := by
  by_cases htop : (vectorRoot H limit xs, lengthChunk m) = (vectorRoot H limit ys, lengthChunk n)
  · obtain ⟨htree, hlength⟩ := Prod.mk.inj htop
    have hmn := lengthChunk_injective hm hn hlength
    have hcount := hlen hmn
    rw [vectorRoot, vectorRoot, ← hcount] at htree
    obtain ⟨p, hp, q, hq, hpq⟩ :=
      exists_collision H (zeroNode H) hcount (le_two_pow_treeDepth hlimit) (hne hmn) htree
    refine ⟨p, List.mem_append_left _ hp, q, List.mem_append_left _ ?_, hpq⟩
    rwa [vectorBlocks, ← hcount]
  · exact ⟨_, List.mem_append_right _ (List.mem_singleton_self _), _,
      List.mem_append_right _ (List.mem_singleton_self _), htop, hroot⟩

lemma Yields.collision {H : PairHash} {K : Nat → Prop} {limit m n : Nat} {xs ys : List Chunk}
    {x y : Hashing Chunk} {root : Chunk} {events events' : List Event}
    (hx : Yields K x (H (vectorRoot H limit xs) (lengthChunk m)) (mixedBlocks H limit xs m))
    (hy : Yields K y (H (vectorRoot H limit ys) (lengthChunk n)) (mixedBlocks H limit ys n))
    (hrun : x.run = .ok (root, events)) (hrun' : y.run = .ok (root, events'))
    (hm : m < 2 ^ 64) (hn : n < 2 ^ 64) (hlimit : limit = 0 ∨ xs.length ≤ limit)
    (hlen : m = n → xs.length = ys.length) (hne : m = n → xs ≠ ys) :
    ∃ p q : Chunk × Chunk, .digest p.1 p.2 ∈ events ∧ .digest q.1 q.2 ∈ events' ∧ p ≠ q ∧
      H p.1 p.2 = H q.1 q.2 := by
  obtain ⟨hashed, hok, -, hblocks⟩ := hx
  obtain ⟨hashed', hok', -, hblocks'⟩ := hy
  obtain ⟨rfl, rfl⟩ := Prod.mk.inj (Except.ok.inj (hrun.symm.trans hok))
  obtain ⟨hroot, rfl⟩ := Prod.mk.inj (Except.ok.inj (hrun'.symm.trans hok'))
  obtain ⟨p, hp, q, hq, hpq⟩ := exists_mixedCollision H hm hn hlimit hlen hne hroot
  exact ⟨p, q, hblocks p hp, hblocks' q hq, hpq⟩

/-! ### Lists -/

variable (P : Platform)

lemma yields_basicList (s : Schedule) {b : BasicType} {n : Nat} (hn : chunkLimit (some b.layout) n ≤ 2 ^ 41)
    {v : List b.Val} (hle : v.length ≤ n) (cpuCount : Nat) :
    Yields (fun _ => True) ((SszType.list (.basic b) n).hashTreeRoot P s v cpuCount zeroHash)
      (P.hashtreeHash (vectorRoot P.hashtreeHash (listLimit (some b.layout) n) (chunksOf (v.flatMap b.toBytes)))
        (lengthChunk v.length))
      (mixedBlocks P.hashtreeHash (listLimit (some b.layout) n) (chunksOf (v.flatMap b.toBytes)) v.length) := by
  have hcount := length_leavesOf_le_listLimit hn (fun _ => zeroHash) hle
  have htree := yields_basicVector (K := fun _ => True) P s cpuCount b.layout_packs v
    ⟨.inr hcount, fun _ _ => trivial⟩
  exact htree.bind (yields_mixInLength P.hashtreeHash _ v.length)

lemma yields_bitlist (s : Schedule) {n : Nat} (hn : (n + 255) / 256 ≤ 2 ^ 41) {v : List Bool} (hle : v.length ≤ n)
    (cpuCount : Nat) :
    Yields (fun _ => True) ((SszType.bitlist n).hashTreeRoot P s v cpuCount zeroHash)
      (P.hashtreeHash (vectorRoot P.hashtreeHash (bitLimit n) (chunksOf (packBits v))) (lengthChunk v.length))
      (mixedBlocks P.hashtreeHash (bitLimit n) (chunksOf (packBits v)) v.length) := by
  have hser : (SszType.bitlist n).serialize v = .ok (packBits (v ++ [true])) :=
    (SszType.bitlist n).serialize_eq_of_fits trivial v trivial
  have htree := yields_bytes (K := fun _ => True) P s cpuCount (packBits v)
    ⟨.inr (length_chunksOf_packBits_le_bitLimit hn hle), fun _ _ => trivial⟩
  exact (yields_lift hser).bind ((yields_lift (removeDelimiter_packBits v)).bind
    (htree.bind (yields_mixInLength P.hashtreeHash _ v.length)))

/-- Lists of integers and of bits. -/
def SszType.isScalarList {α : Type} : SszType α → Bool
  | .list (.basic _) _ => true
  | .bitlist _ => true
  | _ => false

/-- Two different lists whose in-place calls return one root hash two different blocks to one chunk. -/
theorem root_binding (τ : SszType α) (hlist : τ.isScalarList = true) (htrees : τ.treesBounded = true)
    {x y : α} (hx : τ.WithinLimits x) (hy : τ.WithinLimits y) (hne : x ≠ y) (s s' : Schedule)
    (cpuCount cpuCount' : Nat) {root : Chunk} {events events' : List Event}
    (hrun : (τ.hashTreeRoot P s x cpuCount zeroHash).run = .ok (root, events))
    (hrun' : (τ.hashTreeRoot P s' y cpuCount' zeroHash).run = .ok (root, events')) :
    ∃ p q : Chunk × Chunk, .digest p.1 p.2 ∈ events ∧ .digest q.1 q.2 ∈ events' ∧ p ≠ q ∧
      P.hashtreeHash p.1 p.2 = P.hashtreeHash q.1 q.2 := by
  cases τ with
  | list e n =>
    cases e with
    | basic b =>
      simp only [SszType.treesBounded, Bool.and_true, decide_eq_true_iff] at htrees
      have hlt : ∀ {v : List b.Val}, v.length ≤ n → v.length < 2 ^ 64 := fun hle =>
        lt_of_chunkLimit_le hle htrees fun _ hl => by
          cases hl
          exact b.sizeof_pos
      have hbytes : x.length = y.length → (x.flatMap b.toBytes).length = (y.flatMap b.toBytes).length := by
        intro hlen
        rw [length_flatMap_const _ _ fun v _ => b.length_toBytes v,
          length_flatMap_const _ _ fun v _ => b.length_toBytes v, hlen]
      refine (yields_basicList P s htrees hx.1 cpuCount).collision (yields_basicList P s' htrees hy.1 cpuCount')
        hrun hrun' (hlt hx.1) (hlt hy.1) (.inr (length_leavesOf_le_listLimit htrees (fun _ => zeroHash) hx.1))
        (fun hlen => ?_) (fun hlen hleaves => hne ?_)
      · rw [length_chunksOf, length_chunksOf, hbytes hlen]
      · exact flatMap_injective b.sizeof_pos b.length_toBytes b.layout.toBytes_injective
          (chunksOf_injective (hbytes hlen) hleaves)
    | _ => cases hlist
  | bitlist n =>
    simp only [SszType.treesBounded, decide_eq_true_iff] at htrees
    have hlt : ∀ {v : List Bool}, v.length ≤ n → v.length < 2 ^ 64 := fun hle => by omega
    have hbytes : x.length = y.length → (packBits x).length = (packBits y).length := by
      intro hlen
      rw [length_packBits, length_packBits, hlen]
    refine (yields_bitlist P s htrees hx cpuCount).collision (yields_bitlist P s' htrees hy cpuCount')
      hrun hrun' (hlt hx) (hlt hy) (.inr (length_chunksOf_packBits_le_bitLimit htrees hx))
      (fun hlen => ?_) (fun hlen hleaves => hne ?_)
    · rw [length_chunksOf, length_chunksOf, hbytes hlen]
    · exact packBits_injective hlen (chunksOf_injective (hbytes hlen) hleaves)
  | _ => cases hlist

/-- Two lists that differ by a trailing zero, under a hash without any security. -/
theorem root_binding_sample :
    ∃ events events', ∃ p q : Chunk × Chunk,
      ((SszType.list (.basic .uint8) 40).hashTreeRoot ⟨fun _ _ => zeroHash, 1⟩ (fun _ => true) [1] 0 zeroHash).run =
        .ok (zeroHash, events) ∧
      ((SszType.list (.basic .uint8) 40).hashTreeRoot ⟨fun _ _ => zeroHash, 1⟩ (fun _ => true) [1, 0] 3
        zeroHash).run = .ok (zeroHash, events') ∧
      .digest p.1 p.2 ∈ events ∧ .digest q.1 q.2 ∈ events' ∧ p ≠ q := by
  have hbounded : (SszType.list (.basic .uint8) 40).treesBounded = true := by decide
  have hx : (SszType.list (.basic .uint8) 40).WithinLimits [1] := ⟨by decide, fun _ _ => trivial⟩
  have hy : (SszType.list (.basic .uint8) 40).WithinLimits [1, 0] := ⟨by decide, fun _ _ => trivial⟩
  obtain ⟨events, hrun⟩ := SszType.returns_root ⟨fun _ _ => zeroHash, 1⟩ _ hx
    (SszType.treesWithin_of_bounded _ hbounded _) (fun _ => true) 0
  obtain ⟨events', hrun'⟩ := SszType.returns_root ⟨fun _ _ => zeroHash, 1⟩ _ hy
    (SszType.treesWithin_of_bounded _ hbounded _) (fun _ => true) 3
  obtain ⟨p, q, hp, hq, hpq, -⟩ :=
    root_binding _ _ rfl hbounded hx hy (by simp) _ _ _ _ hrun hrun'
  exact ⟨events, events', p, q, hrun, hrun', hp, hq, hpq⟩

end Sszpp
