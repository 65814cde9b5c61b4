import Sszpp.Proofs.Binding

/-!
# The root commits to the whole object

Lists of scalars are bound by their roots; so is every object of every type. Where two ranges have the
same leaves, two of their elements have the same root, and the collision is inside the trees of these.
A parallel run hashes an element on some branch of its splits, whichever that is.
-/

namespace Sszpp

open Library

variable {α β : Type}

/-! ### Blocks that every run hashes -/

/-- Every run that returns has hashed the block. -/
def Logs (x : Hashing α) (p : Chunk × Chunk) : Prop :=
  ∀ a events, x.run = .ok (a, events) → .digest p.1 p.2 ∈ events

section Rules

variable {x : Hashing α} {f : α → Hashing β} {p : Chunk × Chunk}

lemma Logs.bind_left (h : Logs x p) : Logs (x >>= f) p := by
  intro b events hrun
  obtain ⟨a, first, second, hx, -, rfl⟩ := run_bind_eq_ok hrun
  exact List.mem_append_left _ (h a first hx)

lemma Logs.bind_right (h : ∀ a, Logs (f a) p) : Logs (x >>= f) p := by
  intro b events hrun
  obtain ⟨a, first, second, -, hf, rfl⟩ := run_bind_eq_ok hrun
  exact List.mem_append_right _ (h a b second hf)

lemma Yields.logs {K : Nat → Prop} {a : α} {blocks : List (Chunk × Chunk)} (h : Yields K x a blocks)
    (hp : p ∈ blocks) : Logs x p := by
  intro b events hrun
  obtain ⟨hashed, hok, -, hblocks⟩ := h
  obtain ⟨-, rfl⟩ := Prod.mk.inj (Except.ok.inj (hrun.symm.trans hok))
  exact hblocks p hp

/-- A function returns one value. -/
lemma Yields.value_eq {K K' : Nat → Prop} {a b : α} {blocks blocks' : List (Chunk × Chunk)}
    (h : Yields K x a blocks) (h' : Yields K' x b blocks') : a = b := by
  obtain ⟨events, hrun, -, -⟩ := h
  obtain ⟨events', hrun', -, -⟩ := h'
  exact (Prod.mk.inj (Except.ok.inj (hrun.symm.trans hrun'))).1

end Rules

/-- The roots of all elements are computed one after another. -/
lemma logs_elementRoots {root : α → Hashing Chunk} {p : Chunk × Chunk} {v : α} {r : List α} (hv : v ∈ r)
    (h : Logs (root v) p) : Logs (elementRoots root r) p := by
  induction r with
  | nil => cases hv
  | cons w ws ih =>
    rcases List.mem_cons.mp hv with rfl | hmem
    · exact h.bind_left
    · exact Logs.bind_right fun c => (ih hmem).bind_left

/-- What the serial path hashes for an element is hashed on the branch that the element is on. -/
lemma logs_hashVector (P : Platform) {threshold : Nat} {chunkSize : Nat → Nat}
    {serial : List α → Nat → Hashing Chunk} {p : Chunk × Chunk} {v : α}
    (hserial : ∀ r, v ∈ r → ∀ limit, Logs (serial r limit) p) (s : Schedule) {r : List α} (hv : v ∈ r)
    (cpuCount limit : Nat) : Logs (hashVector P threshold chunkSize serial s r cpuCount limit) p := by
  induction hcpus : P.cpus cpuCount using Nat.strong_induction_on generalizing s r cpuCount limit with
  | _ cpus ih =>
    rw [hashVector, hcpus]
    by_cases hserially : cpus < 2 ∨ r.length < threshold
    · rw [if_pos hserially]
      exact hserial r hv limit
    · rw [if_neg hserially]
      rw [not_or, not_lt, not_lt] at hserially
      apply Logs.bind_left
      rw [← List.take_append_drop (bitCeil r.length / 2) r, List.mem_append] at hv
      rcases hv with hfirst | hlast
      · have hleft := ih _ (P.cpus_half_lt hserially.1) s.first hfirst (cpus / 2)
          (chunkSize (bitCeil r.length / 2)) rfl
        split
        · exact Logs.bind_right fun _ => hleft.bind_left
        · exact hleft.bind_left
      · have hright := ih _ (P.cpus_half_lt hserially.1) s.second hlast (cpus / 2)
          (chunkSize (bitCeil r.length / 2)) rfl
        split
        · exact hright.bind_left
        · exact Logs.bind_right fun _ => hright.bind_left

/-! ### Collisions -/

/-- A call with its schedule and its number of threads left open. -/
abbrev Call (α : Type) := Schedule → Nat → Hashing α

/-- Two different blocks with one hash, the first hashed by every run of one call and the second by
every run of the other. -/
def Collide (H : PairHash) (X : Call α) (Y : Call β) : Prop :=
  ∃ p q : Chunk × Chunk, (∀ s cpuCount, Logs (X s cpuCount) p) ∧ (∀ s cpuCount, Logs (Y s cpuCount) q) ∧
    p ≠ q ∧ H p.1 p.2 = H q.1 q.2

/-- A call that runs another one hashes what that one hashes. -/
def Includes (X : Call α) (X' : Call β) : Prop :=
  ∀ p, (∀ s cpuCount, Logs (X' s cpuCount) p) → ∀ s cpuCount, Logs (X s cpuCount) p

lemma Collide.mono {H : PairHash} {X Y : Call α} {X' Y' : Call β} (h : Collide H X' Y')
    (hX : Includes X X') (hY : Includes Y Y') : Collide H X Y := by
  obtain ⟨p, q, hp, hq, hpq⟩ := h
  exact ⟨p, q, hX p hp, hY q hq, hpq⟩

lemma Collide.of_blocks {H : PairHash} {K : Nat → Prop} {X Y : Call α} {a b : α}
    {blocks blocks' : List (Chunk × Chunk)} (hX : ∀ s cpuCount, Yields K (X s cpuCount) a blocks)
    (hY : ∀ s cpuCount, Yields K (Y s cpuCount) b blocks')
    (h : ∃ p ∈ blocks, ∃ q ∈ blocks', p ≠ q ∧ H p.1 p.2 = H q.1 q.2) : Collide H X Y := by
  obtain ⟨p, hp, q, hq, hpq⟩ := h
  exact ⟨p, q, fun s cpuCount => (hX s cpuCount).logs hp, fun s cpuCount => (hY s cpuCount).logs hq, hpq⟩

/-- Equally many different leaves under one root. -/
lemma exists_vectorCollision (H : PairHash) {limit : Nat} {xs ys : List Chunk} (hlen : xs.length = ys.length)
    (hlimit : limit = 0 ∨ xs.length ≤ limit) (hne : xs ≠ ys)
    (hroot : vectorRoot H limit xs = vectorRoot H limit ys) :
    ∃ p ∈ vectorBlocks H limit xs, ∃ q ∈ vectorBlocks H limit ys, p ≠ q ∧ H p.1 p.2 = H q.1 q.2 := by
  rw [vectorRoot, vectorRoot, ← hlen] at hroot
  rw [vectorBlocks, vectorBlocks, ← hlen]
  exact exists_collision H (zeroNode H) hlen (le_two_pow_treeDepth hlimit) hne hroot

/-! ### Ranges -/

variable (P : Platform)

/-- The in-place call into a zeroed chunk. -/
abbrev SszType.rootCall (τ : SszType α) (v : α) : Call Chunk :=
  fun s cpuCount => τ.hashTreeRoot P s v cpuCount zeroHash

abbrev SszType.rangeCall (e : SszType α) (limit : Nat) (vs : List α) : Call Chunk :=
  fun s cpuCount => hashTreeRootRange P s e.basicLayout e.rootBytes
    (fun x => e.hashTreeRoot P s x 1 zeroHash) vs cpuCount limit

lemma SszType.rootBytes_injective {e : SszType α} {rootBytes : α → Bytes}
    (h : e.rootBytes = some rootBytes) : Function.Injective rootBytes := by
  cases e with
  | array e n =>
    cases e with
    | basic b =>
      cases b with
      | byte =>
        simp only [SszType.rootBytes] at h
        split at h
        · cases h
          intro x y hxy
          exact Subtype.ext (flatMap_injective (by decide) (BasicType.length_toBytes _)
            (BasicType.toBytes_injective _) hxy)
        · cases h
      | _ => cases h
    | _ => cases h
  | _ => cases h

/-- Two elements at one position with one root. -/
lemma exists_getElem_ne {f : α → β} {xs ys : List α} (hne : xs ≠ ys) (hmap : xs.map f = ys.map f) :
    ∃ x ∈ xs, ∃ y ∈ ys, x ≠ y ∧ f x = f y := by
  induction xs generalizing ys with
  | nil =>
    obtain rfl : ys = [] := List.map_eq_nil_iff.mp hmap.symm
    exact absurd rfl hne
  | cons x xs ih =>
    cases ys with
    | nil => cases hmap
    | cons y ys =>
      obtain ⟨hhead, htail⟩ := List.cons.inj hmap
      by_cases hxy : x = y
      · have hrest : xs ≠ ys := by
          rintro rfl
          exact hne (by rw [hxy])
        obtain ⟨a, ha, b, hb, hab⟩ := ih hrest htail
        exact ⟨a, List.mem_cons_of_mem _ ha, b, List.mem_cons_of_mem _ hb, hab⟩
      · exact ⟨x, List.mem_cons_self, y, List.mem_cons_self, hxy, hhead⟩

/-- Two ranges with the same leaves have elements that differ with the same root. -/
lemma SszType.leaves_bind {e : SszType α} {vs ws : List α} (hlen : vs.length = ws.length) (hne : vs ≠ ws)
    (hleaves : leavesOf e.basicLayout (e.root P.hashtreeHash) vs =
      leavesOf e.basicLayout (e.root P.hashtreeHash) ws)
    (helem : ∀ x ∈ vs, ∀ y ∈ ws, x ≠ y → e.root P.hashtreeHash x = e.root P.hashtreeHash y →
      Collide P.hashtreeHash (e.rootCall P x) (e.rootCall P y)) (limit : Nat) :
    Collide P.hashtreeHash (e.rangeCall P limit vs) (e.rangeCall P limit ws) := by
  cases hlayout : e.basicLayout with
  | some layout =>
    simp only [hlayout, leavesOf] at hleaves
    have hbytes : (vs.flatMap layout.toBytes).length = (ws.flatMap layout.toBytes).length := by
      rw [length_flatMap_const _ _ fun x _ => layout.length_toBytes x,
        length_flatMap_const _ _ fun x _ => layout.length_toBytes x, hlen]
    exact absurd (flatMap_injective layout.sizeof_pos layout.length_toBytes layout.toBytes_injective
      (chunksOf_injective hbytes hleaves)) hne
  | none =>
    simp only [hlayout, leavesOf] at hleaves
    obtain ⟨x, hx, y, hy, hxy, hroot⟩ := exists_getElem_ne hne hleaves
    have hcollide := helem x hx y hy hxy hroot
    cases hroots : e.rootBytes with
    | some rootBytes =>
      have hfacts := SszType.rootBytes_eq_some hroots
      rw [(hfacts x).2.2, (hfacts y).2.2] at hroot
      have hvalue := congrArg Subtype.val hroot
      rw [Chunk.val_ofBytes_of_le (le_of_eq (hfacts x).1.symm), Chunk.val_ofBytes_of_le (le_of_eq (hfacts y).1.symm),
        List.take_of_length_le (le_of_eq (hfacts x).1), List.take_of_length_le (le_of_eq (hfacts y).1)] at hvalue
      exact absurd (SszType.rootBytes_injective hroots hvalue) hxy
    | none =>
      have hincludes : ∀ {us : List α} {u : α}, u ∈ us → Includes (e.rangeCall P limit us) (e.rootCall P u) := by
        intro us u hu p hp s cpuCount
        simp only [SszType.rangeCall, hlayout, hroots, hashTreeRootRange, hashTreeRootVector]
        refine logs_hashVector P (v := u) (fun r hr limit => ?_) s hu cpuCount limit
        exact (logs_elementRoots hr (hp s 1)).bind_left
      exact hcollide.mono (hincludes hx) (hincludes hy)

/-! ### The induction over types -/

lemma SszType.yields_root {τ : SszType α} (htrees : τ.treesBounded = true) {v : α} (hv : τ.WithinLimits v)
    (s : Schedule) (cpuCount : Nat) :
    Yields (fun _ => True) (τ.rootCall P v s cpuCount) (τ.root P.hashtreeHash v) [] := by
  have hwithin := τ.treesWithin_of_bounded htrees v
  obtain ⟨c, hyields, hvalue⟩ :=
    SszType.exists_root (K := fun _ => True) P (fun _ _ => trivial) τ v hv hwithin.limitsFit (.inr hwithin)
  rw [← hvalue hwithin]
  exact hyields s cpuCount

/-- The tree over a range, with the blocks of its top. -/
lemma SszType.yields_rangeCall {e : SszType α} (htrees : e.treesBounded = true) {vs : List α}
    (hvs : ∀ x ∈ vs, e.WithinLimits x) {limit : Nat}
    (hlimit : limit = 0 ∨ (leavesOf e.basicLayout (e.root P.hashtreeHash) vs).length ≤ limit)
    (s : Schedule) (cpuCount : Nat) :
    Yields (fun _ => True) (e.rangeCall P limit vs s cpuCount)
      (vectorRoot P.hashtreeHash limit (leavesOf e.basicLayout (e.root P.hashtreeHash) vs))
      (vectorBlocks P.hashtreeHash limit (leavesOf e.basicLayout (e.root P.hashtreeHash) vs)) := by
  exact SszType.yields_range P (fun x hx => SszType.yields_root P htrees (hvs x hx) s 1) (fun _ _ _ => rfl) s
    cpuCount ⟨hlimit, fun _ _ => trivial⟩

/-- Different ranges of one length under one root. -/
lemma SszType.range_binds {e : SszType α} (htrees : e.treesBounded = true) {vs ws : List α}
    (hlen : vs.length = ws.length) (hne : vs ≠ ws) (hvs : ∀ x ∈ vs, e.WithinLimits x)
    (hws : ∀ x ∈ ws, e.WithinLimits x)
    (helem : ∀ x ∈ vs, ∀ y ∈ ws, x ≠ y → e.root P.hashtreeHash x = e.root P.hashtreeHash y →
      Collide P.hashtreeHash (e.rootCall P x) (e.rootCall P y)) {limit : Nat}
    (hlimit : limit = 0 ∨ (leavesOf e.basicLayout (e.root P.hashtreeHash) vs).length ≤ limit)
    (hroot : vectorRoot P.hashtreeHash limit (leavesOf e.basicLayout (e.root P.hashtreeHash) vs) =
      vectorRoot P.hashtreeHash limit (leavesOf e.basicLayout (e.root P.hashtreeHash) ws)) :
    Collide P.hashtreeHash (e.rangeCall P limit vs) (e.rangeCall P limit ws) := by
  have hcount : (leavesOf e.basicLayout (e.root P.hashtreeHash) vs).length =
      (leavesOf e.basicLayout (e.root P.hashtreeHash) ws).length := by
    cases hlayout : e.basicLayout with
    | some layout =>
      rw [leavesOf, leavesOf, length_chunksOf, length_chunksOf,
        length_flatMap_const _ _ fun x _ => layout.length_toBytes x,
        length_flatMap_const _ _ fun x _ => layout.length_toBytes x, hlen]
    | none => rw [leavesOf, leavesOf, List.length_map, List.length_map, hlen]
  by_cases hleaves : leavesOf e.basicLayout (e.root P.hashtreeHash) vs =
      leavesOf e.basicLayout (e.root P.hashtreeHash) ws
  · exact SszType.leaves_bind P hlen hne hleaves helem limit
  · exact .of_blocks (SszType.yields_rangeCall P htrees hvs hlimit)
      (SszType.yields_rangeCall P htrees hws (by rwa [← hcount]))
      (exists_vectorCollision P.hashtreeHash hcount hlimit hleaves hroot)

/-- Different lists under one root: their lengths or their elements differ. -/
lemma SszType.list_binds {e : SszType α} {n : Nat} (hn : chunkLimit e.basicLayout n ≤ 2 ^ 41)
    (htrees : e.treesBounded = true) {vs ws : List α} (hne : vs ≠ ws)
    (hvs : (SszType.list e n).WithinLimits vs) (hws : (SszType.list e n).WithinLimits ws)
    (helem : ∀ x ∈ vs, ∀ y ∈ ws, x ≠ y → e.root P.hashtreeHash x = e.root P.hashtreeHash y →
      Collide P.hashtreeHash (e.rootCall P x) (e.rootCall P y))
    (hroot : (SszType.list e n).root P.hashtreeHash vs = (SszType.list e n).root P.hashtreeHash ws) :
    Collide P.hashtreeHash ((SszType.list e n).rootCall P vs) ((SszType.list e n).rootCall P ws) := by
  have hbounded : (SszType.list e n).treesBounded = true := by
    simp only [SszType.treesBounded, hn, decide_true, htrees, Bool.and_self]
  have hpos : ∀ layout, e.basicLayout = some layout → 0 < layout.sizeof := fun layout _ => layout.sizeof_pos
  have hlt : ∀ {us : List α}, us.length ≤ n → us.length < 2 ^ 64 := fun hle => lt_of_chunkLimit_le hle hn hpos
  have hle : ∀ {us : List α}, us.length ≤ n → listLimit e.basicLayout n = 0 ∨
      (leavesOf e.basicLayout (e.root P.hashtreeHash) us).length ≤ listLimit e.basicLayout n :=
    fun hus => .inr (length_leavesOf_le_listLimit hn _ hus)
  have hcall : ∀ {us : List α}, (SszType.list e n).WithinLimits us → ∀ s cpuCount,
      Yields (fun _ => True) ((SszType.list e n).rootCall P us s cpuCount)
        (P.hashtreeHash (vectorRoot P.hashtreeHash (listLimit e.basicLayout n)
          (leavesOf e.basicLayout (e.root P.hashtreeHash) us)) (lengthChunk us.length))
        (mixedBlocks P.hashtreeHash (listLimit e.basicLayout n)
          (leavesOf e.basicLayout (e.root P.hashtreeHash) us) us.length) := fun hus s cpuCount =>
    (SszType.yields_rangeCall P htrees hus.2 (hle hus.1) s cpuCount).bind
      (yields_mixInLength P.hashtreeHash _ _)
  rw [(SszType.yields_root P hbounded hvs (fun _ => true) 0).value_eq (hcall hvs (fun _ => true) 0),
    (SszType.yields_root P hbounded hws (fun _ => true) 0).value_eq (hcall hws (fun _ => true) 0)] at hroot
  by_cases htop : (vectorRoot P.hashtreeHash (listLimit e.basicLayout n)
        (leavesOf e.basicLayout (e.root P.hashtreeHash) vs), lengthChunk vs.length) =
      (vectorRoot P.hashtreeHash (listLimit e.basicLayout n)
        (leavesOf e.basicLayout (e.root P.hashtreeHash) ws), lengthChunk ws.length)
  · obtain ⟨htree, hlength⟩ := Prod.mk.inj htop
    have hlen := lengthChunk_injective (hlt hvs.1) (hlt hws.1) hlength
    have hincludes : ∀ us : List α, Includes ((SszType.list e n).rootCall P us)
        (e.rangeCall P (listLimit e.basicLayout n) us) := fun us p hp s cpuCount => (hp s cpuCount).bind_left
    exact (SszType.range_binds P htrees hlen hne hvs.2 hws.2 helem (hle hvs.1) htree).mono (hincludes vs)
      (hincludes ws)
  · exact .of_blocks (hcall hvs) (hcall hws) ⟨_, List.mem_append_right _ (List.mem_singleton_self _), _,
      List.mem_append_right _ (List.mem_singleton_self _), htop, hroot⟩

/-- Different bit sequences under one root. -/
lemma bitlist_binds {n : Nat} (hn : (n + 255) / 256 ≤ 2 ^ 41) {vs ws : List Bool} (hne : vs ≠ ws)
    (hvs : vs.length ≤ n) (hws : ws.length ≤ n)
    (hroot : (SszType.bitlist n).root P.hashtreeHash vs = (SszType.bitlist n).root P.hashtreeHash ws) :
    Collide P.hashtreeHash ((SszType.bitlist n).rootCall P vs) ((SszType.bitlist n).rootCall P ws) := by
  have hbounded : (SszType.bitlist n).treesBounded = true := decide_eq_true hn
  rw [(SszType.yields_root P hbounded hvs (fun _ => true) 0).value_eq (yields_bitlist P _ hn hvs 0),
    (SszType.yields_root P hbounded hws (fun _ => true) 0).value_eq (yields_bitlist P _ hn hws 0)] at hroot
  have hbytes : vs.length = ws.length → (packBits vs).length = (packBits ws).length := fun hlen => by
    rw [length_packBits, length_packBits, hlen]
  refine .of_blocks (fun s => yields_bitlist P s hn hvs) (fun s => yields_bitlist P s hn hws)
    (exists_mixedCollision P.hashtreeHash (by omega) (by omega) (.inr (length_chunksOf_packBits_le_bitLimit hn hvs))
      (fun hlen => ?_) (fun hlen hleaves => hne ?_) hroot)
  · rw [length_chunksOf, length_chunksOf, hbytes hlen]
  · exact packBits_injective hlen (chunksOf_injective (hbytes hlen) hleaves)

lemma bitset_binds {n : Nat} (hn : (n + 255) / 256 ≤ 2 ^ 41) {v w : StdArray Bool n} (hne : v ≠ w)
    (hroot : (SszType.bitset n).root P.hashtreeHash v = (SszType.bitset n).root P.hashtreeHash w) :
    Collide P.hashtreeHash ((SszType.bitset n).rootCall P v) ((SszType.bitset n).rootCall P w) := by
  have hbounded : (SszType.bitset n).treesBounded = true := decide_eq_true hn
  have hcall : ∀ (u : StdArray Bool n) s cpuCount, Yields (fun _ => True)
      ((SszType.bitset n).rootCall P u s cpuCount)
      (vectorRoot P.hashtreeHash (bitLimit n) (chunksOf (packBits u.1)))
      (vectorBlocks P.hashtreeHash (bitLimit n) (chunksOf (packBits u.1))) := by
    intro u s cpuCount
    have hser : (SszType.bitset n).serialize u = .ok (packBits u.1) :=
      (SszType.bitset n).serialize_eq_of_fits trivial u trivial
    exact (yields_lift hser).bind (yields_bytes P s cpuCount (packBits u.1)
      ⟨.inr (length_chunksOf_packBits_le_bitLimit hn (le_of_eq u.2)), fun _ _ => trivial⟩)
  rw [(SszType.yields_root P hbounded trivial (fun _ => true) 0).value_eq (hcall v (fun _ => true) 0),
    (SszType.yields_root P hbounded trivial (fun _ => true) 0).value_eq (hcall w (fun _ => true) 0)] at hroot
  have hlen : v.1.length = w.1.length := v.2.trans w.2.symm
  have hbytes : (packBits v.1).length = (packBits w.1).length := by rw [length_packBits, length_packBits, hlen]
  refine .of_blocks (hcall v) (hcall w) (exists_vectorCollision P.hashtreeHash ?_
    (.inr (length_chunksOf_packBits_le_bitLimit hn (le_of_eq v.2))) (fun hleaves => hne (Subtype.ext ?_)) hroot)
  · rw [length_chunksOf, length_chunksOf, hbytes]
  · exact packBits_injective hlen (chunksOf_injective hbytes hleaves)

/-- The calls on the members. -/
abbrev Members.rootsCall (ms : Members α) (v : α) : Call Bytes := fun s cpuCount => ms.memberRoots P s v cpuCount

lemma Members.length_roots : {α : Type} → (ms : Members α) → (v : α) →
    (ms.roots P.hashtreeHash v).length = ms.count
  | _, .nil, _ => rfl
  | _, .cons _ ms, v => by
    have htail := ms.length_roots v.2
    rw [Members.roots, List.length_cons, htail, Members.count]

lemma Members.yields_rootsCall {ms : Members α} (htrees : ms.treesBounded = true) {v : α}
    (hv : ms.WithinLimits v) (s : Schedule) (cpuCount : Nat) :
    Yields (fun _ => True) (ms.rootsCall P v s cpuCount) (bytesOf (ms.roots P.hashtreeHash v)) [] := by
  have hwithin := ms.treesWithin_of_bounded htrees v
  obtain ⟨cs, -, hyields, hvalue⟩ :=
    Members.exists_roots (K := fun _ => True) P (fun _ _ => trivial) ms v hv hwithin.limitsFit (.inr hwithin)
  rw [← hvalue hwithin]
  exact hyields s cpuCount

/-- Different objects of a container under one root, from what its members are bound by. -/
lemma SszType.container_binds {variableSize : Bool} {ms : Members α}
    (htrees : (SszType.container variableSize ms).treesBounded = true) {v w : α} (hv : ms.WithinLimits v)
    (hw : ms.WithinLimits w)
    (hmembers : ms.roots P.hashtreeHash v = ms.roots P.hashtreeHash w →
      Collide P.hashtreeHash (ms.rootsCall P v) (ms.rootsCall P w))
    (hroot : (SszType.container variableSize ms).root P.hashtreeHash v =
      (SszType.container variableSize ms).root P.hashtreeHash w) :
    Collide P.hashtreeHash ((SszType.container variableSize ms).rootCall P v)
      ((SszType.container variableSize ms).rootCall P w) := by
  have hbounded := htrees
  simp only [SszType.treesBounded, Bool.and_eq_true] at hbounded
  have hcall : ∀ {u : α}, ms.WithinLimits u → ∀ s cpuCount, Yields (fun _ => True)
      ((SszType.container variableSize ms).rootCall P u s cpuCount)
      (vectorRoot P.hashtreeHash 0 (ms.roots P.hashtreeHash u))
      (vectorBlocks P.hashtreeHash 0 (ms.roots P.hashtreeHash u)) := by
    intro u hu s cpuCount
    have hbytes := yields_bytes (K := fun _ => True) P s.second cpuCount
      (bytesOf (ms.roots P.hashtreeHash u)) ⟨.inl (rfl : 0 = 0), fun _ _ => trivial⟩
    rw [chunksOf_bytesOf] at hbytes
    exact (Members.yields_rootsCall P hbounded.2 hu s.first cpuCount).bind hbytes
  rw [(SszType.yields_root P htrees hv (fun _ => true) 0).value_eq (hcall hv (fun _ => true) 0),
    (SszType.yields_root P htrees hw (fun _ => true) 0).value_eq (hcall hw (fun _ => true) 0)] at hroot
  by_cases hroots : ms.roots P.hashtreeHash v = ms.roots P.hashtreeHash w
  · have hincludes : ∀ u, Includes ((SszType.container variableSize ms).rootCall P u) (ms.rootsCall P u) :=
      fun u p hp s cpuCount => (hp s.first cpuCount).bind_left
    exact (hmembers hroots).mono (hincludes v) (hincludes w)
  · exact .of_blocks (hcall hv) (hcall hw) (exists_vectorCollision P.hashtreeHash
      (by rw [Members.length_roots, Members.length_roots]) (.inl rfl) hroots hroot)

mutual

/-- Different objects with one root, whatever the type. -/
theorem SszType.root_binds : {α : Type} → (τ : SszType α) → τ.treesBounded = true → {v w : α} →
    τ.WithinLimits v → τ.WithinLimits w → v ≠ w → τ.root P.hashtreeHash v = τ.root P.hashtreeHash w →
    Collide P.hashtreeHash (τ.rootCall P v) (τ.rootCall P w)
  | _, .basic b, _, v, w, _, _, hne, hroot => by
    have hvalue := congrArg Subtype.val hroot
    have hlen : ∀ u : b.Val, (b.toBytes u).length ≤ 32 := fun u => by
      rw [b.length_toBytes]
      cases b <;> decide
    simp only [SszType.root, Chunk.val_ofBytes (hlen _), b.length_toBytes] at hvalue
    exact absurd (b.toBytes_injective (List.append_cancel_right hvalue)) hne
  | _, .array e n, htrees, v, w, hv, hw, hne, hroot => by
    have hbounded := htrees
    simp only [SszType.treesBounded, Bool.and_eq_true] at hbounded
    have hcall : ∀ {u : StdArray _ n}, (SszType.array e n).WithinLimits u → ∀ s cpuCount, Yields (fun _ => True)
        (e.rangeCall P 0 u.1 s cpuCount)
        (vectorRoot P.hashtreeHash 0 (leavesOf e.basicLayout (e.root P.hashtreeHash) u.1))
        (vectorBlocks P.hashtreeHash 0 (leavesOf e.basicLayout (e.root P.hashtreeHash) u.1)) :=
      fun hu => SszType.yields_rangeCall P hbounded.2 hu (.inl rfl)
    rw [(SszType.yields_root P htrees hv (fun _ => true) 0).value_eq (hcall hv (fun _ => true) 0),
      (SszType.yields_root P htrees hw (fun _ => true) 0).value_eq (hcall hw (fun _ => true) 0)] at hroot
    exact SszType.range_binds P hbounded.2 (v.2.trans w.2.symm) (fun h => hne (Subtype.ext h)) hv hw
      (fun x hx y hy hxy h => SszType.root_binds e hbounded.2 (hv x hx) (hw y hy) hxy h) (.inl rfl) hroot
  | _, .vector _, htrees, _, _, _, _, _, _ => by cases htrees
  | _, .list e n, htrees, v, w, hv, hw, hne, hroot => by
    simp only [SszType.treesBounded, Bool.and_eq_true, decide_eq_true_iff] at htrees
    exact SszType.list_binds P htrees.1 htrees.2 hne hv hw
      (fun x hx y hy hxy h => SszType.root_binds e htrees.2 (hv.2 x hx) (hw.2 y hy) hxy h) hroot
  | _, .bitlist _, htrees, _, _, hv, hw, hne, hroot =>
    bitlist_binds P (of_decide_eq_true htrees) hne hv hw hroot
  | _, .bitset _, htrees, _, _, _, _, hne, hroot => bitset_binds P (of_decide_eq_true htrees) hne hroot
  | _, .container _ ms, htrees, v, w, hv, hw, hne, hroot => by
    have hbounded := htrees
    simp only [SszType.treesBounded, Bool.and_eq_true] at hbounded
    exact SszType.container_binds P htrees hv hw
      (fun hroots => Members.roots_bind ms hbounded.2 hv hw hne hroots) hroot

theorem Members.roots_bind : {α : Type} → (ms : Members α) → ms.treesBounded = true → {v w : α} →
    ms.WithinLimits v → ms.WithinLimits w → v ≠ w →
    ms.roots P.hashtreeHash v = ms.roots P.hashtreeHash w →
    Collide P.hashtreeHash (ms.rootsCall P v) (ms.rootsCall P w)
  | _, .nil, _, _, _, _, _, hne, _ => absurd rfl hne
  | _, .cons m ms, htrees, (v, vs), (w, ws), hv, hw, hne, hroots => by
    simp only [Members.treesBounded, Bool.and_eq_true] at htrees
    obtain ⟨hhead, htail⟩ := List.cons.inj hroots
    by_cases hvw : v = w
    · have hrest : vs ≠ ws := by
        rintro rfl
        exact hne (by rw [hvw])
      exact (Members.roots_bind ms htrees.2 hv.2 hw.2 hrest htail).mono
        (fun p hp s cpuCount => Logs.bind_right fun _ => (hp s.second cpuCount).bind_left)
        (fun p hp s cpuCount => Logs.bind_right fun _ => (hp s.second cpuCount).bind_left)
    · exact (SszType.root_binds m htrees.1 hv.1 hw.1 hvw hhead).mono
        (fun p hp s cpuCount => (hp s.first cpuCount).bind_left)
        (fun p hp s cpuCount => (hp s.first cpuCount).bind_left)

end

/-- Two different objects of one type, hashed with any schedules and numbers of threads to one root:
the two runs have hashed two different blocks to one chunk. -/
theorem objects_bound_by_root (τ : SszType α) (htrees : τ.treesBounded = true) {v w : α}
    (hv : τ.WithinLimits v) (hw : τ.WithinLimits w) (hne : v ≠ w) (s s' : Schedule)
    (cpuCount cpuCount' : Nat) {root : Chunk} {events events' : List Event}
    (hrun : (τ.hashTreeRoot P s v cpuCount zeroHash).run = .ok (root, events))
    (hrun' : (τ.hashTreeRoot P s' w cpuCount' zeroHash).run = .ok (root, events')) :
    ∃ p q : Chunk × Chunk, .digest p.1 p.2 ∈ events ∧ .digest q.1 q.2 ∈ events' ∧ p ≠ q ∧
      P.hashtreeHash p.1 p.2 = P.hashtreeHash q.1 q.2 := by
  obtain ⟨hashed, hok, -, -⟩ := SszType.yields_root P htrees hv s cpuCount
  obtain ⟨hashed', hok', -, -⟩ := SszType.yields_root P htrees hw s' cpuCount'
  obtain ⟨hvalue, -⟩ := Prod.mk.inj (Except.ok.inj (hrun.symm.trans hok))
  obtain ⟨hvalue', -⟩ := Prod.mk.inj (Except.ok.inj (hrun'.symm.trans hok'))
  obtain ⟨p, q, hp, hq, hpq⟩ := τ.root_binds P htrees hv hw hne (hvalue.symm.trans hvalue')
  exact ⟨p, q, hp s cpuCount _ _ hrun, hq s' cpuCount' _ _ hrun', hpq⟩

/-- Lists of lists beside a bitlist. -/
def sampleNested : SszType (List (List (BitVec 8)) × List Bool × Unit) :=
  .container true (.cons (.list (.list (.basic .uint8) 4) 4) (.cons (.bitlist 9) .nil))

/-- The lengths of two inner lists are exchanged, under a hash without any security. -/
theorem objects_bound_by_root_sample :
    ∃ events events', ∃ p q : Chunk × Chunk,
      (sampleNested.hashTreeRoot ⟨fun _ _ => zeroHash, 1⟩ (fun _ => true) ([[0], []], [true], ()) 0 zeroHash).run =
        .ok (zeroHash, events) ∧
      (sampleNested.hashTreeRoot ⟨fun _ _ => zeroHash, 1⟩ (fun _ => true) ([[], [0]], [true], ()) 3 zeroHash).run =
        .ok (zeroHash, events') ∧
      .digest p.1 p.2 ∈ events ∧ .digest q.1 q.2 ∈ events' ∧ p ≠ q := by
  have hbounded : sampleNested.treesBounded = true := by decide
  have hv : sampleNested.WithinLimits ([[0], []], [true], ()) := by
    simp [sampleNested, SszType.WithinLimits, Members.WithinLimits]
  have hw : sampleNested.WithinLimits ([[], [0]], [true], ()) := by
    simp [sampleNested, SszType.WithinLimits, Members.WithinLimits]
  obtain ⟨events, hrun⟩ := SszType.returns_root ⟨fun _ _ => zeroHash, 1⟩ _ hv
    (SszType.treesWithin_of_bounded _ hbounded _) (fun _ => true) 0
  obtain ⟨events', hrun'⟩ := SszType.returns_root ⟨fun _ _ => zeroHash, 1⟩ _ hw
    (SszType.treesWithin_of_bounded _ hbounded _) (fun _ => true) 3
  obtain ⟨p, q, hp, hq, hpq, -⟩ :=
    objects_bound_by_root _ _ hbounded hv hw (by simp) _ _ _ _ hrun hrun'
  exact ⟨events, events', p, q, hrun, hrun', hp, hq, hpq⟩

end Sszpp
