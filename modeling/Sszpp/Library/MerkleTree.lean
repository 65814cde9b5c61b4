import Mathlib.Data.List.Basic
import Mathlib.Data.List.TakeDrop
import Mathlib.Tactic.Ring

/-!
# Hash trees

The root of a complete binary tree over a list of leaves, for any pair hash `H`. The tree is
computed from the root down with all its leaves, from the root down with a table for the subtrees
without leaves, and layer by layer from the leaves up.
-/

namespace Sszpp.Library

variable {α : Type} (H : α → α → α)

/-- The root of a tree all of whose leaves are `zero`. -/
def zeroRoot (zero : α) : Nat → α
  | 0 => zero
  | d + 1 => H (zeroRoot zero d) (zeroRoot zero d)

/-- The root of the complete tree with `2 ^ d` leaves: those of the list, then `zero`. -/
def treeRoot (zero : α) : Nat → List α → α
  | 0, leaves => leaves.headD zero
  | d + 1, leaves =>
    H (treeRoot zero d (leaves.take (2 ^ d))) (treeRoot zero d (leaves.drop (2 ^ d)))

/-- The same with `z i` for every tree of depth `i` without leaves. -/
def sparseRoot (z : Nat → α) : Nat → List α → α
  | d, [] => z d
  | 0, a :: _ => a
  | d + 1, a :: as =>
    H (sparseRoot z d ((a :: as).take (2 ^ d))) (sparseRoot z d ((a :: as).drop (2 ^ d)))

/-- The pairs hashed for the root, those inside trees without leaves left out. -/
def treeBlocks (z : Nat → α) : Nat → List α → List (α × α)
  | _, [] => []
  | 0, _ :: _ => []
  | d + 1, a :: as =>
    (sparseRoot H z d ((a :: as).take (2 ^ d)), sparseRoot H z d ((a :: as).drop (2 ^ d))) ::
      (treeBlocks z d ((a :: as).take (2 ^ d)) ++ treeBlocks z d ((a :: as).drop (2 ^ d)))

/-- Consecutive pairs, the last one completed with `z`. -/
def pairs (z : α) : List α → List (α × α)
  | [] => []
  | [a] => [(a, z)]
  | a :: b :: as => (a, b) :: pairs z as

/-- The layer over a layer of nodes. -/
def pairUp (z : α) (nodes : List α) : List α := (pairs z nodes).map fun p => H p.1 p.2

/-- `n` layers up from a layer at height `h`. -/
def climb (z : Nat → α) : (h n : Nat) → List α → List α
  | _, 0, nodes => nodes
  | h, n + 1, nodes => climb z (h + 1) n (pairUp H (z h) nodes)

/-- The pairs hashed on the way. -/
def climbBlocks (z : Nat → α) : (h n : Nat) → List α → List (α × α)
  | _, 0, _ => []
  | h, n + 1, nodes => pairs (z h) nodes ++ climbBlocks z (h + 1) n (pairUp H (z h) nodes)

/-! ### Trees without leaves -/

@[simp] lemma treeRoot_nil (zero : α) (d : Nat) : treeRoot H zero d [] = zeroRoot H zero d := by
  induction d with
  | zero => rfl
  | succ d ih => rw [treeRoot, List.take_nil, List.drop_nil, ih, zeroRoot]

@[simp] lemma sparseRoot_nil (z : Nat → α) (d : Nat) : sparseRoot H z d [] = z d := by
  cases d <;> rfl

@[simp] lemma treeBlocks_nil (z : Nat → α) (d : Nat) : treeBlocks H z d [] = [] := by
  cases d <;> rfl

@[simp] lemma treeBlocks_zero (z : Nat → α) (leaves : List α) : treeBlocks H z 0 leaves = [] := by
  cases leaves <;> rfl

lemma sparseRoot_of_ne_nil (z : Nat → α) (d : Nat) {leaves : List α} (h : leaves ≠ []) :
    sparseRoot H z (d + 1) leaves =
      H (sparseRoot H z d (leaves.take (2 ^ d))) (sparseRoot H z d (leaves.drop (2 ^ d))) := by
  obtain ⟨a, as, rfl⟩ := List.exists_cons_of_ne_nil h
  rfl

lemma treeBlocks_of_ne_nil (z : Nat → α) (d : Nat) {leaves : List α} (h : leaves ≠ []) :
    treeBlocks H z (d + 1) leaves =
      (sparseRoot H z d (leaves.take (2 ^ d)), sparseRoot H z d (leaves.drop (2 ^ d))) ::
        (treeBlocks H z d (leaves.take (2 ^ d)) ++ treeBlocks H z d (leaves.drop (2 ^ d))) := by
  obtain ⟨a, as, rfl⟩ := List.exists_cons_of_ne_nil h
  rfl

lemma take_two_pow_ne_nil {leaves : List α} (h : leaves ≠ []) (d : Nat) :
    leaves.take (2 ^ d) ≠ [] := by
  have hpos : 0 < 2 ^ d := Nat.pow_pos (by decide)
  simp only [ne_eq, List.take_eq_nil_iff, not_or]
  exact ⟨by omega, h⟩

/-- With a correct table the leaves that are left out make no difference. -/
theorem sparseRoot_eq_treeRoot {z : Nat → α} {zero : α} {d : Nat}
    (h : ∀ i ≤ d, z i = zeroRoot H zero i) (leaves : List α) :
    sparseRoot H z d leaves = treeRoot H zero d leaves := by
  induction d generalizing leaves with
  | zero =>
    cases leaves with
    | nil => exact h 0 (le_refl 0)
    | cons a as => rfl
  | succ d ih =>
    by_cases hnil : leaves = []
    · rw [hnil, sparseRoot_nil, treeRoot_nil, h (d + 1) (le_refl _)]
    · rw [sparseRoot_of_ne_nil H z d hnil, treeRoot, ih fun i hi => h i (by omega),
        ih fun i hi => h i (by omega)]

/-- Leaves that are `zero` may be left out at the end. -/
theorem treeRoot_append_replicate (zero : α) (d k : Nat) (leaves : List α) :
    treeRoot H zero d (leaves ++ List.replicate k zero) = treeRoot H zero d leaves := by
  induction d generalizing k leaves with
  | zero =>
    cases leaves with
    | nil => cases k <;> rfl
    | cons a as => rfl
  | succ d ih =>
    simp only [treeRoot, List.take_append, List.drop_append, List.take_replicate,
      List.drop_replicate, ih]

/-! ### One layer -/

@[simp] lemma pairs_nil (z : α) : pairs z [] = [] := rfl

lemma length_pairs (z : α) (nodes : List α) : (pairs z nodes).length = (nodes.length + 1) / 2 := by
  induction nodes using pairs.induct with
  | case1 => simp [pairs]
  | case2 a => simp [pairs]
  | case3 a b as ih =>
    rw [pairs, List.length_cons, ih, List.length_cons, List.length_cons]
    omega

@[simp] lemma length_pairUp (z : α) (nodes : List α) :
    (pairUp H z nodes).length = (nodes.length + 1) / 2 := by
  rw [pairUp, List.length_map, length_pairs]

@[simp] lemma pairUp_nil (z : α) : pairUp H z [] = [] := rfl

lemma pairUp_ne_nil (z : α) {nodes : List α} (h : nodes ≠ []) : pairUp H z nodes ≠ [] := by
  have hpos := List.length_pos_of_ne_nil h
  apply List.ne_nil_of_length_pos
  rw [length_pairUp]
  omega

lemma take_pairs (z : α) (k : Nat) (nodes : List α) :
    (pairs z nodes).take k = pairs z (nodes.take (2 * k)) := by
  induction nodes using pairs.induct generalizing k with
  | case1 => simp [pairs]
  | case2 a =>
    cases k with
    | zero => rfl
    | succ k => simp [pairs, Nat.mul_succ]
  | case3 a b as ih =>
    cases k with
    | zero => rfl
    | succ k => simp [pairs, Nat.mul_succ, ih]

/-- A layer may be cut after an even number of nodes. -/
lemma drop_pairs (z : α) {k : Nat} {nodes : List α} (h : 2 * k ≤ nodes.length) :
    (pairs z nodes).drop k = pairs z (nodes.drop (2 * k)) := by
  induction nodes using pairs.induct generalizing k with
  | case1 => simp [pairs]
  | case2 a =>
    obtain rfl : k = 0 := by
      rw [List.length_singleton] at h
      omega
    rfl
  | case3 a b as ih =>
    cases k with
    | zero => rfl
    | succ k =>
      simp only [List.length_cons] at h
      simpa [pairs, Nat.mul_succ] using ih (by omega)

lemma pairs_append (z : α) {xs : List α} (h : xs.length % 2 = 0) (ys : List α) :
    pairs z (xs ++ ys) = pairs z xs ++ pairs z ys := by
  have hlen : 2 * (xs.length / 2) = xs.length := by omega
  have htake := take_pairs z (xs.length / 2) (xs ++ ys)
  have hle : 2 * (xs.length / 2) ≤ (xs ++ ys).length := by
    rw [List.length_append]
    omega
  have hdrop := drop_pairs z hle
  rw [hlen, List.take_left] at htake
  rw [hlen, List.drop_left] at hdrop
  rw [← htake, ← hdrop, List.take_append_drop]

lemma take_pairUp (z : α) (k : Nat) (nodes : List α) :
    (pairUp H z nodes).take k = pairUp H z (nodes.take (2 * k)) := by
  rw [pairUp, pairUp, ← take_pairs, List.map_take]

lemma drop_pairUp (z : α) {k : Nat} {nodes : List α} (h : 2 * k ≤ nodes.length) :
    (pairUp H z nodes).drop k = pairUp H z (nodes.drop (2 * k)) := by
  rw [pairUp, pairUp, ← drop_pairs z h, List.map_drop]

/-- Both halves of a tree, one layer up. -/
lemma pairUp_halves (z : α) (d : Nat) (leaves : List α) :
    (pairUp H z leaves).take (2 ^ d) = pairUp H z (leaves.take (2 ^ (d + 1))) ∧
      (pairUp H z leaves).drop (2 ^ d) = pairUp H z (leaves.drop (2 ^ (d + 1))) := by
  have hpow : 2 ^ (d + 1) = 2 * 2 ^ d := by ring
  refine ⟨by rw [take_pairUp, hpow], ?_⟩
  by_cases hle : 2 * 2 ^ d ≤ leaves.length
  · rw [drop_pairUp H z hle, hpow]
  · have hdrop : leaves.drop (2 ^ (d + 1)) = [] := List.drop_eq_nil_of_le (by omega)
    have hdrop' : (pairUp H z leaves).drop (2 ^ d) = [] :=
      List.drop_eq_nil_of_le (by rw [length_pairUp]; omega)
    rw [hdrop, hdrop', pairUp_nil]

/-- The tree over a layer is one shorter than the tree over the layer below. -/
theorem sparseRoot_pairUp (z : Nat → α) (d : Nat) {leaves : List α} (h : leaves ≠ []) :
    sparseRoot H z (d + 1) leaves =
      sparseRoot H (fun i => z (i + 1)) d (pairUp H (z 0) leaves) := by
  induction d generalizing leaves with
  | zero =>
    match leaves with
    | [] => exact absurd rfl h
    | [a] => rfl
    | a :: b :: as => rfl
  | succ d ih =>
    obtain ⟨htake, hdrop⟩ := pairUp_halves H (z 0) d leaves
    rw [sparseRoot_of_ne_nil H z (d + 1) h, ih (take_two_pow_ne_nil h (d + 1)), ← htake,
      sparseRoot_of_ne_nil H _ d (pairUp_ne_nil H (z 0) h), hdrop]
    by_cases hnil : leaves.drop (2 ^ (d + 1)) = []
    · rw [hnil, pairUp_nil, sparseRoot_nil, sparseRoot_nil]
    · rw [ih hnil]

theorem mem_pairs_or_treeBlocks (z : Nat → α) (d : Nat) {leaves : List α} {p : α × α}
    (h : p ∈ treeBlocks H z (d + 1) leaves) :
    p ∈ pairs (z 0) leaves ∨
      p ∈ treeBlocks H (fun i => z (i + 1)) d (pairUp H (z 0) leaves) := by
  induction d generalizing leaves with
  | zero =>
    match leaves with
    | [] => cases h
    | [a] => exact .inl h
    | a :: b :: as =>
      obtain rfl | h := List.mem_cons.mp h
      · exact .inl List.mem_cons_self
      · simp at h
  | succ d ih =>
    have hne : leaves ≠ [] := by
      rintro rfl
      cases h
    obtain ⟨htake, hdrop⟩ := pairUp_halves H (z 0) d leaves
    have hleft := sparseRoot_pairUp H z d (take_two_pow_ne_nil hne (d + 1))
    have hright : sparseRoot H z (d + 1) (leaves.drop (2 ^ (d + 1))) =
        sparseRoot H (fun i => z (i + 1)) d (pairUp H (z 0) (leaves.drop (2 ^ (d + 1)))) := by
      by_cases hnil : leaves.drop (2 ^ (d + 1)) = []
      · rw [hnil, pairUp_nil, sparseRoot_nil, sparseRoot_nil]
      · exact sparseRoot_pairUp H z d hnil
    rw [treeBlocks_of_ne_nil H _ d (pairUp_ne_nil H (z 0) hne), htake, hdrop, ← hleft, ← hright]
    rw [treeBlocks_of_ne_nil H z (d + 1) hne, List.mem_cons, List.mem_append] at h
    rcases h with rfl | h | h
    · exact .inr (by simp)
    · rcases ih h with hpair | hblock
      · rw [pow_succ, Nat.mul_comm, ← take_pairs] at hpair
        exact .inl (List.mem_of_mem_take hpair)
      · exact .inr (by simp [hblock])
    · rcases ih h with hpair | hblock
      · rw [pow_succ, Nat.mul_comm] at hpair
        by_cases hle : 2 * 2 ^ d ≤ leaves.length
        · rw [← drop_pairs _ hle] at hpair
          exact .inl (List.mem_of_mem_drop hpair)
        · rw [List.drop_eq_nil_of_le (by omega)] at hpair
          cases hpair
      · exact .inr (by simp [hblock])

/-! ### All layers -/

/-- Enough layers leave the root. -/
theorem climb_eq_root (z : Nat → α) (h d : Nat) {nodes : List α} (hne : nodes ≠ [])
    (hle : nodes.length ≤ 2 ^ d) :
    climb H z h d nodes = [sparseRoot H (fun i => z (h + i)) d nodes] := by
  induction d generalizing h nodes with
  | zero =>
    match nodes with
    | [] => exact absurd rfl hne
    | [a] => rfl
    | a :: b :: as => simp at hle
  | succ d ih =>
    rw [pow_succ] at hle
    rw [climb, ih (h + 1) (pairUp_ne_nil H (z h) hne) (by rw [length_pairUp]; omega),
      sparseRoot_pairUp H _ d hne]
    simp only [Nat.add_zero, Nat.add_assoc, Nat.add_comm 1]

theorem treeBlocks_subset_climbBlocks (z : Nat → α) (h d : Nat) (nodes : List α) :
    treeBlocks H (fun i => z (h + i)) d nodes ⊆ climbBlocks H z h d nodes := by
  induction d generalizing h nodes with
  | zero => simp
  | succ d ih =>
    intro p hp
    rw [climbBlocks, List.mem_append]
    rcases mem_pairs_or_treeBlocks H _ d hp with hpair | hblock
    · exact .inl hpair
    · refine .inr (ih (h + 1) _ ?_)
      simpa only [Nat.add_zero, Nat.add_assoc, Nat.add_comm 1] using hblock

/-! ### Deeper trees -/

/-- One more level over leaves that do not need it. -/
lemma sparseRoot_succ_of_le (z : Nat → α) {d : Nat} {leaves : List α} (hne : leaves ≠ [])
    (hle : leaves.length ≤ 2 ^ d) :
    sparseRoot H z (d + 1) leaves = H (sparseRoot H z d leaves) (z d) := by
  rw [sparseRoot_of_ne_nil H z d hne, List.take_of_length_le hle, List.drop_eq_nil_of_le hle,
    sparseRoot_nil]

lemma treeBlocks_succ_of_le (z : Nat → α) {d : Nat} {leaves : List α} (hne : leaves ≠ [])
    (hle : leaves.length ≤ 2 ^ d) :
    treeBlocks H z (d + 1) leaves = (sparseRoot H z d leaves, z d) :: treeBlocks H z d leaves := by
  rw [treeBlocks_of_ne_nil H z d hne, List.take_of_length_le hle, List.drop_eq_nil_of_le hle,
    sparseRoot_nil, treeBlocks_nil, List.append_nil]

/-! ### Binding -/

/-- Two equally long lists of leaves with one root are equal, or two different pairs with one hash
are among those hashed for their roots. -/
theorem exists_collision (z : Nat → α) {d : Nat} {xs ys : List α} (hlen : xs.length = ys.length)
    (hle : xs.length ≤ 2 ^ d) (hne : xs ≠ ys)
    (hroot : sparseRoot H z d xs = sparseRoot H z d ys) :
    ∃ p ∈ treeBlocks H z d xs, ∃ q ∈ treeBlocks H z d ys, p ≠ q ∧ H p.1 p.2 = H q.1 q.2 := by
  induction d generalizing xs ys with
  | zero =>
    match xs, ys with
    | [], [] => exact absurd rfl hne
    | [a], [b] => exact absurd (congrArg (fun c => [c]) hroot) hne
    | a :: b :: as, _ => simp at hle
  | succ d ih =>
    have hxs : xs ≠ [] := by
      rintro rfl
      exact hne (List.length_eq_zero_iff.mp hlen.symm).symm
    have hys : ys ≠ [] := by
      rintro rfl
      exact hne (List.length_eq_zero_iff.mp hlen)
    rw [sparseRoot_of_ne_nil H z d hxs, sparseRoot_of_ne_nil H z d hys] at hroot
    rw [treeBlocks_of_ne_nil H z d hxs, treeBlocks_of_ne_nil H z d hys]
    rw [pow_succ] at hle
    by_cases htop : (sparseRoot H z d (xs.take (2 ^ d)), sparseRoot H z d (xs.drop (2 ^ d))) =
        (sparseRoot H z d (ys.take (2 ^ d)), sparseRoot H z d (ys.drop (2 ^ d)))
    · obtain ⟨hleft, hright⟩ := Prod.mk.inj htop
      by_cases htake : xs.take (2 ^ d) = ys.take (2 ^ d)
      · have hdrop : xs.drop (2 ^ d) ≠ ys.drop (2 ^ d) := by
          intro h
          apply hne
          rw [← List.take_append_drop (2 ^ d) xs, htake, h, List.take_append_drop]
        obtain ⟨p, hp, q, hq, hpq⟩ := ih (by simp [hlen]) (by rw [List.length_drop]; omega) hdrop hright
        exact ⟨p, by simp [hp], q, by simp [hq], hpq⟩
      · obtain ⟨p, hp, q, hq, hpq⟩ := ih (by simp [hlen]) (List.length_take_le _ _) htake hleft
        exact ⟨p, by simp [hp], q, by simp [hq], hpq⟩
    · exact ⟨_, List.mem_cons_self, _, List.mem_cons_self, htop, hroot⟩

/-! ### The number of pairs -/

/-- The number of nodes in `d` layers over a layer of `k`. -/
def layersSize : (d k : Nat) → Nat
  | 0, _ => 0
  | d + 1, k => (k + 1) / 2 + layersSize d ((k + 1) / 2)

@[simp] lemma layersSize_empty (d : Nat) : layersSize d 0 = 0 := by
  induction d with
  | zero => rfl
  | succ d ih => simpa [layersSize] using ih

@[simp] lemma layersSize_one (d : Nat) : layersSize d 1 = d := by
  induction d with
  | zero => rfl
  | succ d ih =>
    rw [layersSize]
    change 1 + layersSize d 1 = d + 1
    omega

/-- The layers over a split tree are those over its halves, the node that joins them and one node
for each level above. -/
theorem layersSize_split {j m : Nat} (e : Nat) (hpos : 0 < m) (hle : m ≤ 2 ^ j) :
    layersSize (j + 1 + e) (2 ^ j + m) = layersSize j (2 ^ j) + layersSize j m + 1 + e := by
  induction j generalizing m with
  | zero =>
    obtain rfl : m = 1 := by omega
    have htop : layersSize (0 + 1 + e) (2 ^ 0 + 1) = 1 + layersSize e 1 := by
      rw [Nat.add_right_comm, layersSize, Nat.zero_add]
      rfl
    rw [htop, layersSize_one]
    rfl
  | succ j ih =>
    rw [pow_succ] at hle
    have hhalf : (2 ^ (j + 1) + m + 1) / 2 = 2 ^ j + (m + 1) / 2 := by
      rw [pow_succ]
      omega
    have hfull : (2 ^ (j + 1) + 1) / 2 = 2 ^ j := by
      rw [pow_succ]
      omega
    have hrest := ih (m := (m + 1) / 2) (by omega) (by omega)
    have hdepth : j + 1 + 1 + e = j + 1 + e + 1 := by omega
    rw [hdepth, layersSize, hhalf, hrest, layersSize, layersSize, hfull]
    omega

/-- The layers have a node less than there are leaves, and at most one more on each level. -/
theorem layersSize_bounds {d k : Nat} (hpos : 0 < k) (hle : k ≤ 2 ^ d) :
    k ≤ layersSize d k + 1 ∧ layersSize d k + 1 ≤ k + d := by
  induction d generalizing k with
  | zero =>
    obtain rfl : k = 1 := by omega
    decide
  | succ d ih =>
    rw [pow_succ] at hle
    have hrest := ih (k := (k + 1) / 2) (by omega) (by omega)
    rw [layersSize]
    omega

/-! ### The nodes -/

/-- The nodes of `n` layers over a layer at height `h`, the lowest layer first. -/
def layers (z : Nat → α) : (h n : Nat) → List α → List α
  | _, 0, _ => []
  | h, n + 1, nodes => pairUp H (z h) nodes ++ layers z (h + 1) n (pairUp H (z h) nodes)

@[simp] lemma length_layers (z : Nat → α) (h n : Nat) (nodes : List α) :
    (layers H z h n nodes).length = layersSize n nodes.length := by
  induction n generalizing h nodes with
  | zero => rfl
  | succ n ih => rw [layers, List.length_append, ih, length_pairUp, layersSize]

/-- A node is the hash of the leaves of its own subtree. -/
lemma getElem_pairUp (z : Nat → α) {i : Nat} {nodes : List α} (hi : i * 2 < nodes.length) :
    (pairUp H (z 0) nodes)[i]? = some (sparseRoot H z 1 ((nodes.drop (i * 2)).take 2)) := by
  have hhalf : 2 * i ≤ nodes.length := by omega
  have hne : (nodes.drop (2 * i)).take (2 * 1) ≠ [] := by
    apply List.ne_nil_of_length_pos
    rw [List.length_take, List.length_drop]
    omega
  have hle : ((nodes.drop (2 * i)).take (2 * 1)).length ≤ 2 ^ 1 := List.length_take_le _ _
  have hroot := climb_eq_root H z 0 1 hne hle
  simp only [climb, Nat.zero_add] at hroot
  have hpair : ((pairUp H (z 0) nodes).drop i).take 1 =
      [sparseRoot H z 1 ((nodes.drop (2 * i)).take (2 * 1))] := by
    rw [drop_pairUp H (z 0) hhalf, take_pairUp, hroot]
  have hget := congrArg (fun l => l[0]?) hpair
  simp only [List.getElem?_take, List.getElem?_drop] at hget
  simpa [Nat.mul_comm] using hget

/-- The nodes of the layer at height `j + 1`, which comes after the `j` layers below it, are the
roots of the subtrees of that height. -/
theorem getElem_layers (z : Nat → α) (h : Nat) {n j i : Nat} {nodes : List α} (hj : j < n)
    (hi : i * 2 ^ (j + 1) < nodes.length) :
    (layers H z h n nodes)[layersSize j nodes.length + i]? =
      some (sparseRoot H (fun k => z (h + k)) (j + 1)
        ((nodes.drop (i * 2 ^ (j + 1))).take (2 ^ (j + 1)))) := by
  induction j generalizing h n nodes with
  | zero =>
    obtain ⟨n, rfl⟩ := Nat.exists_eq_succ_of_ne_zero (Nat.ne_of_gt hj)
    have hlt : i < (pairUp H (z h) nodes).length := by
      rw [length_pairUp]
      omega
    have hnode := getElem_pairUp H (fun k => z (h + k)) hi
    rw [layers, layersSize, Nat.zero_add, List.getElem?_append_left hlt]
    exact hnode
  | succ j ih =>
    obtain ⟨n, rfl⟩ := Nat.exists_eq_succ_of_ne_zero (Nat.ne_of_gt (Nat.lt_of_le_of_lt j.succ.zero_le hj))
    have hpow : i * 2 ^ (j + 1 + 1) = 2 * (i * 2 ^ (j + 1)) := by ring
    rw [hpow] at hi ⊢
    have hlen := length_pairUp H (z h) nodes
    have hle : (pairUp H (z h) nodes).length ≤ layersSize (j + 1) nodes.length + i := by
      rw [hlen, layersSize]
      omega
    have hindex : layersSize (j + 1) nodes.length + i - (pairUp H (z h) nodes).length =
        layersSize j (pairUp H (z h) nodes).length + i := by
      rw [hlen, layersSize]
      omega
    have hne : (nodes.drop (2 * (i * 2 ^ (j + 1)))).take (2 ^ (j + 1 + 1)) ≠ [] := by
      apply take_two_pow_ne_nil
      apply List.ne_nil_of_length_pos
      rw [List.length_drop]
      omega
    rw [layers, List.getElem?_append_right hle, hindex, ih (h + 1) (by omega) (by rw [hlen]; omega),
      sparseRoot_pairUp H _ (j + 1) hne, pow_succ' 2 (j + 1), ← take_pairUp, ← drop_pairUp H _ (le_of_lt hi)]
    simp only [Nat.add_zero, Nat.add_assoc, Nat.add_comm 1]

/-! ### Too many leaves -/

/-- The leaves from the last multiple of `2 ^ d` on. -/
def finalBlock (d : Nat) (leaves : List α) : List α := leaves.drop ((leaves.length - 1) / 2 ^ d * 2 ^ d)

lemma finalBlock_ne_nil (d : Nat) {leaves : List α} (h : leaves ≠ []) : finalBlock d leaves ≠ [] := by
  have hpos := List.length_pos_of_ne_nil h
  have hle := Nat.div_mul_le_self (leaves.length - 1) (2 ^ d)
  apply List.ne_nil_of_length_pos
  rw [finalBlock, List.length_drop]
  omega

/-- The last block of a layer is the layer over the last block. -/
lemma finalBlock_pairUp (z : α) (d : Nat) {nodes : List α} (h : nodes ≠ []) :
    finalBlock d (pairUp H z nodes) = pairUp H z (finalBlock (d + 1) nodes) := by
  have hpos := List.length_pos_of_ne_nil h
  have hhalf : (nodes.length + 1) / 2 - 1 = (nodes.length - 1) / 2 := by omega
  have hdiv : (nodes.length - 1) / 2 / 2 ^ d = (nodes.length - 1) / 2 ^ (d + 1) := by
    rw [Nat.div_div_eq_div_mul, pow_succ']
  have hblock : 2 * ((nodes.length - 1) / 2 ^ (d + 1) * 2 ^ d) =
      (nodes.length - 1) / 2 ^ (d + 1) * 2 ^ (d + 1) := by ring
  have hle := Nat.div_mul_le_self (nodes.length - 1) (2 ^ (d + 1))
  rw [finalBlock, length_pairUp, hhalf, hdiv, drop_pairUp H z (by omega), hblock, finalBlock]

/-- The last node after `d` layers is the root of the last block, whatever the number of leaves. -/
theorem climb_ends (z : Nat → α) (h d : Nat) {nodes : List α} (hne : nodes ≠ []) :
    ∃ init, climb H z h d nodes = init ++ [sparseRoot H (fun i => z (h + i)) d (finalBlock d nodes)] := by
  induction d generalizing h nodes with
  | zero =>
    have hlast : finalBlock 0 nodes = [nodes.getLast hne] := by
      rw [finalBlock, pow_zero, Nat.div_one, Nat.mul_one, List.drop_length_sub_one hne]
    refine ⟨nodes.dropLast, ?_⟩
    rw [hlast]
    exact (List.dropLast_append_getLast hne).symm
  | succ d ih =>
    obtain ⟨init, hinit⟩ := ih (h + 1) (pairUp_ne_nil H (z h) hne)
    refine ⟨init, ?_⟩
    rw [climb, hinit, finalBlock_pairUp H (z h) d hne, sparseRoot_pairUp H _ d (finalBlock_ne_nil (d + 1) hne)]
    simp only [Nat.add_zero, Nat.add_assoc, Nat.add_comm 1]

end Sszpp.Library
