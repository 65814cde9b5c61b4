import Mathlib.Data.List.Basic
import Mathlib.Tactic.Ring
import Mathlib.Tactic.Cases

/-!
# Bytes, little-endian numbers and fixed-width pieces

Byte strings are lists of 8-bit words. The little-endian code of a number and the cut of a
list into consecutive pieces of one width are each a pair of mutually inverse functions.
-/

namespace Sszpp.Library

abbrev Byte := BitVec 8

abbrev Bytes := List Byte

/-- The `n` low base-256 digits of `x`, least significant first. -/
def leBytes : Nat → Nat → Bytes
  | 0, _ => []
  | n + 1, x => BitVec.ofNat 8 x :: leBytes n (x / 256)

/-- The number whose base-256 digits are the bytes, least significant first. -/
def leNat : Bytes → Nat
  | [] => 0
  | b :: bs => b.toNat + 256 * leNat bs

@[simp] lemma length_leBytes (n x : Nat) : (leBytes n x).length = n := by
  induction n generalizing x with
  | zero => rfl
  | succ n ih => simp [leBytes, ih]

lemma leNat_lt (bs : Bytes) : leNat bs < 256 ^ bs.length := by
  induction bs with
  | nil => simp [leNat]
  | cons b bs ih =>
    have hb : b.toNat < 256 := b.isLt
    simp only [leNat, List.length_cons, pow_succ]
    omega

lemma leNat_leBytes (n x : Nat) : leNat (leBytes n x) = x % 256 ^ n := by
  induction n generalizing x with
  | zero => simp [leBytes, leNat, Nat.mod_one]
  | succ n ih =>
    have hpow : 256 ^ (n + 1) = 256 * 256 ^ n := pow_succ' 256 n
    rw [leBytes, leNat, ih, BitVec.toNat_ofNat, hpow, Nat.mod_mul]

lemma leNat_leBytes_of_lt {n x : Nat} (h : x < 256 ^ n) : leNat (leBytes n x) = x := by
  rw [leNat_leBytes, Nat.mod_eq_of_lt h]

lemma leBytes_injective {n x y : Nat} (hx : x < 256 ^ n) (hy : y < 256 ^ n) (h : leBytes n x = leBytes n y) :
    x = y := by
  rw [← leNat_leBytes_of_lt hx, ← leNat_leBytes_of_lt hy, h]

lemma leBytes_leNat (bs : Bytes) : leBytes bs.length (leNat bs) = bs := by
  induction bs with
  | nil => rfl
  | cons b bs ih =>
    have hb : b.toNat < 256 := b.isLt
    have hd : (b.toNat + 256 * leNat bs) / 256 = leNat bs := by omega
    simp only [leNat, List.length_cons, leBytes, hd, ih, List.cons.injEq, and_true]
    apply BitVec.eq_of_toNat_eq
    rw [BitVec.toNat_ofNat]
    omega

lemma leBytes_eq_of_leNat_eq {bs : Bytes} {n x : Nat} (hl : bs.length = n) (hx : leNat bs = x) :
    leBytes n x = bs := by
  subst hl hx
  exact leBytes_leNat bs

lemma leBytes_zero (n : Nat) : leBytes n 0 = List.replicate n 0 := by
  induction n with
  | zero => rfl
  | succ n ih =>
    rw [leBytes, Nat.zero_div, ih, List.replicate_succ]
    rfl

/-- The high digits of a small number are zero. -/
lemma leBytes_add {m x : Nat} (k : Nat) (h : x < 256 ^ m) :
    leBytes (m + k) x = leBytes m x ++ List.replicate k 0 := by
  induction m generalizing x with
  | zero =>
    obtain rfl : x = 0 := by
      rw [pow_zero] at h
      omega
    rw [Nat.zero_add, leBytes_zero, leBytes, List.nil_append]
  | succ m ih =>
    have hdiv : x / 256 < 256 ^ m := by
      rw [pow_succ] at h
      omega
    rw [Nat.add_right_comm, leBytes, ih hdiv, leBytes, List.cons_append]

/-! ### Consecutive pieces of one width -/

section Pieces

variable {α β : Type}

lemma exists_append_of_length {l : List α} {i j : Nat} (h : l.length = i + j) :
    ∃ l₁ l₂ : List α, l = l₁ ++ l₂ ∧ l₁.length = i ∧ l₂.length = j :=
  ⟨l.take i, l.drop i, (List.take_append_drop i l).symm, List.length_take_of_le (by omega),
    by rw [List.length_drop]; omega⟩

/-- The consecutive pieces of `xs` of length `k`, the last one shorter when `k` does not
divide the length. -/
def pieces (k : Nat) (xs : List α) : List (List α) :=
  (List.range ((xs.length + k - 1) / k)).map fun i => (xs.drop (i * k)).take k

@[simp] lemma pieces_nil (k : Nat) : pieces k ([] : List α) = [] := by
  have h : (k - 1) / k = 0 := by
    rcases Nat.eq_zero_or_pos k with rfl | hk
    · rfl
    · exact Nat.div_eq_of_lt (by omega)
  simp [pieces, h]

@[simp] lemma length_pieces (k : Nat) (xs : List α) :
    (pieces k xs).length = (xs.length + k - 1) / k := by
  simp [pieces]

lemma pieces_of_ne_nil {k : Nat} (hk : 0 < k) {xs : List α} (h : xs ≠ []) :
    pieces k xs = xs.take k :: pieces k (xs.drop k) := by
  have hpos : 0 < xs.length := List.length_pos_iff.mpr h
  have hcount : (xs.length + k - 1) / k = ((xs.length - k) + k - 1) / k + 1 := by
    rcases Nat.lt_or_ge xs.length k with hlt | hge
    · have h0 : xs.length - k = 0 := by omega
      have h1 : xs.length + k - 1 = (xs.length - 1) + k := by omega
      rw [h0, h1, Nat.add_div_right _ hk, Nat.div_eq_of_lt (by omega : xs.length - 1 < k),
        Nat.div_eq_of_lt (by omega)]
    · have h1 : xs.length + k - 1 = (xs.length - k + k - 1) + k := by omega
      rw [h1, Nat.add_div_right _ hk]
  simp only [pieces, hcount, List.length_drop, List.range_succ_eq_map, List.map_cons, Nat.zero_mul,
    List.drop_zero, List.map_map, List.cons.injEq, true_and]
  apply List.map_congr_left
  intro i _
  simp only [Function.comp_apply, List.drop_drop]
  rw [Nat.succ_mul, Nat.add_comm]

lemma flatten_pieces {k : Nat} (hk : 0 < k) (xs : List α) : (pieces k xs).flatten = xs := by
  induction xs using (measure List.length).wf.induction with
  | _ xs ih =>
    by_cases h : xs = []
    · simp [h]
    · have hpos : 0 < xs.length := List.length_pos_iff.mpr h
      rw [pieces_of_ne_nil hk h, List.flatten_cons, ih (xs.drop k), List.take_append_drop]
      change (xs.drop k).length < xs.length
      rw [List.length_drop]
      omega

lemma pieces_append {k : Nat} (hk : 0 < k) {xs ys : List α} (h : xs.length = k) :
    pieces k (xs ++ ys) = xs :: pieces k ys := by
  have hne : xs ++ ys ≠ [] := by
    intro hnil
    rw [List.append_eq_nil_iff] at hnil
    simp only [hnil.1, List.length_nil] at h
    omega
  rw [pieces_of_ne_nil hk hne, List.take_left' h, List.drop_left' h]

lemma pieces_flatMap {k : Nat} (hk : 0 < k) (f : α → List β) (xs : List α)
    (hf : ∀ x ∈ xs, (f x).length = k) : pieces k (xs.flatMap f) = xs.map f := by
  induction xs with
  | nil => simp
  | cons x xs ih =>
    rw [List.flatMap_cons, pieces_append hk (hf x (by simp)), List.map_cons,
      ih fun y hy => hf y (List.mem_cons_of_mem _ hy)]

lemma length_flatMap_const {k : Nat} (f : α → List β) (xs : List α)
    (hf : ∀ x ∈ xs, (f x).length = k) : (xs.flatMap f).length = xs.length * k := by
  induction xs with
  | nil => simp
  | cons x xs ih =>
    rw [List.flatMap_cons, List.length_append, hf x (by simp),
      ih fun y hy => hf y (List.mem_cons_of_mem _ hy), List.length_cons]
    ring

/-- Pieces of one width can be read off again. -/
lemma flatMap_injective {k : Nat} (hk : 0 < k) {f : α → List β} (hlen : ∀ x, (f x).length = k)
    (hf : Function.Injective f) : Function.Injective fun xs : List α => xs.flatMap f := by
  intro xs ys h
  apply List.map_injective_iff.mpr hf
  rw [← pieces_flatMap hk f xs fun x _ => hlen x, ← pieces_flatMap hk f ys fun y _ => hlen y]
  exact congrArg (pieces k) h

section Whole

variable {k n : Nat} {xs : List α}

/-- When the width divides the length there is no shorter last piece. -/
lemma length_pieces_of_length (hk : 0 < k) (h : xs.length = n * k) : (pieces k xs).length = n := by
  have hsum : n * k + k - 1 = (k - 1) + n * k := by omega
  rw [length_pieces, h, hsum, Nat.add_mul_div_right _ _ hk, Nat.div_eq_of_lt (by omega), Nat.zero_add]

lemma mem_pieces_of_length (hk : 0 < k) (h : xs.length = n * k) {p : List α} :
    p ∈ pieces k xs ↔ ∃ i < n, (xs.drop (i * k)).take k = p := by
  have hcount := length_pieces_of_length hk h
  rw [length_pieces] at hcount
  rw [pieces, List.mem_map, hcount]
  simp only [List.mem_range]

lemma length_of_mem_pieces (hk : 0 < k) (hdvd : xs.length % k = 0) {p : List α} (hp : p ∈ pieces k xs) :
    p.length = k := by
  have hmul : xs.length = xs.length / k * k := (Nat.div_mul_cancel (Nat.dvd_of_mod_eq_zero hdvd)).symm
  obtain ⟨i, hi, rfl⟩ := (mem_pieces_of_length hk hmul).mp hp
  have hle : (i + 1) * k ≤ xs.length / k * k := Nat.mul_le_mul_right k hi
  rw [Nat.succ_mul] at hle
  rw [List.length_take, List.length_drop]
  omega

end Whole

end Pieces

end Sszpp.Library
