import Mathlib.Data.List.Basic
import Mathlib.Tactic.Ring
import Mathlib.Tactic.Cases

/-!
# How far an encoder with two cursors writes

A composite object is written with one cursor in its fixed part and one behind it. A slot is what
such an encoder does with one component: whether it writes an offset for it, how far the component
reaches from its position, and by how much its cursor advances. The two lengths need not agree.
-/

namespace Sszpp.Library

/-- The end of `n` bytes at `pos`; no bytes end at 0. -/
def endOf (pos n : Nat) : Nat := if n = 0 then 0 else pos + n

@[simp] lemma endOf_zero (pos : Nat) : endOf pos 0 = 0 := rfl

lemma endOf_of_pos (pos : Nat) {n : Nat} (h : 0 < n) : endOf pos n = pos + n := by
  rw [endOf, if_neg (by omega)]

lemma zero_endOf (n : Nat) : endOf 0 n = n := by
  unfold endOf
  split <;> omega

lemma endOf_le (pos n : Nat) : endOf pos n ≤ pos + n := by
  unfold endOf
  split <;> omega

lemma le_endOf (pos n : Nat) : n ≤ endOf pos n := by
  unfold endOf
  split <;> omega

lemma endOf_mono (pos : Nat) {m n : Nat} (h : m ≤ n) : endOf pos m ≤ endOf pos n := by
  unfold endOf
  split <;> split <;> omega

lemma endOf_add (p pos n : Nat) : endOf (p + pos) n = endOf p (endOf pos n) := by
  unfold endOf
  split
  · simp
  · rw [if_neg (by omega), Nat.add_assoc]

lemma endOf_max (p m n : Nat) : endOf p (max m n) = max (endOf p m) (endOf p n) := by
  unfold endOf
  split <;> split <;> split <;> omega

/-- Two consecutive ranges. -/
lemma max_endOf (pos m n : Nat) : max (endOf pos m) (endOf (pos + m) n) = endOf pos (m + n) := by
  unfold endOf
  split <;> split <;> split <;> omega

/-- What an encoder does with one component. -/
structure Slot where
  isVariable : Bool
  reach : Nat
  size : Nat

namespace Slot

/-- The bytes of the fixed part that the cursor moves over. -/
def head (s : Slot) : Nat := if s.isVariable then 4 else s.size

def tail (s : Slot) : Nat := if s.isVariable then s.size else 0

end Slot

def headLength (ss : List Slot) : Nat := (ss.map Slot.head).sum

def tailLength (ss : List Slot) : Nat := (ss.map Slot.tail).sum

@[simp] lemma headLength_nil : headLength [] = 0 := rfl

@[simp] lemma tailLength_nil : tailLength [] = 0 := rfl

@[simp] lemma headLength_cons (s : Slot) (ss : List Slot) :
    headLength (s :: ss) = s.head + headLength ss := by
  simp [headLength]

@[simp] lemma tailLength_cons (s : Slot) (ss : List Slot) :
    tailLength (s :: ss) = s.tail + tailLength ss := by
  simp [tailLength]

/-- The end of the furthest write, from the two cursors on; 0 when nothing is written. -/
def extent : (result variablePos : Nat) → List Slot → Nat
  | _, _, [] => 0
  | result, variablePos, s :: ss =>
    if s.isVariable then
      max (result + 4) (max (endOf variablePos s.reach) (extent (result + 4) (variablePos + s.size) ss))
    else max (endOf result s.reach) (extent (result + s.size) variablePos ss)

/-- Only the distance to the beginning matters. -/
lemma extent_add (p r v : Nat) (ss : List Slot) : extent (p + r) (p + v) ss = endOf p (extent r v ss) := by
  induction ss generalizing r v with
  | nil => rfl
  | cons s ss ih =>
    simp only [extent, Nat.add_assoc, ih]
    split
    · rw [endOf_max, endOf_max, ← endOf_add, endOf_of_pos p (by omega : 0 < r + 4)]
    · rw [endOf_max, ← endOf_add]

lemma extent_append (r v : Nat) (ss ts : List Slot) :
    extent r v (ss ++ ts) = max (extent r v ss) (extent (r + headLength ss) (v + tailLength ss) ts) := by
  induction ss generalizing r v with
  | nil => simp [extent]
  | cons s ss ih =>
    simp only [List.cons_append, extent, headLength_cons, tailLength_cons, Slot.head, Slot.tail]
    split
    · rw [ih, Nat.add_assoc, Nat.add_assoc, max_assoc, max_assoc]
    · rw [ih, Nat.add_assoc, Nat.zero_add, max_assoc]

lemma le_extent_of_mem {r v : Nat} {ss : List Slot} {s : Slot} (h : s ∈ ss) : s.reach ≤ extent r v ss := by
  induction ss generalizing r v with
  | nil => cases h
  | cons t ss ih =>
    unfold extent
    rcases List.mem_cons.mp h with rfl | hmem
    · split
      · have hle := le_endOf v s.reach
        omega
      · have hle := le_endOf r s.reach
        omega
    · split
      · have hle := ih hmem (r := r + 4) (v := v + t.size)
        omega
      · have hle := ih hmem (r := r + t.size) (v := v)
        omega

/-- Components that do not reach further than their cursors advance. -/
lemma extent_le {ss : List Slot} (h : ∀ s ∈ ss, s.reach ≤ s.size) (r v : Nat) :
    extent r v ss ≤ max (endOf r (headLength ss)) (endOf v (tailLength ss)) := by
  induction ss generalizing r v with
  | nil => exact Nat.zero_le _
  | cons s ss ih =>
    have hs := h s (by simp)
    have hss := fun r v => ih (fun t ht => h t (List.mem_cons_of_mem _ ht)) r v
    simp only [extent, headLength_cons, tailLength_cons, Slot.head, Slot.tail]
    split
    · have hrest := hss (r + 4) (v + s.size)
      have hreach := endOf_mono v hs
      have hfour := endOf_of_pos r (by decide : 0 < 4)
      rw [← max_endOf r 4, ← max_endOf v s.size]
      omega
    · have hrest := hss (r + s.size) v
      have hreach := endOf_mono r hs
      rw [← max_endOf r s.size, Nat.zero_add]
      omega

/-- Components that reach as far as their cursors advance. -/
lemma extent_of_exact {ss : List Slot} (h : ∀ s ∈ ss, s.reach = s.size) (r v : Nat) :
    extent r v ss = max (endOf r (headLength ss)) (endOf v (tailLength ss)) := by
  induction ss generalizing r v with
  | nil => rfl
  | cons s ss ih =>
    have hs := h s (by simp)
    have hss := fun r v => ih (fun t ht => h t (List.mem_cons_of_mem _ ht)) r v
    simp only [extent, headLength_cons, tailLength_cons, Slot.head, Slot.tail, hs, hss]
    split
    · have hfour := endOf_of_pos r (by decide : 0 < 4)
      rw [← max_endOf r 4, ← max_endOf v s.size]
      omega
    · rw [← max_endOf r s.size, Nat.zero_add]
      omega

end Sszpp.Library
