import Sszpp.Proofs.Reach

/-!
# Which types are of fixed size

A type is classified by the nested type `variable_size`, which lists and some containers have. Nothing
passes it on from the elements of an array or from the members of a container, while sizes follow the
structure of the type.
-/

namespace Sszpp

open Library

variable {α : Type}

mutual

/-- Whether the objects of the type have lists in them. -/
def SszType.varies {α : Type} : SszType α → Bool
  | .basic _ => false
  | .array e n => decide (0 < n) && e.varies
  | .vector _ => true
  | .list _ _ => true
  | .bitlist _ => true
  | .bitset _ => false
  | .container _ ms => ms.varies

def Members.varies {α : Type} : Members α → Bool
  | .nil => false
  | .cons m ms => m.varies || ms.varies

end

mutual

/-- The lengths of the containers in an object without lists. -/
def SszType.NoWrap {α : Type} : SszType α → Prop
  | .basic _ => True
  | .array e n => 0 < n → e.NoWrap
  | .vector _ => True
  | .list _ _ => True
  | .bitlist _ => True
  | .bitset _ => True
  | .container _ ms => ms.fixedSize < 2 ^ 32 ∧ ms.NoWrap

def Members.NoWrap {α : Type} : Members α → Prop
  | .nil => True
  | .cons m ms => m.NoWrap ∧ ms.NoWrap

end

mutual

/-- The types in which a container is declared of variable size only if its members require it, and
the elements of a list take up bytes: they divide the input of its decoder. -/
def SszType.Declared {α : Type} : SszType α → Prop
  | .basic _ => True
  | .array e _ => e.Declared
  | .vector _ => False
  | .list e _ => e.Declared ∧ (e.variableSize = false → e.varies = false → 0 < e.fixedSize)
  | .bitlist _ => True
  | .bitset _ => True
  | .container variableSize ms => (variableSize = true → ms.varies = true) ∧ ms.Declared

def Members.Declared {α : Type} : Members α → Prop
  | .nil => True
  | .cons m ms => m.Declared ∧ ms.Declared

end

/-- All objects serialize to as many bytes as `ssz::size` of a value-initialised one. -/
def SoundlyFixed (τ : SszType α) : Prop :=
  ∀ v, ∃ out, τ.serialize v = .ok out ∧ out.length = τ.width

/-! ### Objects without lists -/

lemma SszType.Declared.variableSize_eq {τ : SszType α} (h : τ.Declared) (hfix : τ.varies = false) :
    τ.variableSize = false := by
  cases τ with
  | list e limit => cases hfix
  | bitlist limit => cases hfix
  | container variableSize ms =>
    cases variableSize with
    | true => exact (h.1 rfl).symm.trans hfix
    | false => rfl
  | _ => rfl

/-- An array is empty or its elements have no lists. -/
lemma SszType.varies_element {e : SszType α} {n : Nat} (h : (SszType.array e n).varies = false)
    (hn : 0 < n) : e.varies = false := by
  rw [SszType.varies, Bool.and_eq_false_iff] at h
  rcases h with h | h
  · exact absurd hn (by simpa using h)
  · exact h

lemma SszType.size_early_of_varies {τ : SszType α} (hfix : τ.varies = false) (v : α) :
    τ.size false v = τ.size true v := by
  apply τ.size_early
  cases τ with
  | bitlist limit => cases hfix
  | _ => rfl

mutual

theorem SszType.Declared.size_eq_width : {α : Type} → {τ : SszType α} → τ.Declared →
    τ.varies = false → (v : α) → τ.size true v = τ.width
  | _, .basic _, _, _, _ => rfl
  | _, .array e n, h, hfix, v => by
    obtain rfl | hn := Nat.eq_zero_or_pos n
    · have hv : v = (SszType.array e 0).vac := Subtype.ext (List.eq_nil_of_length_eq_zero v.2)
      rw [hv, SszType.width]
    · have he : e.Declared := h
      have hfix' := SszType.varies_element hfix hn
      have hconst : ∀ x, e.size false x = e.width := by
        intro x
        rw [SszType.size_early_of_varies hfix']
        exact SszType.Declared.size_eq_width he hfix' x
      simp only [SszType.width, SszType.size, sizeOfRange, he.variableSize_eq hfix', Bool.false_eq_true,
        if_false]
      rw [sizeOfFixed_eq v.1 fun x _ => hconst x, sizeOfFixed_eq _ fun x _ => hconst x, v.2,
        (SszType.array e n).vac.2]
  | _, .vector _, h, _, _ => h.elim
  | _, .list _ _, _, hfix, _ => by cases hfix
  | _, .bitlist _, _, hfix, _ => by cases hfix
  | _, .bitset _, _, _, _ => rfl
  | _, .container _ _, h, hfix, v => Members.Declared.computeTotalLength_eq h.2 hfix v

theorem Members.Declared.computeTotalLength_eq : {α : Type} → {ms : Members α} → ms.Declared →
    ms.varies = false → (v : α) → ms.computeTotalLength v = ms.computeTotalLength ms.vac
  | _, .nil, _, _, _ => rfl
  | _, .cons m ms, h, hfix, (v, vs) => by
    rw [Members.varies, Bool.or_eq_false_iff] at hfix
    simp only [Members.computeTotalLength, Members.vac, SszType.Declared.size_eq_width h.1 hfix.1 v,
      Members.Declared.computeTotalLength_eq h.2 hfix.2 vs]
    rfl

end

/-! ### Objects without lists and with containers below `2 ^ 32` bytes -/

/-- The members reach as far as the cursor advances over them, `n` bytes in all. -/
def ExactSlots (ss : List Slot) (n : Nat) : Prop :=
  (∀ s ∈ ss, s.isVariable = false ∧ s.reach = s.size) ∧ headLength ss = n

lemma ExactSlots.extent_eq {ss : List Slot} {n : Nat} (h : ExactSlots ss n) (v : Nat) :
    extent 0 v ss = n := by
  have htail : tailLength ss = 0 := by
    have hzero : ∀ s ∈ ss, s.tail = 0 := by
      intro s hs
      rw [Slot.tail, (h.1 s hs).1, if_neg Bool.false_ne_true]
    rw [tailLength, sum_map_const hzero, Nat.mul_zero]
  rw [extent_of_exact fun s hs => (h.1 s hs).2, h.2, htail, zero_endOf, endOf_zero, Nat.max_zero]

lemma SszType.reach_container_of_exact {variableSize : Bool} {ms : Members α} {v : α} {n : Nat}
    (h : ExactSlots (ms.slots v) n) : (SszType.container variableSize ms).reach v = n := by
  rw [SszType.reach]
  split
  · rename_i hcount
    obtain ⟨s, hslots, hreach⟩ := Members.reachSingle_mem hcount v
    rw [hslots] at h
    obtain ⟨hvariable, hsize⟩ := h.1 s (by simp)
    rw [hreach, hsize, ← h.2, headLength_cons, Slot.head, hvariable]
    rfl
  · exact h.extent_eq _

mutual

theorem SszType.Declared.exact : {α : Type} → {τ : SszType α} → τ.Declared → τ.varies = false →
    τ.NoWrap → (v : α) → τ.size true v = τ.fixedSize ∧ τ.reach v = τ.fixedSize
  | _, .basic _, _, _, _, _ => ⟨rfl, rfl⟩
  | _, .array e n, h, hfix, hwrap, v => by
    obtain rfl | hn := Nat.eq_zero_or_pos n
    · have hv : v.1 = [] := List.eq_nil_of_length_eq_zero v.2
      rw [SszType.size, SszType.reach, hv, SszType.fixedSize, Nat.zero_mul]
      exact ⟨by cases e.variableSize <;> rfl, rfl⟩
    · have he : e.Declared := h
      have hfix' := SszType.varies_element hfix hn
      have hexact := fun x => SszType.Declared.exact he hfix' (hwrap hn) x
      have hsize : ∀ x ∈ v.1, e.size false x = e.fixedSize := by
        intro x _
        rw [SszType.size_early_of_varies hfix', (hexact x).1]
      rw [SszType.size, SszType.reach, SszType.fixedSize, he.variableSize_eq hfix', sizeOfRange,
        if_neg Bool.false_ne_true, sizeOfFixed_eq v.1 hsize,
        rangeReach_of_exact fun x _ => ⟨(hexact x).2, (hexact x).1⟩, v.2]
      exact ⟨rfl, rfl⟩
  | _, .vector _, h, _, _, _ => h.elim
  | _, .list _ _, _, hfix, _, _ => by cases hfix
  | _, .bitlist _, _, hfix, _, _ => by cases hfix
  | _, .bitset _, _, _, _, _ => ⟨rfl, rfl⟩
  | _, .container _ ms, h, hfix, hwrap, v => by
    have htotal := Members.Declared.total_exact h.2 hfix hwrap.2 v
    rw [Nat.mod_eq_of_lt hwrap.1] at htotal
    exact ⟨htotal, SszType.reach_container_of_exact (Members.Declared.slots_exact h.2 hfix hwrap.2 v)⟩

theorem Members.Declared.total_exact : {α : Type} → {ms : Members α} → ms.Declared →
    ms.varies = false → ms.NoWrap → (v : α) → ms.computeTotalLength v = ms.fixedSize % 2 ^ 32
  | _, .nil, _, _, _, _ => rfl
  | _, .cons m ms, h, hfix, hwrap, (v, vs) => by
    rw [Members.varies, Bool.or_eq_false_iff] at hfix
    have hms := Members.Declared.total_exact h.2 hfix.2 hwrap.2 vs
    rw [Members.computeTotalLength, sizePlusPlaceholder, h.1.variableSize_eq hfix.1,
      if_neg Bool.false_ne_true, (SszType.Declared.exact h.1 hfix.1 hwrap.1 v).1, hms,
      Members.fixedSize, ← Nat.add_mod]

theorem Members.Declared.slots_exact : {α : Type} → {ms : Members α} → ms.Declared →
    ms.varies = false → ms.NoWrap → (v : α) → ExactSlots (ms.slots v) ms.fixedSize
  | _, .nil, _, _, _, _ => ⟨nofun, rfl⟩
  | _, .cons m ms, h, hfix, hwrap, (v, vs) => by
    rw [Members.varies, Bool.or_eq_false_iff] at hfix
    obtain ⟨hall, hhead⟩ := Members.Declared.slots_exact h.2 hfix.2 hwrap.2 vs
    obtain ⟨hsize, hreach⟩ := SszType.Declared.exact h.1 hfix.1 hwrap.1 v
    have hvariable := h.1.variableSize_eq hfix.1
    constructor
    · intro s hs
      rcases List.mem_cons.mp hs with rfl | hmem
      · exact ⟨hvariable, hreach.trans hsize.symm⟩
      · exact hall s hmem
    · rw [Members.slots, headLength_cons, hhead, Slot.head, hvariable, if_neg Bool.false_ne_true, hsize,
        Members.fixedSize]

end

lemma SszType.Declared.soundlyFixed {τ : SszType α} (h : τ.Declared) (hfix : τ.varies = false)
    (hwrap : τ.NoWrap) : SoundlyFixed τ := by
  intro v
  obtain ⟨hsize, hreach⟩ := h.exact hfix hwrap v
  have hwidth := h.size_eq_width hfix v
  rw [SszType.serialize_returns_iff, ← hwidth, hreach, hsize]
  refine ⟨?_, le_refl _⟩
  rw [← hsize]
  cases τ with
  | array e n =>
    have hvariable : v.1 = [] ∨ e.variableSize = false := by
      obtain rfl | hn := Nat.eq_zero_or_pos n
      · exact .inl (List.eq_nil_of_length_eq_zero v.2)
      · have he : e.Declared := h
        exact .inr (he.variableSize_eq (SszType.varies_element hfix hn))
    rw [SszType.bufferSize, SszType.size]
    rcases hvariable with hnil | hvariable
    · rw [hnil]
      cases e.variableSize <;> rfl
    · rw [hvariable]
      rfl
  | vector e => exact h.elim
  | list e limit => cases hfix
  | _ => rfl

/-! ### Containers of `2 ^ 32` bytes or more -/

lemma SszType.le_reach_of_mem_slots {variableSize : Bool} {ms : Members α} {v : α} {s : Slot}
    (hs : s ∈ ms.slots v) : s.reach ≤ (SszType.container variableSize ms).reach v := by
  rw [SszType.reach]
  split
  · rename_i hcount
    obtain ⟨t, hslots, hreach⟩ := Members.reachSingle_mem hcount v
    rw [hslots, List.mem_singleton] at hs
    rw [hreach, hs]
  · exact le_extent_of_mem hs

/-- The encoder writes far, and beyond the bytes of a value-initialised object. -/
def SszType.Overruns (τ : SszType α) (v : α) : Prop := 2 ^ 32 ≤ τ.reach v ∧ τ.width < τ.reach v

lemma SszType.overruns_container {variableSize : Bool} {ms : Members α} {v : α}
    (h : 2 ^ 32 ≤ (SszType.container variableSize ms).reach v) :
    (SszType.container variableSize ms).Overruns v :=
  ⟨h, lt_of_lt_of_le (ms.computeTotalLength_lt ms.vac) h⟩

lemma SszType.Overruns.not_soundlyFixed {τ : SszType α} {v : α} (h : τ.Overruns v) : ¬ SoundlyFixed τ := by
  intro hsound
  have hreach := (SszType.serialize_returns_iff.mp (hsound v)).2
  exact absurd h.2 (by omega)

/-- An array whose last element overruns, while those before it are as long as a value-initialised
one. -/
lemma SszType.overruns_array {e : SszType α} {n : Nat} {vs : List α} {x : α}
    (hlen : (vs ++ [x]).length = n) (hsize : ∀ y ∈ vs, e.size true y = e.width) (hx : e.Overruns x) :
    (SszType.array e n).Overruns ⟨vs ++ [x], hlen⟩ := by
  have hpos : 0 < e.reach x := lt_of_lt_of_le (Nat.two_pow_pos 32) hx.1
  have hle := le_rangeReach_append e.reach (e.size true) e.variableSize vs hpos
  rw [sum_map_const hsize] at hle
  have hearly : e.size false e.vac ≤ e.width := by
    cases e with
    | bitlist limit => exact Nat.zero_le _
    | _ => exact le_refl _
  have hn : n = vs.length + 1 := by simpa using hlen.symm
  constructor
  · exact hx.1.trans (le_trans (by omega) hle)
  · refine lt_of_lt_of_le ?_ hle
    have hvac : (SszType.array e n).vac.1 = List.replicate n e.vac := rfl
    rw [SszType.width, SszType.size, hvac, sizeOfRange]
    have hmul : vs.length * e.size false e.vac ≤ vs.length * e.width := Nat.mul_le_mul_left _ hearly
    have hlast := hx.2
    split
    · rw [sizeOfVariable_eq, List.length_replicate, List.map_replicate, List.sum_replicate_nat, hn,
        Nat.succ_mul (vs.length) (e.size false e.vac)]
      omega
    · rw [sizeOfFixed_eq _ fun y hy => by rw [List.eq_of_mem_replicate hy], List.length_replicate, hn,
        Nat.succ_mul]
      omega

mutual

theorem SszType.Declared.overruns : {α : Type} → {τ : SszType α} → τ.Declared → τ.varies = false →
    ¬ τ.NoWrap → (v : α) → τ.Overruns v
  | _, .basic _, _, _, hwrap, _ => absurd trivial hwrap
  | _, .array e n, h, hfix, hwrap, v => by
    have he : e.Declared := h
    rw [SszType.NoWrap, not_forall] at hwrap
    obtain ⟨hn, hwrap⟩ := hwrap
    have hfix' := SszType.varies_element hfix hn
    obtain ⟨vs, hlen⟩ := v
    rcases List.eq_nil_or_concat' vs with rfl | ⟨ys, x, rfl⟩
    · rw [List.length_nil] at hlen
      omega
    · exact SszType.overruns_array hlen (fun y _ => he.size_eq_width hfix' y)
        (SszType.Declared.overruns he hfix' hwrap x)
  | _, .vector _, h, _, _, _ => h.elim
  | _, .list _ _, _, hfix, _, _ => by cases hfix
  | _, .bitlist _, _, hfix, _, _ => by cases hfix
  | _, .bitset _, _, _, hwrap, _ => absurd trivial hwrap
  | _, .container _ ms, h, hfix, hwrap, v => by
    apply SszType.overruns_container
    by_cases hms : ms.NoWrap
    · have hlen : ¬ ms.fixedSize < 2 ^ 32 := fun hlt => hwrap ⟨hlt, hms⟩
      rw [SszType.reach_container_of_exact (Members.Declared.slots_exact h.2 hfix hms v)]
      omega
    · obtain ⟨s, hs, hreach⟩ := Members.Declared.exists_slot h.2 hfix hms v
      exact hreach.trans (SszType.le_reach_of_mem_slots hs)

theorem Members.Declared.exists_slot : {α : Type} → {ms : Members α} → ms.Declared → ms.varies = false →
    ¬ ms.NoWrap → (v : α) → ∃ s ∈ ms.slots v, 2 ^ 32 ≤ s.reach
  | _, .nil, _, _, hwrap, _ => absurd trivial hwrap
  | _, .cons m ms, h, hfix, hwrap, (v, vs) => by
    rw [Members.varies, Bool.or_eq_false_iff] at hfix
    by_cases hm : m.NoWrap
    · obtain ⟨s, hs, hreach⟩ :=
        Members.Declared.exists_slot h.2 hfix.2 (fun hms => hwrap ⟨hm, hms⟩) vs
      exact ⟨s, List.mem_cons_of_mem _ hs, hreach⟩
    · exact ⟨_, List.mem_cons_self, (SszType.Declared.overruns h.1 hfix.1 hm v).1⟩

end

/-! ### Objects with lists -/

/-- A list with enough value-initialised elements. -/
lemma SszType.Declared.overruns_list {e : SszType α} (h : e.Declared)
    (hpos : e.variableSize = false → e.varies = false → 0 < e.fixedSize)
    (helem : e.varies = true → ∃ x, e.Overruns x) :
    ∃ vs : List α, 2 ^ 32 ≤ rangeReach e.variableSize e.reach (e.size true) vs := by
  cases hvariable : e.variableSize with
  | true => exact ⟨List.replicate (2 ^ 32) e.vac, le_trans (by omega) (le_rangeReach_replicate _ _ _ _)⟩
  | false =>
    have hsingle : ∀ x, e.reach x ≤ rangeReach false e.reach (e.size true) [x] := fun x =>
      le_extent_of_mem (s := ⟨false, e.reach x, e.size true x⟩) (by simp [elementSlots])
    cases hfix : e.varies with
    | true =>
      obtain ⟨x, hx⟩ := helem hfix
      exact ⟨[x], hx.1.trans (hsingle x)⟩
    | false =>
      by_cases hwrap : e.NoWrap
      · refine ⟨List.replicate (2 ^ 32) e.vac, ?_⟩
        have hexact := fun x => h.exact hfix hwrap x
        rw [rangeReach_of_exact fun x _ => ⟨(hexact x).2, (hexact x).1⟩, List.length_replicate]
        exact Nat.le_mul_of_pos_right _ (hpos hvariable hfix)
      · exact ⟨[e.vac], (h.overruns hfix hwrap e.vac).1.trans (hsingle e.vac)⟩

mutual

theorem SszType.Declared.exists_overruns : {α : Type} → {τ : SszType α} → τ.Declared →
    τ.varies = true → ∃ v, τ.Overruns v
  | _, .basic _, _, hvaries => by cases hvaries
  | _, .array e n, h, hvaries => by
    rw [SszType.varies, Bool.and_eq_true, decide_eq_true_iff] at hvaries
    obtain ⟨x, hx⟩ := SszType.Declared.exists_overruns (τ := e) h hvaries.2
    have hlen : (List.replicate (n - 1) e.vac ++ [x]).length = n := by
      rw [List.length_append, List.length_replicate, List.length_singleton]
      omega
    refine ⟨⟨_, hlen⟩, SszType.overruns_array hlen (fun y hy => ?_) hx⟩
    rw [List.eq_of_mem_replicate hy]
    rfl
  | _, .vector _, h, _ => h.elim
  | _, .list e limit, h, _ => by
    obtain ⟨vs, hreach⟩ := h.1.overruns_list h.2 fun hvaries => SszType.Declared.exists_overruns h.1 hvaries
    have hwidth : (SszType.list e limit).width = 0 := by
      rw [SszType.width, SszType.size]
      cases e.variableSize <;> rfl
    exact ⟨vs, hreach, by rw [hwidth]; exact lt_of_lt_of_le (Nat.two_pow_pos 32) hreach⟩
  | _, .bitlist limit, _, _ => by
    refine ⟨List.replicate (8 * 2 ^ 32) false, ?_⟩
    have hreach : (SszType.bitlist limit).reach (List.replicate (8 * 2 ^ 32) false) = 2 ^ 32 + 1 := by
      rw [SszType.reach, List.length_replicate]
      omega
    have hwidth : (SszType.bitlist limit).width = 1 := by
      rw [SszType.width, SszType.size, if_pos rfl, SszType.vac, List.length_nil]
    rw [SszType.Overruns, hreach, hwidth]
    omega
  | _, .bitset _, _, hvaries => by cases hvaries
  | _, .container _ ms, h, hvaries => by
    obtain ⟨v, s, hs, hreach⟩ := Members.Declared.exists_overruns h.2 hvaries
    exact ⟨v, SszType.overruns_container (hreach.trans (SszType.le_reach_of_mem_slots hs))⟩

theorem Members.Declared.exists_overruns : {α : Type} → {ms : Members α} → ms.Declared →
    ms.varies = true → ∃ v, ∃ s ∈ ms.slots v, 2 ^ 32 ≤ s.reach
  | _, .nil, _, hvaries => by cases hvaries
  | _, .cons m ms, h, hvaries => by
    rw [Members.varies, Bool.or_eq_true] at hvaries
    rcases hvaries with hm | hms
    · obtain ⟨x, hx⟩ := SszType.Declared.exists_overruns h.1 hm
      exact ⟨(x, ms.vac), _, List.mem_cons_self, hx.1⟩
    · obtain ⟨v, s, hs, hreach⟩ := Members.Declared.exists_overruns h.2 hms
      exact ⟨(m.vac, v), s, List.mem_cons_of_mem _ hs, hreach⟩

end

/-- All objects of a type serialize to as many bytes as a value-initialised one exactly when they have
no lists in them and their containers are shorter than `2 ^ 32` bytes. -/
theorem soundlyFixed_iff (τ : SszType α) (h : τ.Declared) :
    SoundlyFixed τ ↔ τ.varies = false ∧ τ.NoWrap := by
  constructor
  · intro hsound
    have hfix : τ.varies = false := by
      by_contra hvaries
      obtain ⟨v, hv⟩ := h.exists_overruns (Bool.not_eq_false _ ▸ hvaries)
      exact hv.not_soundlyFixed hsound
    refine ⟨hfix, ?_⟩
    by_contra hwrap
    exact (h.overruns hfix hwrap τ.vac).not_soundlyFixed hsound
  · rintro ⟨hfix, hwrap⟩
    exact h.soundlyFixed hfix hwrap

theorem soundlyFixed_iff_sample :
    SoundlyFixed (SszType.array (.basic .uint16) 3) ↔
      (SszType.array (.basic .uint16) 3).varies = false ∧ (SszType.array (.basic .uint16) 3).NoWrap :=
  soundlyFixed_iff (.array (.basic .uint16) 3) trivial

/-- `std::array<ssz::list<std::uint8_t, 4>, 2>` -/
def arrayOfLists : SszType (StdArray (List (BitVec 8)) 2) := .array (.list (.basic .uint8) 4) 2

theorem arrayOfLists_not_soundlyFixed :
    arrayOfLists.variableSize = false ∧
      arrayOfLists.serialize ⟨[[], []], rfl⟩ = .ok [8, 0, 0, 0, 8, 0, 0, 0] ∧
      arrayOfLists.serialize ⟨[[1], []], rfl⟩ = .ok [8, 0, 0, 0, 9, 0, 0, 0, 1] ∧
      ¬ SoundlyFixed arrayOfLists := by
  refine ⟨rfl, by decide, by decide, fun hsound => ?_⟩
  have hrun : arrayOfLists.serialize ⟨[[1], []], rfl⟩ = .ok [8, 0, 0, 0, 9, 0, 0, 0, 1] := by decide
  have hwidth : arrayOfLists.width = 8 := by decide
  obtain ⟨out, hout, hlen⟩ := hsound ⟨[[1], []], rfl⟩
  obtain rfl := Except.ok.inj (hrun.symm.trans hout)
  exact absurd (hlen.trans hwidth) (by decide)

end Sszpp
