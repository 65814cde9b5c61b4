import Mathlib.Algebra.Group.Action.Defs
import Sszpp.Proofs.Sizes
import Sszpp.Proofs.Wrap

/-!
# The longest encoding of a type

The limits of the lists in a type bound the lengths of its encodings, and an object with all lists full
attains the bound. Whether the 32-bit lengths of a container can wrap is then a property of its type.
-/

namespace Sszpp

open Library

variable {α : Type}

mutual

/-- The length of an encoding in which every list is full. -/
def SszType.maxLength {α : Type} : SszType α → Nat
  | .basic b => b.sizeof
  | .array e n => n * entryLength e.variableSize e.maxLength
  | .vector _ => 0
  | .list e limit => limit * entryLength e.variableSize e.maxLength
  | .bitlist limit => limit / 8 + 1
  | .bitset n => (n + 7) / 8
  | .container _ ms => ms.maxLength

def Members.maxLength {α : Type} : Members α → Nat
  | .nil => 0
  | .cons m ms => entryLength m.variableSize m.maxLength + ms.maxLength

end

mutual

/-- An object with all lists full. -/
def SszType.full {α : Type} : SszType α → α
  | .basic b => b.vac
  | .array e n => ⟨List.replicate n e.full, List.length_replicate⟩
  | .vector _ => []
  | .list e limit => List.replicate limit e.full
  | .bitlist limit => List.replicate limit false
  | .bitset n => ⟨List.replicate n false, List.length_replicate⟩
  | .container _ ms => ms.full

def Members.full {α : Type} : Members α → α
  | .nil => ()
  | .cons m ms => (m.full, ms.full)

end

lemma entryLength_le_entryLength {n n' : Nat} (isVariable : Bool) (h : n ≤ n') :
    entryLength isVariable n ≤ entryLength isVariable n' := by
  unfold entryLength
  split <;> omega

lemma SszType.elementsLength_le {e : SszType α} {vs : List α} {k : Nat} (h : ∀ x ∈ vs, e.layoutLength x ≤ k) :
    e.elementsLength vs ≤ vs.length * entryLength e.variableSize k := by
  have hsum := List.sum_le_card_nsmul (vs.map fun x => entryLength e.variableSize (e.layoutLength x))
    (entryLength e.variableSize k) (by
      intro n hn
      obtain ⟨x, hx, rfl⟩ := List.mem_map.mp hn
      exact entryLength_le_entryLength _ (h x hx))
  rwa [List.length_map, smul_eq_mul] at hsum

mutual

theorem SszType.layoutLength_le : {α : Type} → (τ : SszType α) → τ.Sound → (v : α) → τ.WithinLimits v →
    τ.layoutLength v ≤ τ.maxLength
  | _, .basic _, _, _, _ => le_rfl
  | _, .array e n, h, v, hwithin => by
    have hlen := SszType.elementsLength_le fun x hx => SszType.layoutLength_le e h.2 x (hwithin x hx)
    rwa [v.2] at hlen
  | _, .vector _, h, _, _ => h.elim
  | _, .list e limit, h, v, hwithin => by
    have hlen := SszType.elementsLength_le fun x hx => SszType.layoutLength_le e h.2 x (hwithin.2 x hx)
    exact hlen.trans (Nat.mul_le_mul_right _ hwithin.1)
  | _, .bitlist _, _, _, hwithin => Nat.add_le_add_right (Nat.div_le_div_right hwithin) 1
  | _, .bitset _, _, _, _ => le_rfl
  | _, .container _ ms, h, v, hwithin => Members.layoutLength_le ms h v hwithin

theorem Members.layoutLength_le : {α : Type} → (ms : Members α) → ms.Sound → (v : α) → ms.WithinLimits v →
    ms.layoutLength v ≤ ms.maxLength
  | _, .nil, _, _, _ => le_rfl
  | _, .cons m ms, h, (v, vs), hwithin =>
    Nat.add_le_add (entryLength_le_entryLength _ (SszType.layoutLength_le m h.2.1 v hwithin.1))
      (Members.layoutLength_le ms h.2.2 vs hwithin.2)

end

mutual

theorem SszType.withinLimits_full : {α : Type} → (τ : SszType α) → τ.WithinLimits τ.full
  | _, .basic _ => trivial
  | _, .array e n => fun x hx => by
    obtain rfl := List.eq_of_mem_replicate hx
    exact e.withinLimits_full
  | _, .vector _ => fun _ hx => by cases hx
  | _, .list e limit => by
    refine ⟨le_of_eq List.length_replicate, fun x hx => ?_⟩
    obtain rfl := List.eq_of_mem_replicate hx
    exact e.withinLimits_full
  | _, .bitlist _ => le_of_eq List.length_replicate
  | _, .bitset _ => trivial
  | _, .container _ ms => ms.withinLimits_full

theorem Members.withinLimits_full : {α : Type} → (ms : Members α) → ms.WithinLimits ms.full
  | _, .nil => trivial
  | _, .cons m ms => ⟨m.withinLimits_full, ms.withinLimits_full⟩

end

mutual

theorem SszType.layoutLength_full : {α : Type} → (τ : SszType α) → τ.layoutLength τ.full = τ.maxLength
  | _, .basic _ => rfl
  | _, .array e n => by
    rw [SszType.full, SszType.layoutLength, List.map_replicate, List.sum_replicate, smul_eq_mul,
      e.layoutLength_full, SszType.maxLength]
  | _, .vector _ => rfl
  | _, .list e limit => by
    rw [SszType.full, SszType.layoutLength, List.map_replicate, List.sum_replicate, smul_eq_mul,
      e.layoutLength_full, SszType.maxLength]
  | _, .bitlist _ => by rw [SszType.full, SszType.layoutLength, List.length_replicate, SszType.maxLength]
  | _, .bitset _ => rfl
  | _, .container _ ms => ms.layoutLength_full

theorem Members.layoutLength_full : {α : Type} → (ms : Members α) → ms.layoutLength ms.full = ms.maxLength
  | _, .nil => rfl
  | _, .cons m ms => by
    rw [Members.full, Members.layoutLength, m.layoutLength_full, ms.layoutLength_full, Members.maxLength]

end

/-- Of the objects within their limits none has a longer encoding, and one has an encoding this long. -/
lemma SszType.Sound.isGreatest_length {τ : SszType α} (h : τ.Sound) :
    IsGreatest {n | ∃ v, τ.WithinLimits v ∧ (τ.encode v).length = n} τ.maxLength := by
  constructor
  · exact ⟨τ.full, τ.withinLimits_full, by rw [← h.layoutLength_eq, τ.layoutLength_full]⟩
  · rintro n ⟨v, hwithin, rfl⟩
    rw [← h.layoutLength_eq]
    exact τ.layoutLength_le h v hwithin

def SszType.isContainer {α : Type} : SszType α → Bool
  | .container _ _ => true
  | _ => false

lemma SszType.noSilentWrap_all_iff {τ : SszType α} (h : τ.Encodable) (hcontainer : τ.isContainer = true) :
    (∀ v, τ.WithinLimits v → NoSilentWrap τ v) ↔ τ.maxLength < 2 ^ 32 := by
  obtain ⟨⟨v, hwithin, hlen⟩, hle⟩ := h.regular.sound.isGreatest_length
  constructor
  · intro hall
    rw [← hlen]
    cases τ with
    | container variableSize ms => exact (hall v hwithin).length_lt
    | _ => cases hcontainer
  · intro hlt w hw
    have hlength := hle ⟨w, hw, rfl⟩
    exact noSilentWrap_of_length_lt h.regular (h.bitsAgree w) (Nat.lt_of_le_of_lt hlength hlt)

/-- `maxLength` is the length of the longest encoding of an object within its limits, and no object of a
container type wraps exactly when it is below `2 ^ 32`. -/
theorem maxLength_spec {τ : SszType α} (h : τ.Encodable) :
    IsGreatest {n | ∃ v, τ.WithinLimits v ∧ (τ.encode v).length = n} τ.maxLength ∧
      (τ.isContainer = true → ((∀ v, τ.WithinLimits v → NoSilentWrap τ v) ↔ τ.maxLength < 2 ^ 32)) :=
  ⟨h.regular.sound.isGreatest_length, SszType.noSilentWrap_all_iff h⟩

theorem maxLength_spec_sample : (∀ v, sampleType.WithinLimits v → NoSilentWrap sampleType v) ↔ 44 < 2 ^ 32 :=
  (maxLength_spec encodable_sampleType).2 rfl

end Sszpp
