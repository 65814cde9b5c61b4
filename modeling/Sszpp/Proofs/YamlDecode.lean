import Sszpp.Model.Yaml

/-!
# Results of the YAML decoders of containers

A container is reported as decoded when the decoder of its last member returns true, and so on through
last members that are containers.
-/

namespace Sszpp

variable {Node : Type} {α : Type}

section Decoded

variable (index : Node → String → Node)

/-- Whether the decoders of all members return true. -/
def YamlPairs.membersDecoded {α : Type} : YamlPairs Node α → Node → α → Bool
  | .single key m, node, (r, ()) => (m.decode index (index node key) r).1
  | .cons key m pairs, node, (r, rs) =>
    (m.decode index (index node key) r).1 && pairs.membersDecoded node rs

mutual

/-- Whether the decoders that are not for containers return true, in members at every depth. -/
def YamlType.allDecoded {α : Type} : YamlType Node α → Node → α → Bool
  | .other decode, node, r => (decode node r).1
  | .container pairs, node, r => pairs.allDecoded node r

def YamlPairs.allDecoded {α : Type} : YamlPairs Node α → Node → α → Bool
  | .single key m, node, (r, ()) => m.allDecoded (index node key) r
  | .cons key m pairs, node, (r, rs) => m.allDecoded (index node key) r && pairs.allDecoded node rs

end

mutual

/-- Whether the last of these decoders returns true. -/
def YamlType.lastDecoded {α : Type} : YamlType Node α → Node → α → Bool
  | .other decode, node, r => (decode node r).1
  | .container pairs, node, r => pairs.lastDecoded node r

def YamlPairs.lastDecoded {α : Type} : YamlPairs Node α → Node → α → Bool
  | .single key m, node, (r, ()) => m.lastDecoded (index node key) r
  | .cons _ _ pairs, node, (_, rs) => pairs.lastDecoded node rs

end

mutual

/-- The comma operator leaves the result of the last decoder. -/
theorem YamlType.decode_eq_last : {α : Type} → (τ : YamlType Node α) → (node : Node) → (r : α) →
    (τ.decode index node r).1 = τ.lastDecoded index node r
  | _, .other _, _, _ => rfl
  | _, .container pairs, node, r => pairs.yamlDecodeContainer_eq_last node r

theorem YamlPairs.yamlDecodeContainer_eq_last : {α : Type} → (pairs : YamlPairs Node α) →
    (node : Node) → (r : α) →
    (pairs.yamlDecodeContainer index node r).1 = pairs.lastDecoded index node r
  | _, .single key m, node, (r, ()) => m.decode_eq_last (index node key) r
  | _, .cons _ _ pairs, node, (_, rs) => pairs.yamlDecodeContainer_eq_last node rs

end

mutual

theorem YamlType.lastDecoded_of_all : {α : Type} → (τ : YamlType Node α) → (node : Node) → (r : α) →
    τ.allDecoded index node r = true → τ.lastDecoded index node r = true
  | _, .other _, _, _, h => h
  | _, .container pairs, node, r, h => pairs.lastDecoded_of_all node r h

theorem YamlPairs.lastDecoded_of_all : {α : Type} → (pairs : YamlPairs Node α) → (node : Node) →
    (r : α) → pairs.allDecoded index node r = true → pairs.lastDecoded index node r = true
  | _, .single key m, node, (r, ()), h => m.lastDecoded_of_all (index node key) r h
  | _, .cons _ _ pairs, node, (_, rs), h => by
    rw [YamlPairs.allDecoded, Bool.and_eq_true] at h
    exact pairs.lastDecoded_of_all node rs h.2

end

lemma YamlPairs.decoded_of_members : {α : Type} → (pairs : YamlPairs Node α) → (node : Node) →
    (r : α) → pairs.membersDecoded index node r = true →
    (pairs.yamlDecodeContainer index node r).1 = true
  | _, .single _ _, _, (_, ()), h => h
  | _, .cons _ _ pairs, node, (_, rs), h => by
    rw [YamlPairs.membersDecoded, Bool.and_eq_true] at h
    exact pairs.decoded_of_members node rs h.2

/-- A member all of whose decoders return true is reported as decoded. -/
lemma YamlPairs.membersDecoded_of_all : {α : Type} → (pairs : YamlPairs Node α) → (node : Node) →
    (r : α) → pairs.allDecoded index node r = true → pairs.membersDecoded index node r = true
  | _, .single key m, node, (r, ()), h => by
    rw [YamlPairs.membersDecoded, m.decode_eq_last]
    exact m.lastDecoded_of_all index (index node key) r h
  | _, .cons key m pairs, node, (r, rs), h => by
    rw [YamlPairs.allDecoded, Bool.and_eq_true] at h
    rw [YamlPairs.membersDecoded, Bool.and_eq_true, m.decode_eq_last]
    exact ⟨m.lastDecoded_of_all index (index node key) r h.1, pairs.membersDecoded_of_all node rs h.2⟩

/-- A container is reported as decoded when the decoders of its members return true, and when those
of the members at every depth do. -/
def YamlPairs.DecodesAll (pairs : YamlPairs Node α) (node : Node) (r : α) : Prop :=
  ((pairs.yamlDecodeContainer index node r).1 = true ↔ pairs.membersDecoded index node r = true) ∧
    ((pairs.yamlDecodeContainer index node r).1 = true ↔ pairs.allDecoded index node r = true)

/-- No failure goes unnoticed exactly when the last decoder fails or none does. -/
theorem yamlDecodesAll_iff (pairs : YamlPairs Node α) (node : Node) (r : α) :
    pairs.DecodesAll index node r ↔
      pairs.lastDecoded index node r = false ∨ pairs.allDecoded index node r = true := by
  have hlast := pairs.yamlDecodeContainer_eq_last index node r
  constructor
  · intro hdecodes
    cases hfalse : pairs.lastDecoded index node r with
    | false => exact .inl rfl
    | true => exact .inr (hdecodes.2.mp (hlast.trans hfalse))
  · rintro (hfalse | hall)
    · rw [hfalse] at hlast
      have hmembers : pairs.membersDecoded index node r ≠ true := fun h =>
        absurd (pairs.decoded_of_members index node r h) (by rw [hlast]; decide)
      have hall : pairs.allDecoded index node r ≠ true := fun h =>
        hmembers (pairs.membersDecoded_of_all index node r h)
      have hdecoded : (pairs.yamlDecodeContainer index node r).1 ≠ true := by
        rw [hlast]
        decide
      exact ⟨iff_of_false hdecoded hmembers, iff_of_false hdecoded hall⟩
    · have hmembers := pairs.membersDecoded_of_all index node r hall
      have hdecoded := pairs.decoded_of_members index node r hmembers
      exact ⟨iff_of_true hdecoded hmembers, iff_of_true hdecoded hall⟩

end Decoded

/-! ### A checkpoint without an epoch -/

/-- A scalar node, or none; a decoder that needs one. -/
def decodeScalar (node : Option Nat) (r : Nat) : Bool × Nat :=
  match node with
  | some value => (true, value)
  | none => (false, r)

def checkpointPairs : YamlPairs (Option Nat) (Nat × Nat × Unit) :=
  .cons "epoch" (.other decodeScalar) (.single "root" (.other decodeScalar))

/-- The scalars of a node whose only key is `"root"`. -/
def rootOnly (node : Option Nat) (key : String) : Option Nat := if key = "root" then node else none

/-- The decoder of `"epoch"` fails and its member keeps the 7 that it held. -/
theorem checkpoint_reported :
    checkpointPairs.yamlDecodeContainer rootOnly (some 5) (7, 0, ()) = (true, 7, 5, ()) ∧
      checkpointPairs.membersDecoded rootOnly (some 5) (7, 0, ()) = false ∧
      ¬ checkpointPairs.DecodesAll rootOnly (some 5) (7, 0, ()) := by
  refine ⟨rfl, rfl, fun hdecodes => ?_⟩
  have hmembers : checkpointPairs.membersDecoded rootOnly (some 5) (7, 0, ()) = true := hdecodes.1.mp rfl
  cases hmembers

end Sszpp
