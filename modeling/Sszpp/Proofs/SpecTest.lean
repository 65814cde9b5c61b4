import Sszpp.Model.BeaconYaml
import Sszpp.Model.SpecTest
import Sszpp.Proofs.AnyLength
import Sszpp.Proofs.BeaconContainers
import Sszpp.Proofs.YamlConvert

/-!
# What the specification tests check

A test of an object passes when the uncompressed file decodes to the object and the root in the file is what
the recursion over the type gives for the number of threads, which is the reference root as long as no list is
longer than its limit. The serialized bytes are decoded again but never compared with the file.
-/

namespace Sszpp

open Library

variable {Node : Type} {α β : Type}

lemma Outcome.toConversion_eq_ok {x : Outcome α} {a : α} : x.toConversion = .ok a ↔ x = .ok a := by
  cases x with
  | error stop => exact ⟨nofun, nofun⟩
  | ok b => exact ⟨fun h => by cases h; rfl, fun h => by cases h; rfl⟩

/-- Two steps that do not depend on each other. -/
lemma Conversion.bind_comm {γ : Type} {x : Conversion α} {y : Conversion β} {f : α → β → Conversion γ} {c : γ} :
    (x >>= fun a => y >>= fun b => f a b) = .ok c ↔ (y >>= fun b => x >>= fun a => f a b) = .ok c := by
  simp only [Conversion.bind_eq_ok]
  constructor
  · rintro ⟨a, ha, b, hb, h⟩
    exact ⟨b, hb, a, ha, h⟩
  · rintro ⟨b, hb, a, ha, h⟩
    exact ⟨a, ha, b, hb, h⟩

/-- Every step of a test returned. -/
lemma doTest_eq_ok {P : Platform} {Y : YamlLibrary Node} {new : {α : Type} → Schema α → α} {s : Schedule}
    {τ : Schema α} {case : TestCase Node} {run : TestRun α} :
    doTest P Y new s τ case = .ok run ↔
      ∃ serializedBytes sszOutput events,
        τ.read Y new case.value = .ok run.decoded ∧ τ.type.serialize run.decoded = .ok serializedBytes ∧
        τ.type.deserializeNew serializedBytes = .ok run.deserialized ∧
        store 0 case.content (zeros serializedBytes.length) = .ok sszOutput ∧
        τ.type.deserializeNew sszOutput = .ok run.deserializedSnappy ∧
        (Schema.byteArray BYTES_PER_CHUNK).read Y new (Y.index case.roots "root") = .ok run.root ∧
        (τ.type.hashTreeRootValue P s run.deserializedSnappy 0).run = .ok (run.htr, events) := by
  constructor
  · intro h
    obtain ⟨decoded, hdecoded, h⟩ := Conversion.bind_eq_ok.mp h
    obtain ⟨serializedBytes, hserialized, h⟩ := Conversion.bind_eq_ok.mp h
    obtain ⟨deserialized, hdeserialized, h⟩ := Conversion.bind_eq_ok.mp h
    obtain ⟨sszOutput, houtput, h⟩ := Conversion.bind_eq_ok.mp h
    obtain ⟨deserializedSnappy, hsnappy, h⟩ := Conversion.bind_eq_ok.mp h
    obtain ⟨root, hroot, h⟩ := Conversion.bind_eq_ok.mp h
    obtain ⟨⟨htr, events⟩, hhtr, h⟩ := Conversion.bind_eq_ok.mp h
    cases h
    rw [Outcome.toConversion_eq_ok] at hserialized hdeserialized houtput hsnappy hhtr
    exact ⟨serializedBytes, sszOutput, events, hdecoded, hserialized, hdeserialized, houtput, hsnappy, hroot, hhtr⟩
  · rintro ⟨serializedBytes, sszOutput, events, hdecoded, hserialized, hdeserialized, houtput, hsnappy, hroot, hhtr⟩
    rw [doTest, hdecoded]
    simp only [Bind.bind, Except.bind, hserialized, hdeserialized, houtput, hsnappy, hroot, hhtr,
      Outcome.toConversion]

/-! ### Objects that were serialized -/

/-- Elements that take up bytes are no more than the bytes. -/
lemma SszType.length_le_encode {e : SszType α} (he : e.Invertible) (hwidth : e.isVariableSize = false → 0 < e.width)
    (vs : List α) : vs.length ≤ (assemble (e.elementParts vs)).length := by
  cases hvar : e.isVariableSize with
  | true =>
    rw [e.elementParts_of_variable hvar, length_assemble_variableParts]
    omega
  | false =>
    have hwf := he.encodable.wellFormed
    have hpos : 0 < e.fixedSize := by
      by_contra hzero
      have heq := e.width_eq_fixedSize hwf hvar (by omega)
      have hlt := hwidth hvar
      omega
    have hconst : ∀ x ∈ vs, (e.encode x).length = e.fixedSize := fun x _ =>
      e.length_encode_of_fixed he.encodable hvar x
    rw [e.assemble_elementParts hvar, length_flatMap_const _ _ hconst]
    exact Nat.le_mul_of_pos_right _ hpos

lemma SszType.chunkLimit_le (e : SszType α) {n : Nat} (h : n < 2 ^ 32) : chunkLimit e.basicLayout n ≤ 2 ^ 41 := by
  cases e with
  | basic b =>
    have hsize : b.sizeof ≤ 32 := by cases b <;> decide
    have hmul := Nat.mul_le_mul_left n hsize
    change (n * b.sizeof + 31) / 32 ≤ 2 ^ 41
    omega
  | _ =>
    change n ≤ 2 ^ 41
    omega

mutual

/-- What is serialized to fewer than `2 ^ 32` bytes is hashed in small trees, whatever the limits. -/
theorem SszType.leavesBounded_of_length : {α : Type} → (τ : SszType α) → τ.Invertible → τ.treesBounded = true →
    (v : α) → (τ.encode v).length < 2 ^ 32 → τ.LeavesBounded v
  | _, .basic _, _, _, _, _ => trivial
  | _, .array e n, h, htrees, v, hlen => by
    simp only [SszType.treesBounded, Bool.and_eq_true, decide_eq_true_iff] at htrees
    have hle := length_leavesOf_le e.basicLayout (fun _ => zeroHash) (le_of_eq v.2)
    exact ⟨hle.trans htrees.1, fun x hx => e.leavesBounded_of_length h.2.2.2 htrees.2 x
      ((length_encode_le_of_mem hx).trans_lt hlen)⟩
  | _, .vector _, h, _, _, _ => h.elim
  | _, .list e limit, h, htrees, v, hlen => by
    simp only [SszType.treesBounded, Bool.and_eq_true, decide_eq_true_iff] at htrees
    have hcount := (e.length_le_encode h.2.2.2.1 h.2.2.2.2 v).trans_lt hlen
    have hle := length_leavesOf_le e.basicLayout (fun _ => zeroHash) (le_refl v.length)
    exact ⟨htrees.1, hle.trans (e.chunkLimit_le hcount), fun x hx =>
      e.leavesBounded_of_length h.2.2.2.1 htrees.2 x ((length_encode_le_of_mem hx).trans_lt hlen)⟩
  | _, .bitlist limit, _, htrees, v, hlen => by
    simp only [SszType.treesBounded, decide_eq_true_iff] at htrees
    rw [SszType.encode, length_packBits, List.length_append, List.length_singleton] at hlen
    exact ⟨htrees, by omega⟩
  | _, .bitset _, _, htrees, _, _ => by
    simp only [SszType.treesBounded, decide_eq_true_iff] at htrees
    exact htrees
  | _, .container _ ms, h, htrees, v, hlen => by
    simp only [SszType.treesBounded, Bool.and_eq_true, decide_eq_true_iff] at htrees
    exact ⟨htrees.1, ms.leavesBounded_of_length h.2.2 htrees.2 v fun _ hp =>
      (length_bytes_le_assemble hp).trans_lt hlen⟩

theorem Members.leavesBounded_of_length : {α : Type} → (ms : Members α) → ms.Invertible → ms.treesBounded = true →
    (v : α) → (∀ p ∈ ms.parts v, p.bytes.length < 2 ^ 32) → ms.LeavesBounded v
  | _, .nil, _, _, _, _ => trivial
  | _, .cons m ms, h, htrees, (v, vs), hlen => by
    rw [Members.treesBounded, Bool.and_eq_true] at htrees
    rw [Members.parts, List.forall_mem_cons] at hlen
    exact ⟨m.leavesBounded_of_length h.1 htrees.1 v hlen.1, ms.leavesBounded_of_length h.2 htrees.2 vs hlen.2⟩

end

section Passes

variable {P : Platform} {Y : YamlLibrary Node} {new : {α : Type} → Schema α → α}
  (hnew : ∀ {α : Type} (e : Schema α), e.Blank (new e)) {τ : Schema α} {v : α} {case : TestCase Node}
  {root : Chunk}
include hnew

end Passes

/-! ### The containers of the library -/

namespace Beacon

lemma type_mem_containers {τ : Σ α : Type, Schema α} (h : τ ∈ Yaml.containers) :
    ⟨τ.1, τ.2.type⟩ ∈ containers := by
  rw [← Yaml.type_containers]
  exact List.mem_map_of_mem h

/-- On the heap a test of an object of the library comes to the same results as on the stack, whatever is in
the memory that `new` allocates, and whatever the files hold. -/
theorem doTestHeap_iff_doTest (P : Platform) (Y : YamlLibrary Node) (new : {α : Type} → Schema α → α)
    (s : Schedule) {τ : Σ α : Type, Schema α} (hτ : τ ∈ Yaml.containers) (fresh : τ.1) (case : TestCase Node)
    (run : TestRun τ.1) :
    doTestHeap P Y new s fresh τ.2 case = .ok run ↔ doTest P Y new s τ.2 case = .ok run := by
  have hmem := type_mem_containers hτ
  have htarget : ∀ bytes, τ.2.type.deserialize bytes fresh = τ.2.type.deserializeNew bytes := fun bytes =>
    SszType.deserialize_eq_of_refreshes (encodable_containers _ hmem).wellFormed (dense_containers _ hmem)
      (refreshes_containers _ hmem) bytes τ.2.type.vac fresh
  rw [doTestHeap, doTest, Conversion.bind_eq_ok, Conversion.bind_eq_ok]
  refine exists_congr fun decoded => and_congr_right fun _ => ?_
  rw [Conversion.bind_eq_ok, Conversion.bind_eq_ok]
  refine exists_congr fun serializedBytes => and_congr_right fun _ => ?_
  rw [htarget]
  exact Conversion.bind_comm

end Beacon

/-! ### A test that passes -/

def sampleCheckpoint : BitVec 64 × StdArray Byte 32 × Unit := (513, zeroHash, ())

def sampleRoot : Chunk := Beacon.checkpoint.root samplePlatform.hashtreeHash sampleCheckpoint

def sampleCase : TestCase Document where
  value := .map [("epoch", .text [charCode '5', charCode '1', charCode '3']), ("root", bytesText zeroHash.1)]
  content := [1, 2] ++ zeros 38
  roots := .map [("root", bytesText sampleRoot.1)]

def sampleRun : TestRun (BitVec 64 × StdArray Byte 32 × Unit) :=
  ⟨sampleCheckpoint, sampleCheckpoint, sampleCheckpoint, sampleRoot, sampleRoot⟩

lemma presents_sampleCheckpoint :
    Beacon.Yaml.checkpoint.Presents documentLibrary sampleCase.value sampleCheckpoint :=
  ⟨rfl, _, rfl, spells_bytesText _⟩

lemma presents_sampleRoot :
    (Schema.byteArray BYTES_PER_CHUNK).Presents documentLibrary (documentLibrary.index sampleCase.roots "root")
      sampleRoot :=
  ⟨_, rfl, spells_bytesText _⟩

lemma withinLimits_sampleCheckpoint : Beacon.checkpoint.WithinLimits sampleCheckpoint := by
  simp [Beacon.checkpoint, Beacon.uint64, Beacon.root, Beacon.byteArray, SszType.WithinLimits, Members.WithinLimits]

/-- The run of that test, on memory that holds another checkpoint. -/
theorem Beacon.doTestHeap_iff_doTest_sample :
    doTestHeap samplePlatform documentLibrary (fun τ => τ.type.vac) (fun _ => true) (5, zeroHash, ())
      Beacon.Yaml.checkpoint sampleCase = .ok sampleRun := by
  have hwithin := withinLimits_sampleCheckpoint
  have htrees : Beacon.checkpoint.treesBounded = true := rfl
  obtain ⟨events, hhash⟩ : ∃ events, (Beacon.checkpoint.hashTreeRoot samplePlatform (fun _ => true)
      sampleCheckpoint 0 zeroHash).run = .ok (sampleRoot, events) := by
    have hbounded := Beacon.checkpoint.leavesBounded_of_withinLimits htrees sampleCheckpoint hwithin
    have hfits := Beacon.checkpoint.treesFit_of_withinLimits samplePlatform 0 sampleCheckpoint hwithin
      (Beacon.checkpoint.treesWithin_of_bounded htrees sampleCheckpoint).limitsFit
    have hyields := Beacon.checkpoint.yields_rootWith samplePlatform sampleCheckpoint hbounded (fun _ => true) 0
      hfits
    rw [Beacon.checkpoint.rootWith_eq_root samplePlatform sampleCheckpoint hwithin 0] at hyields
    exact hyields.returns
  have hread : Beacon.Yaml.checkpoint.read documentLibrary (fun τ => τ.type.vac) sampleCase.value =
      .ok sampleCheckpoint := Schema.read_eq (fun e => e.blank_vac) _ presents_sampleCheckpoint
  have hreadRoot := Schema.read_eq (fun e => e.blank_vac) (Schema.byteArray BYTES_PER_CHUNK) presents_sampleRoot
  exact (Beacon.doTestHeap_iff_doTest (τ := ⟨_, Beacon.Yaml.checkpoint⟩) samplePlatform documentLibrary
    (fun τ => τ.type.vac) (fun _ => true) List.mem_cons_self (5, zeroHash, ()) sampleCase sampleRun).mpr
    (doTest_eq_ok.mpr ⟨[1, 2] ++ zeros 38, [1, 2] ++ zeros 38, events, hread, rfl, rfl, rfl, rfl,
      hreadRoot, hhash⟩)

end Sszpp
