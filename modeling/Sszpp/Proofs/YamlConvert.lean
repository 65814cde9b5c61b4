import Mathlib.Data.List.Forall2
import Sszpp.Model.Yaml
import Sszpp.Model.YamlConvert
import Sszpp.Proofs.Bitfields
import Sszpp.Proofs.Bytelists
import Sszpp.Proofs.RoundTripBitlists

/-!
# Reading what a document says

A document presents an object when its strings spell the bytes of the leaves, its scalars are read as the
integers and its sequences and maps have the shape of the object. The converters read such a document into
any object whose byte lists are empty; an empty byte list is the one leaf that they do not write.
-/

namespace Sszpp

open Library

variable {Node : Type} {α β : Type}

/-! ### Exceptions -/

/-- The object, unless `std::out_of_range` is thrown with that message. -/
def Outcome.guarded (refusal : Option String) (a : α) : Outcome α :=
  match refusal with
  | none => .ok a
  | some what => .error (.thrown (.outOfRange what))

namespace Outcome

lemma guarded_toConversion_eq_ok {refusal : Option String} {a b : α} :
    (guarded refusal a).toConversion = .ok b ↔ refusal = none ∧ b = a := by
  cases refusal with
  | none => exact ⟨fun h => by cases h; exact ⟨rfl, rfl⟩, fun h => by rw [h.2]; rfl⟩
  | some what => exact ⟨nofun, nofun⟩

/-- The first exception is that of the whole. -/
lemma guarded_bind {refusal refusal' : Option String} {a : α} {b : β} {f : α → Conversion β}
    (hf : f a = (guarded refusal' b).toConversion) :
    (guarded refusal a).toConversion >>= f = (guarded (refusal.or refusal') b).toConversion := by
  cases refusal with
  | none => exact hf
  | some what => rfl

lemma guarded_map {refusal : Option String} {a : α} {b : β} {f : α → Conversion β} (hf : f a = .ok b) :
    (guarded refusal a).toConversion >>= f = (guarded refusal b).toConversion := by
  cases refusal with
  | none => exact hf
  | some what => rfl

end Outcome

/-- What the converters of bit sequences throw for a string of so many bytes. -/
def hexRefusal (limit count : Nat) : Option String :=
  if (2 * limit + 2) % 2 ^ 64 < 2 * count + 2 then some "hex string larger than bytelist size" else none

/-- What the converter of a bitlist throws; the decoder has a check of its own. -/
def bitlistRefusal (limit count : Nat) : Option String :=
  (hexRefusal limit count).or (if limit < count * 8 then some "byte slice larger than list limit" else none)

/-- Below `2 ^ 63 - 1` the limit of the string wraps nowhere. -/
lemma hexRefusal_eq_none_iff {limit count : Nat} (h : 2 * limit + 2 < 2 ^ 64) :
    hexRefusal limit count = none ↔ count ≤ limit := by
  rw [hexRefusal, Nat.mod_eq_of_lt h]
  split
  · exact ⟨nofun, fun _ => by omega⟩
  · exact ⟨fun _ => by omega, fun _ => rfl⟩

lemma bitlistRefusal_eq_none_iff {limit count : Nat} (h : 2 * limit + 2 < 2 ^ 64) :
    bitlistRefusal limit count = none ↔ count * 8 ≤ limit := by
  rw [bitlistRefusal, Option.or_eq_none_iff, hexRefusal_eq_none_iff h]
  split
  · exact ⟨nofun, fun _ => by omega⟩
  · exact ⟨fun _ => by omega, fun _ => ⟨by omega, rfl⟩⟩

/-! ### Strings -/

/-- `0x`, then two digits of either case for each of the bytes. -/
structure Spells (str : List Byte) (bytes : Bytes) : Prop extends HexString bytes.length str where
  bytes_eq : hexBytes (str.drop 2) = bytes

namespace Spells

variable {str : List Byte} {bytes : Bytes} (h : Spells str bytes)
include h

lemma length_eq : str.length = 2 * bytes.length + 2 := by
  have hlen := length_hexBytes h.even_drop
  have htwo := h.two_le
  have heven := h.even
  rw [h.bytes_eq, List.length_drop] at hlen
  omega

lemma bytelistFromStr_eq {r : Bytes} (hr : r.length = bytes.length) : bytelistFromStr str r = .ok bytes := by
  have hhex : HexString r.length str := hr ▸ h.toHexString
  have hlen := h.length_eq
  have hdrop : r.drop ((str.length - 2) / 2) = [] := List.drop_eq_nil_of_le (by omega)
  rw [hhex.bytelistFromStr_eq, h.bytes_eq, hdrop, List.append_nil]

lemma sanitizeHextring_eq : sanitizeHextring str = .ok () := by
  have heven := h.even
  rw [sanitizeHextring, if_neg (not_not.mpr h.prefixed), if_neg (by omega)]

lemma bitBytes_eq (limit : Nat) : bitBytes limit str = .guarded (hexRefusal limit bytes.length) bytes := by
  have hlen := h.length_eq
  have hparse := h.bytelistFromStr_eq (r := zeros (str.length / 2 - 1)) (by rw [length_zeros]; omega)
  rw [bitBytes, h.sanitizeHextring_eq, Outcome.ok_bind, hlen, hexRefusal]
  split
  · rfl
  · rw [← hlen, hparse]
    rfl

end Spells

/-- The library prints the bytes in lower case. -/
lemma spells_of_bytelistToString {str : List Byte} {bytes : Bytes} (h : bytelistToString bytes = .ok str) :
    Spells str bytes := by
  rw [bytelistToString_eq] at h
  cases h
  have hlen := length_hexDigits bytes
  exact ⟨hexString_append (by omega) (fun c hc => isHexDigit_hexDigits hc) (by omega), hexBytes_hexDigits bytes⟩

/-! ### A library for documents -/

/-- A document without aliases and tags. -/
inductive Document
  | text (str : List Byte)
  | sequence (nodes : List Document)
  | map (pairs : List (String × Document))

def digitValue (c : Byte) : Option Nat :=
  if charCode '0' ≤ c ∧ c ≤ charCode '9' then some (c.toNat - 48) else none

/-- The number that decimal digits write. -/
def decimal (str : List Byte) : Option Nat :=
  if str = [] then none
  else str.foldlM (fun n c => (digitValue c).map (10 * n + ·)) 0

/-- The unsigned integers among the scalars. -/
def documentLibrary : YamlLibrary Document where
  string
    | .text str => some str
    | _ => none
  scalar b
    | .text str => do
      let n ← decimal str
      if n < 256 ^ b.sizeof ∧ b ≠ .boolean ∧ b ≠ .byte then some (b.ofNumber n) else none
    | _ => none
  index
    | .map pairs, key => (pairs.lookup key).getD (.map [])
    | _, _ => .map []
  elements
    | .sequence nodes => some nodes
    | _ => none
  fromString str :=
    match decimal str with
    | some n => .ok (BitVec.ofNat 256 n)
    | none => .error (.thrown (.invalidArgument "invalid digit"))

/-- The text of a string of bytes. -/
def bytesText (bytes : Bytes) : Document := .text (hexPrefix ++ hexDigits bytes)

lemma spells_bytesText (bytes : Bytes) : Spells (hexPrefix ++ hexDigits bytes) bytes :=
  spells_of_bytelistToString (bytelistToString_eq bytes)

/-! ### Leaves -/

section Leaves

variable (Y : YamlLibrary Node) {node : Node} {str : List Byte}

lemma convertByteArray_eq (hnode : Y.string node = some str) {n : Nat} {x : StdArray Byte n}
    (h : Spells str x.1) (r : StdArray Byte n) : convertByteArray Y node r = .ok (true, x) := by
  have hbytes : convertBytes Y node r.1 = .ok (true, x.1) := by
    rw [convertBytes, hnode]
    simp only [h.bytelistFromStr_eq (r.2.trans x.2.symm), Outcome.ok_bind]
  unfold convertByteArray
  split
  · rename_i decoded bytes heq
    rw [hbytes] at heq
    cases heq
    rfl
  · rename_i stop heq
    rw [hbytes] at heq
    cases heq

lemma convertByteList_eq (hnode : Y.string node = some str) {x : List Byte} (h : Spells str x) (r : List Byte) :
    convertByteList Y node r = .ok (true, if x = [] then r else x) := by
  have hlen := h.length_eq
  rw [convertByteList, hnode]
  by_cases hx : x = []
  · rw [hx, List.length_nil] at hlen
    simp only [hlen, hx, Nat.mul_zero, Nat.zero_add, le_refl, if_true]
  · have hpos := List.length_pos_iff.mpr hx
    have hparse := h.bytelistFromStr_eq (r := zeros (str.length / 2 - 1)) (by rw [length_zeros]; omega)
    simp only [hparse, Outcome.ok_bind, if_neg hx, if_neg (by omega : ¬ str.length ≤ 2)]

lemma convertBitset_eq (hnode : Y.string node = some str) {n : Nat} {x : StdArray Bool n}
    (h : Spells str (packBits x.1)) (r : StdArray Bool n) :
    convertBitset Y node r = .guarded (hexRefusal n ((n + 7) / 8)) (true, x) := by
  have hlen : (packBits x.1).length = (n + 7) / 8 := by rw [length_packBits, x.2]
  have hbits : deserializeBitset (packBits x.1) r = x := by
    obtain ⟨bits, rfl⟩ := x
    apply Subtype.ext
    rw [deserializeBitset_eq]
    exact unpackBits_packBits bits
  rw [convertBitset, hnode]
  simp only [h.bitBytes_eq, hlen]
  cases hexRefusal n ((n + 7) / 8) with
  | none => exact congrArg (fun bits => Except.ok (true, bits)) hbits
  | some what => rfl

lemma convertBitlist_eq (hnode : Y.string node = some str) {x : List Bool}
    (h : Spells str (packBits (x ++ [true]))) (limit : Nat) (r : List Bool) :
    convertBitlist Y limit node r = .guarded (bitlistRefusal limit (x.length / 8 + 1)) (true, x) := by
  have hlen : (packBits (x ++ [true])).length = x.length / 8 + 1 := by
    rw [length_packBits, List.length_append, List.length_singleton]
    omega
  rw [convertBitlist, hnode]
  simp only [h.bitBytes_eq, hlen, bitlistRefusal]
  cases hexRefusal limit (x.length / 8 + 1) with
  | none =>
    simp only [Outcome.guarded, Outcome.ok_bind, deserializeBitlist, hlen]
    split
    · rfl
    · rw [deserializeVectorBool_packBits]
      rfl
  | some what => rfl

/-- What is printed of a leaf and put into a document is read back into any target. The exceptions are an
empty byte list, which leaves its target as it is, and bits whose bytes do not fit the limit. -/
theorem convert_printed (node : Node) :
    (∀ {n : Nat} (x r : StdArray Byte n), (bytelistToString x.1).toOption = Y.string node →
        convertByteArray Y node r = .ok (true, x)) ∧
      (∀ x r : List Byte, (bytelistToString x).toOption = Y.string node →
        convertByteList Y node r = .ok (true, if x = [] then r else x)) ∧
      (∀ {n : Nat} (x r : StdArray Bool n),
        ((SszType.bitset n).serialize x >>= bytelistToString).toOption = Y.string node →
        convertBitset Y node r =
          if (2 * n + 2) % 2 ^ 64 < 2 * ((n + 7) / 8) + 2 then
            .error (.thrown (.outOfRange "hex string larger than bytelist size"))
          else .ok (true, x)) ∧
      ∀ (limit : Nat) (x r : List Bool),
        ((SszType.bitlist limit).serialize x >>= bytelistToString).toOption = Y.string node →
        convertBitlist Y limit node r =
          if (2 * limit + 2) % 2 ^ 64 < 2 * (x.length / 8 + 1) + 2 then
            .error (.thrown (.outOfRange "hex string larger than bytelist size"))
          else if limit < (x.length / 8 + 1) * 8 then
            .error (.thrown (.outOfRange "byte slice larger than list limit"))
          else .ok (true, x) := by
  have hspells : ∀ {bytes : Bytes}, (bytelistToString bytes).toOption = Y.string node →
      ∃ str, Y.string node = some str ∧ Spells str bytes := by
    intro bytes h
    rw [bytelistToString_eq] at h
    exact ⟨_, h.symm, spells_of_bytelistToString (bytelistToString_eq bytes)⟩
  refine ⟨fun x r h => ?_, fun x r h => ?_, fun {n} x r h => ?_, fun limit x r h => ?_⟩
  · obtain ⟨str, hnode, hstr⟩ := hspells h
    exact convertByteArray_eq Y hnode hstr r
  · obtain ⟨str, hnode, hstr⟩ := hspells h
    exact convertByteList_eq Y hnode hstr r
  · rw [(SszType.bitset n).serialize_eq_of_fits trivial x trivial, Outcome.ok_bind] at h
    obtain ⟨str, hnode, hstr⟩ := hspells h
    rw [convertBitset_eq Y hnode hstr r, hexRefusal]
    split <;> rfl
  · rw [(SszType.bitlist limit).serialize_eq_of_fits trivial x trivial, Outcome.ok_bind] at h
    obtain ⟨str, hnode, hstr⟩ := hspells h
    rw [convertBitlist_eq Y hnode hstr limit r, bitlistRefusal, hexRefusal]
    split
    · rfl
    · split <;> rfl

/-- One string as a byte array, a byte list, sixteen bits and fifteen bits with their delimiter. -/
theorem convert_printed_sample :
    convertByteArray documentLibrary (bytesText [10, 255]) (⟨[1, 2], rfl⟩ : StdArray Byte 2) =
        .ok (true, ⟨[10, 255], rfl⟩) ∧
      convertByteList documentLibrary (bytesText [10, 255]) [7] = .ok (true, [10, 255]) ∧
      convertBitset documentLibrary (bytesText [10, 255]) (⟨List.replicate 16 true, rfl⟩ : StdArray Bool 16) =
        .ok (true, ⟨[false, true, false, true] ++ List.replicate 4 false ++ List.replicate 8 true, rfl⟩) ∧
      convertBitlist documentLibrary 16 (bytesText [10, 255]) [] =
        .ok (true, [false, true, false, true] ++ List.replicate 4 false ++ List.replicate 7 true) := by
  obtain ⟨harray, hlist, hbitset, hbitlist⟩ := convert_printed documentLibrary (bytesText [10, 255])
  exact ⟨harray _ _ rfl, hlist [10, 255] [7] rfl, hbitset _ _ rfl,
    hbitlist 16 ([false, true, false, true] ++ List.replicate 4 false ++ List.replicate 7 true) [] rfl⟩

end Leaves

/-! ### Containers without exceptions -/

section Refinement

variable (Y : YamlLibrary Node) (new : {α : Type} → Schema α → α)

/-- The decoder of a leaf as one that always returns. -/
def Schema.leaf (τ : Schema α) : YamlType Node α :=
  .other fun node r =>
    match τ.decode Y new node r with
    | .ok decoded => decoded
    | .error _ => (false, r)

mutual

def Schema.toYaml {α : Type} : Schema α → YamlType Node α
  | .scalar b => (Schema.scalar b).leaf Y new
  | .uint256 => Schema.uint256.leaf Y new
  | .byteArray n => (Schema.byteArray n).leaf Y new
  | .byteList limit => (Schema.byteList limit).leaf Y new
  | .bitlist limit => (Schema.bitlist limit).leaf Y new
  | .bitset n => (Schema.bitset n).leaf Y new
  | .array e n => (Schema.array e n).leaf Y new
  | .list e limit => (Schema.list e limit).leaf Y new
  | .container _ pairs => .container pairs.toYaml

def SchemaPairs.toYaml {α : Type} : SchemaPairs α → YamlPairs Node α
  | .single key m => .single key m.toYaml
  | .cons key m pairs => .cons key m.toYaml pairs.toYaml

end

lemma Schema.leaf_decode {τ : Schema α} {node : Node} {r : α} {decoded : Bool × α}
    (h : τ.decode Y new node r = .ok decoded) : (τ.leaf Y new).decode Y.index node r = decoded := by
  simp only [Schema.leaf, YamlType.decode, h]

lemma Conversion.bind_eq_ok {x : Conversion α} {f : α → Conversion β} {b : β} :
    (x >>= f) = .ok b ↔ ∃ a, x = .ok a ∧ f a = .ok b := by
  rcases x with stop | a
  · exact ⟨nofun, fun ⟨_, h, _⟩ => nomatch h⟩
  · exact ⟨fun h => ⟨a, rfl, h⟩, fun ⟨_, h, hb⟩ => by cases h; exact hb⟩

mutual

/-- Where nothing is thrown, a container is read and reported on as by the decoder that knows no exceptions. -/
theorem Schema.toYaml_decode : {α : Type} → (τ : Schema α) → {node : Node} → {r : α} → {decoded : Bool × α} →
    τ.decode Y new node r = .ok decoded → (τ.toYaml Y new).decode Y.index node r = decoded
  | _, .scalar _, _, _, _, h => Schema.leaf_decode Y new h
  | _, .uint256, _, _, _, h => Schema.leaf_decode Y new h
  | _, .byteArray _, _, _, _, h => Schema.leaf_decode Y new h
  | _, .byteList _, _, _, _, h => Schema.leaf_decode Y new h
  | _, .bitlist _, _, _, _, h => Schema.leaf_decode Y new h
  | _, .bitset _, _, _, _, h => Schema.leaf_decode Y new h
  | _, .array _ _, _, _, _, h => Schema.leaf_decode Y new h
  | _, .list _ _, _, _, _, h => Schema.leaf_decode Y new h
  | _, .container _ pairs, _, _, _, h => SchemaPairs.toYaml_decode pairs h

theorem SchemaPairs.toYaml_decode : {α : Type} → (pairs : SchemaPairs α) → {node : Node} → {r : α} →
    {decoded : Bool × α} → pairs.yamlDecodeContainer Y new node r = .ok decoded →
    (pairs.toYaml Y new).yamlDecodeContainer Y.index node r = decoded
  | _, .single key m, node, (r, ()), decoded, h => by
    obtain ⟨⟨report, v⟩, hv, h⟩ := Conversion.bind_eq_ok.mp h
    cases h
    simp only [SchemaPairs.toYaml, YamlPairs.yamlDecodeContainer, Schema.toYaml_decode m hv]
  | _, .cons key m pairs, node, (r, rs), decoded, h => by
    obtain ⟨⟨report, v⟩, hv, h⟩ := Conversion.bind_eq_ok.mp h
    obtain ⟨⟨report', vs⟩, hvs, h⟩ := Conversion.bind_eq_ok.mp h
    cases h
    simp only [SchemaPairs.toYaml, YamlPairs.yamlDecodeContainer, Schema.toYaml_decode m hv,
      SchemaPairs.toYaml_decode pairs hvs]

end

end Refinement

/-! ### Documents -/

section Documents

variable (Y : YamlLibrary Node)

mutual

/-- The node says what the object is. -/
def Schema.Presents {α : Type} : Schema α → Node → α → Prop
  | .scalar b, node, v => Y.scalar b node = some v
  | .uint256, node, v => ∃ str, Y.string node = some str ∧ Y.fromString str = .ok v
  | .byteArray _, node, v => ∃ str, Y.string node = some str ∧ Spells str v.1
  | .byteList _, node, v => ∃ str, Y.string node = some str ∧ Spells str v
  | .bitlist _, node, v => ∃ str, Y.string node = some str ∧ Spells str (packBits (v ++ [true]))
  | .bitset _, node, v => ∃ str, Y.string node = some str ∧ Spells str (packBits v.1)
  | .array e _, node, v => ∃ nodes, Y.elements node = some nodes ∧ List.Forall₂ e.Presents nodes v.1
  | .list e _, node, v => ∃ nodes, Y.elements node = some nodes ∧ List.Forall₂ e.Presents nodes v
  | .container _ pairs, node, v => pairs.Presents node v

def SchemaPairs.Presents {α : Type} : SchemaPairs α → Node → α → Prop
  | .single key m, node, (v, _) => m.Presents (Y.index node key) v
  | .cons key m pairs, node, (v, vs) => m.Presents (Y.index node key) v ∧ pairs.Presents node vs

end

mutual

/-- The byte lists of the object are empty. -/
def Schema.Blank {α : Type} : Schema α → α → Prop
  | .scalar _, _ => True
  | .uint256, _ => True
  | .byteArray _, _ => True
  | .byteList _, r => r = []
  | .bitlist _, _ => True
  | .bitset _, _ => True
  | .array _ _, _ => True
  | .list _ _, _ => True
  | .container _ pairs, r => pairs.Blank r

def SchemaPairs.Blank {α : Type} : SchemaPairs α → α → Prop
  | .single _ m, (r, _) => m.Blank r
  | .cons _ m pairs, (r, rs) => m.Blank r ∧ pairs.Blank rs

end

mutual

/-- What reading a document that presents the object throws: the exception of its first bit sequence whose
bytes do not fit. -/
def Schema.refusal {α : Type} : Schema α → α → Option String
  | .scalar _, _ => none
  | .uint256, _ => none
  | .byteArray _, _ => none
  | .byteList _, _ => none
  | .bitlist limit, v => bitlistRefusal limit (v.length / 8 + 1)
  | .bitset n, _ => hexRefusal n ((n + 7) / 8)
  | .array e _, v => v.1.findSome? e.refusal
  | .list e _, v => v.findSome? e.refusal
  | .container _ pairs, v => pairs.refusal v

def SchemaPairs.refusal {α : Type} : SchemaPairs α → α → Option String
  | .single _ m, (v, _) => m.refusal v
  | .cons _ m pairs, (v, vs) => (m.refusal v).or (pairs.refusal vs)

end

mutual

/-- `2 * N + 2` wraps for no bit sequence. -/
def Schema.bitLimitsFit {α : Type} : Schema α → Bool
  | .scalar _ => true
  | .uint256 => true
  | .byteArray _ => true
  | .byteList _ => true
  | .bitlist limit => 2 * limit + 2 < 2 ^ 64
  | .bitset n => 2 * n + 2 < 2 ^ 64
  | .array e _ => e.bitLimitsFit
  | .list e _ => e.bitLimitsFit
  | .container _ pairs => pairs.bitLimitsFit

def SchemaPairs.bitLimitsFit {α : Type} : SchemaPairs α → Bool
  | .single _ m => m.bitLimitsFit
  | .cons _ m pairs => m.bitLimitsFit && pairs.bitLimitsFit

end

lemma findSome?_eq_none_iff_all {f : α → Option String} {room : α → Bool} {vs : List α}
    (h : ∀ x ∈ vs, f x = none ↔ room x = true) : vs.findSome? f = none ↔ vs.all room = true := by
  rw [List.findSome?_eq_none_iff, List.all_eq_true]
  exact forall₂_congr h

mutual

/-- Then only a bitlist without room for its delimiter makes the converters throw. -/
theorem Schema.refusal_eq_none_iff : {α : Type} → (τ : Schema α) → τ.bitLimitsFit = true → (v : α) →
    (τ.refusal v = none ↔ τ.type.hasRoom v = true)
  | _, .scalar _, _, _ => iff_of_true rfl rfl
  | _, .uint256, _, _ => iff_of_true rfl rfl
  | _, .byteArray _, _, v => iff_of_true rfl (SszType.hasRoom_of_fixed _ rfl v)
  | _, .byteList _, _, _ => iff_of_true rfl (List.all_eq_true.mpr fun _ _ => rfl)
  | _, .bitlist limit, h, v => by
    rw [Schema.refusal, bitlistRefusal_eq_none_iff (of_decide_eq_true h), Schema.type, SszType.hasRoom,
      decide_eq_true_iff]
  | _, .bitset n, h, v => iff_of_true ((hexRefusal_eq_none_iff (of_decide_eq_true h)).mpr (by omega)) rfl
  | _, .array e _, h, v => findSome?_eq_none_iff_all fun x _ => Schema.refusal_eq_none_iff e h x
  | _, .list e _, h, v => findSome?_eq_none_iff_all fun x _ => Schema.refusal_eq_none_iff e h x
  | _, .container _ pairs, h, v => SchemaPairs.refusal_eq_none_iff pairs h v

theorem SchemaPairs.refusal_eq_none_iff : {α : Type} → (pairs : SchemaPairs α) → pairs.bitLimitsFit = true →
    (v : α) → (pairs.refusal v = none ↔ pairs.members.hasRoom v = true)
  | _, .single _ m, h, (v, _) => by
    rw [SchemaPairs.refusal, SchemaPairs.members, Members.hasRoom, Members.hasRoom, Bool.and_true]
    exact Schema.refusal_eq_none_iff m h v
  | _, .cons _ m pairs, h, (v, vs) => by
    obtain ⟨hm, hpairs⟩ := Bool.and_eq_true_iff.mp h
    rw [SchemaPairs.refusal, SchemaPairs.members, Members.hasRoom, Option.or_eq_none_iff, Bool.and_eq_true]
    exact and_congr (Schema.refusal_eq_none_iff m hm v) (SchemaPairs.refusal_eq_none_iff pairs hpairs vs)

end

variable {Y}

/-- The elements are read up to the first that throws. -/
lemma asElements_eq {decode : Node → α → Conversion (Bool × α)} {refusal : α → Option String} {t : α}
    {nodes : List Node} {vs : List α}
    (h : List.Forall₂ (fun node v => decode node t = (Outcome.guarded (refusal v) (true, v)).toConversion) nodes
      vs) :
    asElements decode t nodes = (Outcome.guarded (vs.findSome? refusal) vs).toConversion := by
  induction h with
  | nil => rfl
  | @cons node v nodes vs hv _ ih =>
    have hobject : asObject decode t node = (Outcome.guarded (refusal v) v).toConversion := by
      rw [asObject, hv]
      exact Outcome.guarded_map rfl
    have hcons : (v :: vs).findSome? refusal = (refusal v).or (vs.findSome? refusal) := by
      rw [List.findSome?_cons]
      cases refusal v <;> rfl
    rw [asElements, hobject, hcons]
    refine Outcome.guarded_bind ?_
    rw [ih]
    exact Outcome.guarded_map rfl

lemma convertList_eq {decode : Node → α → Conversion (Bool × α)} {refusal : α → Option String} {t : α} {node : Node}
    {nodes : List Node} {vs : List α} (hnode : Y.elements node = some nodes)
    (h : List.Forall₂ (fun node v => decode node t = (Outcome.guarded (refusal v) (true, v)).toConversion) nodes vs)
    (r : List α) :
    convertList Y decode t node r = (Outcome.guarded (vs.findSome? refusal) (true, vs)).toConversion := by
  rw [convertList, hnode]
  simp only [asElements_eq h]
  exact Outcome.guarded_map rfl

lemma convertArray_eq {decode : Node → α → Conversion (Bool × α)} {refusal : α → Option String} {t : α} {n : Nat}
    {node : Node} {nodes : List Node} {v : StdArray α n} (hnode : Y.elements node = some nodes)
    (h : List.Forall₂ (fun node x => decode node t = (Outcome.guarded (refusal x) (true, x)).toConversion) nodes
      v.1) (r : StdArray α n) :
    convertArray Y decode t node r = (Outcome.guarded (v.1.findSome? refusal) (true, v)).toConversion := by
  have helements := asElements_eq h
  have hlen : nodes.length = n := h.length_eq.trans v.2
  rw [convertArray, hnode]
  simp only [dif_pos hlen]
  split
  · rename_i vs heq
    rw [helements, Outcome.guarded_toConversion_eq_ok] at heq
    obtain ⟨hrefusal, rfl⟩ := heq
    rw [hrefusal]
    rfl
  · rename_i stop heq
    rw [helements] at heq
    cases hrefusal : v.1.findSome? refusal with
    | none =>
      rw [hrefusal] at heq
      cases heq
    | some what =>
      rw [hrefusal] at heq
      cases heq
      rfl

variable {new : {α : Type} → Schema α → α}

mutual

/-- A document that presents an object is read as that object, up to the first bit sequence that is refused. -/
theorem Schema.decode_presented (hnew : ∀ {β : Type} (e : Schema β), e.Blank (new e)) : {α : Type} →
    (τ : Schema α) → {node : Node} → {v r : α} → τ.Presents Y node v → τ.Blank r →
    τ.decode Y new node r = (Outcome.guarded (τ.refusal v) (true, v)).toConversion
  | _, .scalar b, _, _, _, h, _ => by
    have hscalar : Y.scalar b _ = some _ := h
    rw [Schema.decode, hscalar]
    rfl
  | _, .uint256, _, _, _, h, _ => by
    obtain ⟨str, hnode, hstr⟩ := h
    rw [Schema.decode, convertUint256, hnode]
    simp only [hstr, Outcome.ok_bind]
    rfl
  | _, .byteArray n, _, v, r, h, _ => by
    obtain ⟨str, hnode, hstr⟩ := h
    rw [Schema.decode, convertByteArray_eq Y hnode hstr r]
    rfl
  | _, .byteList limit, _, v, r, h, hblank => by
    obtain ⟨str, hnode, hstr⟩ := h
    have hr : r = [] := hblank
    have hsame : (if v = [] then r else v) = v := by
      split
      · rename_i hv
        rw [hv, hr]
      · rfl
    rw [Schema.decode, convertByteList_eq Y hnode hstr r, hsame]
    rfl
  | _, .bitlist limit, _, v, r, h, _ => by
    obtain ⟨str, hnode, hstr⟩ := h
    rw [Schema.decode, convertBitlist_eq Y hnode hstr limit r, Schema.refusal]
  | _, .bitset _, _, v, r, h, _ => by
    obtain ⟨str, hnode, hstr⟩ := h
    rw [Schema.decode, convertBitset_eq Y hnode hstr r, Schema.refusal]
  | _, .array e _, _, v, r, h, _ => by
    obtain ⟨nodes, hnode, hall⟩ := h
    exact convertArray_eq hnode (hall.imp fun node x hx => Schema.decode_presented hnew e hx (hnew e)) r
  | _, .list e _, _, v, r, h, _ => by
    obtain ⟨nodes, hnode, hall⟩ := h
    exact convertList_eq hnode (hall.imp fun node x hx => Schema.decode_presented hnew e hx (hnew e)) r
  | _, .container _ pairs, _, _, _, h, hblank => SchemaPairs.yamlDecodeContainer_presented hnew pairs h hblank

theorem SchemaPairs.yamlDecodeContainer_presented (hnew : ∀ {β : Type} (e : Schema β), e.Blank (new e)) :
    {α : Type} → (pairs : SchemaPairs α) → {node : Node} → {v r : α} → pairs.Presents Y node v → pairs.Blank r →
    pairs.yamlDecodeContainer Y new node r = (Outcome.guarded (pairs.refusal v) (true, v)).toConversion
  | _, .single key m, _, (v, _), (r, _), h, hblank => by
    rw [SchemaPairs.yamlDecodeContainer, Schema.decode_presented hnew m h hblank]
    exact Outcome.guarded_map rfl
  | _, .cons key m pairs, _, (v, vs), (r, rs), h, hblank => by
    rw [SchemaPairs.yamlDecodeContainer, Schema.decode_presented hnew m h.1 hblank.1]
    refine Outcome.guarded_bind ?_
    simp only [SchemaPairs.yamlDecodeContainer_presented hnew pairs h.2 hblank.2]
    exact Outcome.guarded_map rfl

end

lemma Schema.read_eq (hnew : ∀ {β : Type} (e : Schema β), e.Blank (new e)) (τ : Schema α) {node : Node}
    {v : α} (h : τ.Presents Y node v) :
    τ.read Y new node = (Outcome.guarded (τ.refusal v) v).toConversion := by
  rw [Schema.read, asObject, Schema.decode_presented hnew τ h (hnew τ)]
  exact Outcome.guarded_map rfl

end Documents

/-! ### New objects -/

mutual

lemma Schema.blank_vac : {α : Type} → (τ : Schema α) → τ.Blank τ.type.vac
  | _, .scalar _ => trivial
  | _, .uint256 => trivial
  | _, .byteArray _ => trivial
  | _, .byteList _ => rfl
  | _, .bitlist _ => trivial
  | _, .bitset _ => trivial
  | _, .array _ _ => trivial
  | _, .list _ _ => trivial
  | _, .container _ pairs => SchemaPairs.blank_vac pairs

lemma SchemaPairs.blank_vac : {α : Type} → (pairs : SchemaPairs α) → pairs.Blank pairs.members.vac
  | _, .single _ m => Schema.blank_vac m
  | _, .cons _ m pairs => ⟨Schema.blank_vac m, SchemaPairs.blank_vac pairs⟩

end

end Sszpp
