import Sszpp.Model.Bytelists
import Sszpp.Model.Container

/-!
# Reading objects from YAML

The converters of the library, with the exceptions that they throw or let through. What is behind a node
belongs to yaml-cpp; so do the converters of `std::vector` and `std::array`, which read their elements
by `as<T>()`.
-/

namespace Sszpp

open Library

variable {Node : Type} {α β : Type}

/-- Why a converter did not return: it stopped as the codec does, or `as<T>()` threw. -/
inductive ConvertStop
  | codec (stop : Stop)
  | badConversion
  deriving DecidableEq

abbrev Conversion := Except ConvertStop

def Outcome.toConversion : Outcome α → Conversion α
  | .ok a => .ok a
  | .error stop => .error (.codec stop)

/-- What the converters take from yaml-cpp and intx. -/
structure YamlLibrary (Node : Type) where
  /-- `YAML::convert<std::string>::decode` -/
  string : Node → Option (List Byte)
  /-- `YAML::convert<T>::decode` of an arithmetic type -/
  scalar : (b : BasicType) → Node → Option b.Val
  /-- `node[key]` -/
  index : Node → String → Node
  /-- The elements of a sequence. -/
  elements : Node → Option (List Node)
  /-- `intx::from_string<intx::uint256>` -/
  fromString : List Byte → Outcome (BitVec 256)

/-! ### Converters of hexadecimal strings -/

section Hex

variable (Y : YamlLibrary Node)

/-- `decode` of `std::array<std::byte, N>`, and of any `serialized_range`. -/
def convertBytes (node : Node) (r : Bytes) : Outcome (Bool × Bytes) :=
  match Y.string node with
  | none => .ok (false, r)
  | some hexstring => do
    let r ← bytelistFromStr hexstring r
    .ok (true, r)

lemma length_transformInto {f : List Byte → Outcome Byte} {chunks : List (List Byte)} {r bytes : Bytes}
    (h : transformInto f chunks r = .ok bytes) : bytes.length = r.length := by
  induction chunks generalizing r bytes with
  | nil =>
    cases h
    rfl
  | cons chunk chunks ih =>
    cases r with
    | nil => cases h
    | cons x r =>
      obtain ⟨b, -, h⟩ := Outcome.bind_eq_ok.mp h
      obtain ⟨bs, hbs, h⟩ := Outcome.bind_eq_ok.mp h
      cases h
      rw [List.length_cons, List.length_cons, ih hbs]

lemma length_bytelistFromStr {str : List Byte} {r bytes : Bytes} (h : bytelistFromStr str r = .ok bytes) :
    bytes.length = r.length := by
  obtain ⟨-, -, h⟩ := Outcome.bind_eq_ok.mp h
  split at h
  · cases h
  · exact length_transformInto h

/-- `decode` of `std::array<std::byte, N>`, whose length stays. -/
def convertByteArray {n : Nat} (node : Node) (r : StdArray Byte n) : Outcome (Bool × StdArray Byte n) :=
  match h : convertBytes Y node r.1 with
  | .ok (decoded, bytes) => .ok (decoded, ⟨bytes, by
      unfold convertBytes at h
      split at h
      · cases h
        exact r.2
      · obtain ⟨out, hout, h⟩ := Outcome.bind_eq_ok.mp h
        cases h
        rw [length_bytelistFromStr hout, r.2]⟩)
  | .error stop => .error stop

/-- `decode` of `ssz::list<std::byte, N>`: a short string leaves the list as it is. -/
def convertByteList (node : Node) (r : List Byte) : Outcome (Bool × List Byte) :=
  match Y.string node with
  | none => .ok (false, r)
  | some hexstring =>
    if hexstring.length ≤ 2 then .ok (true, r)
    else do
      let vec ← bytelistFromStr hexstring (zeros (hexstring.length / 2 - 1))
      .ok (true, vec)

/-- The bytes that the converters of bit sequences hand to the decoder, where `2 * N + 2` is a `std::size_t`. -/
def bitBytes (limit : Nat) (hexstring : List Byte) : Outcome Bytes := do
  sanitizeHextring hexstring
  if (2 * limit + 2) % 2 ^ 64 < hexstring.length then
    .error (.thrown (.outOfRange "hex string larger than bytelist size"))
  else bytelistFromStr hexstring (zeros (hexstring.length / 2 - 1))

/-- `decode` of `ssz::list<bool, N>` -/
def convertBitlist (limit : Nat) (node : Node) (r : List Bool) : Outcome (Bool × List Bool) :=
  match Y.string node with
  | none => .ok (false, r)
  | some hexstring => do
    let vec ← bitBytes limit hexstring
    let r ← deserializeBitlist limit vec r
    .ok (true, r)

/-- `decode` of `std::bitset<N>` -/
def convertBitset {n : Nat} (node : Node) (r : StdArray Bool n) : Outcome (Bool × StdArray Bool n) :=
  match Y.string node with
  | none => .ok (false, r)
  | some hexstring => do
    let vec ← bitBytes n hexstring
    .ok (true, deserializeBitset vec r)

/-- `decode` of `intx::uint256` -/
def convertUint256 (node : Node) (r : BitVec 256) : Outcome (Bool × BitVec 256) :=
  match Y.string node with
  | none => .ok (false, r)
  | some str => do
    let r ← Y.fromString str
    .ok (true, r)

end Hex

/-! ### Converters of objects with parts -/

/-- `node.as<T>()`, where `t` is the new object of `T`. -/
def asObject (decode : Node → α → Conversion (Bool × α)) (t : α) (node : Node) : Conversion α := do
  let (decoded, t) ← decode node t
  if decoded then .ok t else .error .badConversion

/-- The elements of a sequence, one after the other. -/
def asElements (decode : Node → α → Conversion (Bool × α)) (t : α) : List Node → Conversion (List α)
  | [] => .ok []
  | node :: nodes => do
    let v ← asObject decode t node
    let vs ← asElements decode t nodes
    .ok (v :: vs)

lemma length_asElements {decode : Node → α → Conversion (Bool × α)} {t : α} {nodes : List Node} {vs : List α}
    (h : asElements decode t nodes = .ok vs) : vs.length = nodes.length := by
  induction nodes generalizing vs with
  | nil =>
    cases h
    rfl
  | cons node nodes ih =>
    unfold asElements at h
    rcases hv : asObject decode t node with stop | v
    · rw [hv] at h
      cases h
    · rcases hws : asElements decode t nodes with stop | ws
      · rw [hv, hws] at h
        cases h
      · rw [hv, hws] at h
        cases h
        rw [List.length_cons, ih hws, List.length_cons]

/-- `decode` of `std::vector<T>`, and with it of `ssz::list<T, N>`. -/
def convertList (Y : YamlLibrary Node) (decode : Node → α → Conversion (Bool × α)) (t : α) (node : Node)
    (r : List α) : Conversion (Bool × List α) :=
  match Y.elements node with
  | none => .ok (false, r)
  | some nodes => do
    let vec ← asElements decode t nodes
    .ok (true, vec)

/-- `decode` of `std::array<T, N>`: a sequence of `N` elements. -/
def convertArray (Y : YamlLibrary Node) (decode : Node → α → Conversion (Bool × α)) (t : α) {n : Nat}
    (node : Node) (r : StdArray α n) : Conversion (Bool × StdArray α n) :=
  match Y.elements node with
  | none => .ok (false, r)
  | some nodes =>
    if hlen : nodes.length = n then
      match h : asElements decode t nodes with
      | .ok vs => .ok (true, ⟨vs, (length_asElements h).trans hlen⟩)
      | .error stop => .error stop
    else .ok (false, r)

mutual

/-- The types with a converter. A `YAML_CONT` list is a parameter pack of at least one pair. -/
inductive Schema : Type → Type 1
  | scalar (b : BasicType) : Schema b.Val
  | uint256 : Schema (BitVec 256)
  | byteArray (n : Nat) : Schema (StdArray Byte n)
  | byteList (limit : Nat) : Schema (List Byte)
  | bitlist (limit : Nat) : Schema (List Bool)
  | bitset (n : Nat) : Schema (StdArray Bool n)
  | array {α : Type} (e : Schema α) (n : Nat) : Schema (StdArray α n)
  | list {α : Type} (e : Schema α) (limit : Nat) : Schema (List α)
  | container {α : Type} (variableSize : Bool) (pairs : SchemaPairs α) : Schema α

inductive SchemaPairs : Type → Type 1
  | single {α : Type} (key : String) (m : Schema α) : SchemaPairs (α × Unit)
  | cons {α β : Type} (key : String) (m : Schema α) (pairs : SchemaPairs β) : SchemaPairs (α × β)

end

mutual

/-- The type of the codec. -/
def Schema.type {α : Type} : Schema α → SszType α
  | .scalar b => .basic b
  | .uint256 => .basic .uint256
  | .byteArray n => .array (.basic .byte) n
  | .byteList limit => .list (.basic .byte) limit
  | .bitlist limit => .bitlist limit
  | .bitset n => .bitset n
  | .array e n => .array e.type n
  | .list e limit => .list e.type limit
  | .container variableSize pairs => .container variableSize pairs.members

def SchemaPairs.members {α : Type} : SchemaPairs α → Members α
  | .single _ m => .cons m.type .nil
  | .cons _ m pairs => .cons m.type pairs.members

end

section Decode

variable (Y : YamlLibrary Node) (new : {α : Type} → Schema α → α)

mutual

/-- `YAML::convert<T>::decode(node, r)`. The objects that `as<T>()` defines are those of `new`. -/
def Schema.decode {α : Type} : Schema α → Node → α → Conversion (Bool × α)
  | .scalar b, node, r =>
    match Y.scalar b node with
    | none => .ok (false, r)
    | some v => .ok (true, v)
  | .uint256, node, r => (convertUint256 Y node r).toConversion
  | .byteArray _, node, r => (convertByteArray Y node r).toConversion
  | .byteList _, node, r => (convertByteList Y node r).toConversion
  | .bitlist limit, node, r => (convertBitlist Y limit node r).toConversion
  | .bitset _, node, r => (convertBitset Y node r).toConversion
  | .array e _, node, r => convertArray Y e.decode (new e) node r
  | .list e _, node, r => convertList Y e.decode (new e) node r
  | .container _ pairs, node, r => pairs.yamlDecodeContainer node r

/-- `yaml_decode_container`: of the results of the pairs, the last is returned. -/
def SchemaPairs.yamlDecodeContainer {α : Type} : SchemaPairs α → Node → α → Conversion (Bool × α)
  | .single key m, node, (r, ()) => do
    let (decoded, r) ← m.decode (Y.index node key) r
    .ok (decoded, r, ())
  | .cons key m pairs, node, (r, rs) => do
    let (_, r) ← m.decode (Y.index node key) r
    let (decoded, rs) ← pairs.yamlDecodeContainer node rs
    .ok (decoded, r, rs)

end

/-- `node.as<T>()` -/
def Schema.read (τ : Schema α) (node : Node) : Conversion α := asObject (τ.decode Y new) (new τ) node

end Decode

end Sszpp
