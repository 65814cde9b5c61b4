import Mathlib.Data.List.Basic

/-!
# Decoding containers from YAML

A decoder gets a node and the object it writes to, and gives its result and the new content of the
object. The nodes and the decoders that are not for containers are those of another library.
-/

namespace Sszpp

variable {Node : Type}

mutual

/-- The types with a `YAML::convert`, with the outcome of its `decode`. A `YAML_CONT` list is a
parameter pack of at least one pair. -/
inductive YamlType (Node : Type) : Type → Type 1
  | other {α : Type} (decode : Node → α → Bool × α) : YamlType Node α
  | container {α : Type} (pairs : YamlPairs Node α) : YamlType Node α

inductive YamlPairs (Node : Type) : Type → Type 1
  | single {α : Type} (key : String) (m : YamlType Node α) : YamlPairs Node (α × Unit)
  | cons {α β : Type} (key : String) (m : YamlType Node α) (pairs : YamlPairs Node β) : YamlPairs Node (α × β)

end

mutual

/-- `YAML::convert<R>::decode(node, r)`, where `index` is `operator[]` of a node. -/
def YamlType.decode {α : Type} (index : Node → String → Node) : YamlType Node α → Node → α → Bool × α
  | .other decode, node, r => decode node r
  | .container pairs, node, r => pairs.yamlDecodeContainer index node r

/-- `yaml_decode_container(node, pairs...)`: of the results of `_decode_member` joined by the comma
operator, the last is returned. -/
def YamlPairs.yamlDecodeContainer {α : Type} (index : Node → String → Node) :
    YamlPairs Node α → Node → α → Bool × α
  | .single key m, node, (r, ()) =>
    let decoded := m.decode index (index node key) r
    (decoded.1, decoded.2, ())
  | .cons key m pairs, node, (r, rs) =>
    let decoded := m.decode index (index node key) r
    let rest := pairs.yamlDecodeContainer index node rs
    (rest.1, decoded.2, rest.2)

end

end Sszpp
