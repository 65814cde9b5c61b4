import Sszpp.Model.HashTreeRoot
import Sszpp.Model.YamlConvert

/-!
# The runner of the specification tests

A test case is a directory with an object as a YAML document, the compressed bytes of its serialization
and a document with its root. The files are read by other libraries: the nodes and the uncompressed bytes
are given.
-/

namespace Sszpp

open Library

variable {Node : Type} {α : Type}

/-- `value.yaml`, `serialized.ssz_snappy` and `roots.yaml` -/
structure TestCase (Node : Type) where
  value : Node
  content : Bytes
  roots : Node

/-- The objects that the checks compare. -/
structure TestRun (α : Type) where
  decoded : α
  deserialized : α
  deserializedSnappy : α
  root : Chunk
  htr : Chunk

/-- `do_test`. The file is uncompressed into a buffer as long as the serialized object. -/
def doTest (P : Platform) (Y : YamlLibrary Node) (new : {α : Type} → Schema α → α) (s : Schedule)
    (τ : Schema α) (case : TestCase Node) : Conversion (TestRun α) := do
  let decoded ← τ.read Y new case.value
  let serializedBytes ← (τ.type.serialize decoded).toConversion
  let deserialized ← (τ.type.deserializeNew serializedBytes).toConversion
  let sszOutput ← (store 0 case.content (zeros serializedBytes.length)).toConversion
  let deserializedSnappy ← (τ.type.deserializeNew sszOutput).toConversion
  let root ← (Schema.byteArray BYTES_PER_CHUNK).read Y new (Y.index case.roots "root")
  let (htr, _) ← ((τ.type.hashTreeRootValue P s deserializedSnappy 0).run).toConversion
  .ok ⟨decoded, deserialized, deserializedSnappy, root, htr⟩

/-- `do_test_heap`, where `fresh` is what `new T` holds before the object is decoded into it. -/
def doTestHeap (P : Platform) (Y : YamlLibrary Node) (new : {α : Type} → Schema α → α) (s : Schedule)
    (fresh : α) (τ : Schema α) (case : TestCase Node) : Conversion (TestRun α) := do
  let decoded ← τ.read Y new case.value
  let serializedBytes ← (τ.type.serialize decoded).toConversion
  let sszOutput ← (store 0 case.content (zeros serializedBytes.length)).toConversion
  let deserialized ← (τ.type.deserialize serializedBytes fresh).toConversion
  let deserializedSnappy ← (τ.type.deserializeNew sszOutput).toConversion
  let root ← (Schema.byteArray BYTES_PER_CHUNK).read Y new (Y.index case.roots "root")
  let (htr, _) ← ((τ.type.hashTreeRootValue P s deserializedSnappy 0).run).toConversion
  .ok ⟨decoded, deserialized, deserializedSnappy, root, htr⟩

end Sszpp
