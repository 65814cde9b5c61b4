import Sszpp.Library.LittleEndian
import Sszpp.Library.BitPacking
import Sszpp.Library.OffsetLayout
import Sszpp.Library.Extent
import Sszpp.Library.MerkleTree
import Sszpp.Model.Outcome
import Sszpp.Model.Types
import Sszpp.Model.BasicTypes
import Sszpp.Model.Lists
import Sszpp.Model.Container
import Sszpp.Model.HashTree
import Sszpp.Model.HashTreeRoot
import Sszpp.Model.Beacon
import Sszpp.Spec.Encoding
import Sszpp.Spec.Root
import Sszpp.Proofs.InPlace
import Sszpp.Proofs.Encoding
import Sszpp.Proofs.RoundTrip
import Sszpp.Proofs.DecoderWalk
import Sszpp.Proofs.ContainerSafety
import Sszpp.Proofs.Decoded
import Sszpp.Proofs.Limits
import Sszpp.Proofs.Canonical
import Sszpp.Proofs.Frames
import Sszpp.Proofs.Malleability
import Sszpp.Proofs.SparseTree
import Sszpp.Proofs.VectorRoot
import Sszpp.Proofs.Bitlist
import Sszpp.Proofs.Root
import Sszpp.Proofs.Header
import Sszpp.Proofs.Binding
import Sszpp.Proofs.ValueCall
import Sszpp.Proofs.BufferSafety
import Sszpp.Proofs.Threads
import Sszpp.Proofs.TreeBuffer
import Sszpp.Proofs.BitlistCodec
import Sszpp.Proofs.ListSafety
import Sszpp.Proofs.Reach
import Sszpp.Proofs.SingleMember
import Sszpp.Proofs.Wrap
import Sszpp.Proofs.Classification
import Sszpp.Proofs.FixedSize
import Sszpp.Proofs.Sizes
import Sszpp.Proofs.Bitfields
import Sszpp.Library.Hexadecimal
import Sszpp.Library.WriteTrace
import Sszpp.Model.Bytelists
import Sszpp.Model.Yaml
import Sszpp.Proofs.Bytelists
import Sszpp.Proofs.Traces
import Sszpp.Proofs.YamlDecode
import Sszpp.Proofs.Overwriting
import Sszpp.Proofs.BeaconContainers
import Sszpp.Proofs.Commitment
import Sszpp.Proofs.DecodedSize
import Sszpp.Proofs.EncodeInjective
import Sszpp.Proofs.Gaps
import Sszpp.Proofs.HashCount
import Sszpp.Model.BeaconYaml
import Sszpp.Model.SpecTest
import Sszpp.Proofs.SpecTest
import Sszpp.Library.ForkJoin
import Sszpp.Model.HashThreads
import Sszpp.Proofs.HashThreads
import Sszpp.Proofs.NormalForm
import Sszpp.Proofs.Summary
import Sszpp.Proofs.TreeNodes
import Sszpp.Proofs.AnyLength
import Sszpp.Proofs.OverLimit
