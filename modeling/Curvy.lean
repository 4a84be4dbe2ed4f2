import Curvy.Core.BabyJubjub
import Curvy.Core.BaseMul
import Curvy.Core.Blake512
import Curvy.Core.Blake512Compress
import Curvy.Core.Blake512Exact
import Curvy.Core.BoundPending
import Curvy.Core.Calldata
import Curvy.Core.CalldataInjective
import Curvy.Core.DecimalField
import Curvy.Core.DecimalU256
import Curvy.Core.Eddsa
import Curvy.Core.EddsaKeys
import Curvy.Core.EddsaVerifies
import Curvy.Core.Field
import Curvy.Core.FrontierSnapshot
import Curvy.Core.Imt
import Curvy.Core.ImtProofs
import Curvy.Core.ImtRows
import Curvy.Core.ImtRuns
import Curvy.Core.IndexedTree
import Curvy.Core.NonceReduction
import Curvy.Core.NoteWitness
import Curvy.Core.NoteWitnessVerifies
import Curvy.Core.NotesFrontier
import Curvy.Core.NotesFrontierInv
import Curvy.Core.NotesFrontierRuns
import Curvy.Core.PendingConsistent
import Curvy.Core.PendingWitness
import Curvy.Core.Poseidon
import Curvy.Core.PoseidonSchedule
import Curvy.Core.PoseidonTables
import Curvy.Core.Secp256k1
import Curvy.Core.SecretArithmetic
import Curvy.Core.SecretField
import Curvy.Core.ShardedSnapshot
import Curvy.Core.ShardedSnapshotExact
import Curvy.Core.ShardedTree
import Curvy.Core.ShardedTreeAlike
import Curvy.Core.ShardedTreeAtomic
import Curvy.Core.ShardedTreeBatch
import Curvy.Core.ShardedTreeInv
import Curvy.Core.ShardedTreeOps
import Curvy.Core.ShardedTreeRestore
import Curvy.Core.ShardedTreeRuns
import Curvy.Core.ShardedTreeShape
import Curvy.Core.ShardedTreeStore
import Curvy.Core.ShardedWitness
import Curvy.Core.SnapshotBytes
import Curvy.Core.Stealth
import Curvy.Core.StealthScan
import Curvy.Ffi.Registry
import Curvy.Ffi.RegistryRuns
import Curvy.Lib.BalancedDigits
import Curvy.Lib.BitReversal
import Curvy.Lib.Blake
import Curvy.Lib.BucketMethod
import Curvy.Lib.Chunks
import Curvy.Lib.Codec
import Curvy.Lib.CosetExtension
import Curvy.Lib.Csr
import Curvy.Lib.Cursor
import Curvy.Lib.Decimal
import Curvy.Lib.Decoder
import Curvy.Lib.DoubleAndAdd
import Curvy.Lib.FusedTransform
import Curvy.Lib.HashChain
import Curvy.Lib.Hex
import Curvy.Lib.JacobianMul
import Curvy.Lib.KeyedSum
import Curvy.Lib.Limbs
import Curvy.Lib.Logged
import Curvy.Lib.Loop
import Curvy.Lib.MerklePath
import Curvy.Lib.MontyForm
import Curvy.Lib.Outcome
import Curvy.Lib.Panic
import Curvy.Lib.PartialRounds
import Curvy.Lib.PerfectTree
import Curvy.Lib.Pratt
import Curvy.Lib.Radix
import Curvy.Lib.RowReduction
import Curvy.Lib.SameMaps
import Curvy.Lib.Scratch
import Curvy.Lib.SlotAlloc
import Curvy.Lib.Total
import Curvy.Lib.TreeFrontier
import Curvy.Lib.TwistedEdwards
import Curvy.Node.PendingCommitment
import Curvy.Node.SerialQueue
import Curvy.Node.SerialQueueInv
import Curvy.Node.SerialQueueRuns
import Curvy.Prover.AffineBuckets
import Curvy.Prover.AffineBucketsInv
import Curvy.Prover.AffineBucketsRuns
import Curvy.Prover.AffinePoint
import Curvy.Prover.AuthenticatedReader
import Curvy.Prover.AuthenticatedRuns
import Curvy.Prover.BaseField
import Curvy.Prover.BoundedReader
import Curvy.Prover.CacheApi
import Curvy.Prover.CacheApiRuns
import Curvy.Prover.ChunkManifest
import Curvy.Prover.ChunkManifestExact
import Curvy.Prover.CompactZkey
import Curvy.Prover.CompactZkeyBounds
import Curvy.Prover.CompactZkeyDecode
import Curvy.Prover.CompactZkeyRestores
import Curvy.Prover.CompactZkeyRoundTrip
import Curvy.Prover.ManifestReader
import Curvy.Prover.Msm
import Curvy.Prover.MsmExact
import Curvy.Prover.ProofWorkspace
import Curvy.Prover.Qap
import Curvy.Prover.Roots
import Curvy.Prover.SignedWindows
import Curvy.Prover.SimdFft
import Curvy.Prover.SimdFftApply
import Curvy.Prover.SimdFftExact
import Curvy.Prover.SimdFftRefines
import Curvy.Prover.SimdFftSliced
import Curvy.Prover.SimdFftTables
import Curvy.Prover.U29x9
import Curvy.Prover.U29x9Exact
import Curvy.Prover.U29x9Lanes
import Curvy.Prover.U29x9Mul
import Curvy.Prover.U29x9Sound
import Curvy.Prover.U29x9Words
import Curvy.Prover.WasmStreamingProver
import Curvy.Prover.WasmStreamingProverRuns
import Curvy.Prover.WitnessQuotient
import Curvy.Prover.WorkspaceRuns
import Curvy.Prover.Wtns
import Curvy.Prover.WtnsExact
import Curvy.Prover.ZkeyMatrices
import Curvy.Prover.ZkeyMatricesAgree
import Curvy.Prover.ZkeyPoints
import Curvy.Prover.ZkeySweeps
import Curvy.Signet.Artifact
import Curvy.Signet.Encode
import Curvy.Signet.EncodeAgrees
import Curvy.Signet.ParseAgrees
import Curvy.Signet.Spelling
import Curvy.Signet.Transcode
import Curvy.Signet.TranscodeCorrect
import Curvy.Signet.Wtns
import Curvy.Signet.WtnsAgrees
import Curvy.Sparrow.Framer
import Curvy.Sparrow.FramerAgrees
import Curvy.Sparrow.FramerCalls
import Curvy.Sparrow.Manifest
import Curvy.Sparrow.ManifestOps
import Curvy.Sparrow.ManifestRuns
import Curvy.Sparrow.ManifestSafety
import Curvy.Sparrow.Reader
import Curvy.Witness.Decoding
import Curvy.Witness.Field
import Curvy.Witness.Graph
import Curvy.Witness.Input
import Curvy.Witness.InputOrder
import Curvy.Witness.InputRanges
import Curvy.Witness.MachineParse
import Curvy.Witness.OperationSemantics
import Curvy.Witness.ParseSafety
import Curvy.Witness.Sage
import Curvy.Witness.SageCompile
import Curvy.Witness.SageCorrect
import Curvy.Witness.SageProgram
import Curvy.Witness.SageProgramCompiled
import Curvy.Witness.SageProgramExact
import Curvy.Witness.SageProgramRuns
import Curvy.Witness.SageRefines
import Curvy.Witness.SageSlots
import Curvy.Witness.SageTrace
import Curvy.Witness.ScalarField
import Curvy.Witness.Wire
import Curvy.Witness.Workspace
import Curvy.Witness.WorkspaceAgrees
