import Krusty.Jvm.MethodNode.RoundTrip
import Krusty.Toolchain.ScheduleSafety
import Krusty.Toolchain.Maven.VersionOrder
import Krusty.Metadata.Encoding
import Krusty.Metadata.WriteRead
import Krusty.Toolchain.GlobLanguage
import Krusty.Native.Linker.RelocateExact
import Krusty.Native.Linker.InterfaceCalls
import Krusty.Build.Store.Interleaving
import Krusty.Build.CleanBuild
import Krusty.Native.Runtime.ThreadsSafety
import Krusty.Jvm.BytecodePasses.Temporaries.Classification
import Krusty.Jvm.BytecodePasses.RedundantGotos
import Krusty.Jvm.BytecodePasses.DeadCode
import Krusty.Jvm.BytecodePasses.LocalSlots
import Krusty.Jvm.BytecodePasses.StackPeephole.Runs
import Krusty.Jvm.BytecodePasses.Analysis.PrunedEdges
import Krusty.Jvm.BytecodePasses.InsnList.Refinement
import Krusty.Jvm.BytecodePasses.Analysis.FrameStoreRefinement
import Krusty.Jvm.BytecodePasses.RedundantBoxing.Connected
import Krusty.Jvm.BytecodePasses.Analysis.Liveness
import Krusty.Jvm.MethodNode.ShapePaths
import Krusty.Jvm.BytecodePasses.RedundantNullChecks.Nullability
import Krusty.Jvm.Classfile.ExceptionTables
import Krusty.Build.AbiEncoding
import Krusty.Metadata.KlibIr.Partition
import Krusty.Native.Linker.LayoutSound
import Krusty.Native.Cinterop.RecordLayouts
import Krusty.Native.Cinterop.Preprocessor.Evaluation
import Krusty.Lru.Refinement
import Krusty.Lru.Growth
import Krusty.KtString.LineEnds
import Krusty.Resolve.WhenCoverage
import Krusty.Build.Graph.Order
import Krusty.Build.Sha256.Files
import Krusty.Wasm.InterfaceDispatch.Dispatch
import Krusty.Wasm.Encode.RoundTrip
import Krusty.Lsp.Positions
import Krusty.Lsp.SemanticTokenPages
import Krusty.Types.Approximation
import Krusty.Native.Runtime.AllocationCursor
import Krusty.Lsp.OutputDelivery
import Krusty.Jvm.Inliner.LocalSorter
import Krusty.Jvm.BytecodePasses.Analysis.FrameMerges
import Krusty.Jvm.SourceMap.Extension
import Krusty.Types.TyTableSafety
import Krusty.Types.TyTableProgress
import Krusty.Resolve.HierarchyCuts
