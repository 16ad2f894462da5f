import SetBench.Transition
import SetBench.Epoch
import SetBench.Reclaim
import SetBench.VersionedPtr
import SetBench.VersionChain
import SetBench.ReaderSteps
import SetBench.WriterSteps
import SetBench.Snapshot
import SetBench.RadixKey
import SetBench.Bitmap
import SetBench.ArtNode
import SetBench.ArtHeap
import SetBench.ArtTree
import SetBench.ArtSearch
import SetBench.ArtGraft
import SetBench.ArtRewrite
import SetBench.KeyVals
import SetBench.KeyMerge
import SetBench.LogEntry
import SetBench.ArtPlace
import SetBench.MapSpec
import SetBench.ArtLeaf
import SetBench.ArtUpdate
import SetBench.ArtMap
import SetBench.ArtContents
import SetBench.ArtThreads
import SetBench.ArtAssert
import SetBench.ArtLinks
import SetBench.DoubleLogCopy
import SetBench.DoubleLogLeaf
import SetBench.DoubleLogHeap
import SetBench.DoubleLogTree
import SetBench.DoubleLogMap
import SetBench.DoubleLogCapacity
import SetBench.Stamps
import SetBench.Dcss
import SetBench.DcssHistory
import SetBench.DcssSteps
import SetBench.DcssWrites
import SetBench.DcssAtomic
import SetBench.SingleLog
import SetBench.SingleLogHistory
import SetBench.AbPersist
import SetBench.AbPersistInv
import SetBench.AbPersistRun
import SetBench.AbRestructure
import SetBench.AbRestructureInv
import SetBench.AbRestructureRun
import SetBench.AbRestructureBuild
import SetBench.AbRestructureSafe
import SetBench.AbRestructureOrder
import SetBench.AbRestructureRank
import SetBench.AbRestructureCycle
import SetBench.AbTree
import SetBench.AbTreeShape
import SetBench.AbTreeFix
import SetBench.AbTreeMap
import SetBench.Scx
import SetBench.ScxInv
import SetBench.ScxShared
import SetBench.ScxSteps
import SetBench.ScxAtomic
import SetBench.RwLock
import SetBench.LinkedBlocks
import SetBench.BlockBag
import SetBench.BlockStack
import SetBench.LimboBag
import SetBench.Debra
import SetBench.TokenRing
import SetBench.HeapTree
import SetBench.EpochTree
import SetBench.EpochTreeSafe
import SetBench.EpochTreeAdvance
import SetBench.HazardPtr
import SetBench.RangeQuery
import SetBench.RangeQueryInv
import SetBench.RangeQuerySteps
import SetBench.RangeQueryAtomic
import SetBench.RangeQueryMarks
import SetBench.RangeQueryReturn
import SetBench.PmemAlloc
import SetBench.PmemAllocInv
import SetBench.PmemAllocSteps
import SetBench.PmemStranded
import SetBench.DcsspQuery
import SetBench.DcsspQueryInv
import SetBench.DcsspQuerySteps
import SetBench.DcsspQueryUpdate
import SetBench.DcsspQueryDecide
import SetBench.DoubleLogReconcile
import SetBench.SingleLogReconcile
import SetBench.SingleLogTree
import SetBench.SingleLogShape
import SetBench.SingleLogUpdates
import SetBench.SingleLogRange
import SetBench.ArtRange
import SetBench.ArtQuery
import SetBench.ArtClip
import SetBench.KeyRange
import SetBench.DoubleLogRange
import SetBench.RangeTrim
import SetBench.SparseLookup
import SetBench.IndexNode
import SetBench.Probing
import SetBench.HashsetNew
import SetBench.FixedHashset
import SetBench.LeafSlots
import SetBench.DcssWitness
import SetBench.SquareProbing
import SetBench.HashList
import SetBench.BagScan
import SetBench.BagMoves
import SetBench.BagOperations
import SetBench.BagRuns
import SetBench.ArtEvery
import SetBench.MediumLeaf
import SetBench.LeafPools
import SetBench.ArtErase
import SetBench.MediumMap
import SetBench.PmemSizes
import SetBench.PmemServes
import SetBench.LinkedLog
import SetBench.FlockLog
import SetBench.FlockFollow
import SetBench.FlockAgree
import SetBench.FlockSteps
import SetBench.FlockObjects
import SetBench.FlockFinish
import SetBench.FastFair
import SetBench.FastFairPage
import SetBench.FastFairStores
import SetBench.FastFairRuns
import SetBench.FastFairChain
import SetBench.FastFairSplit
import SetBench.FastFairWalk
import SetBench.FastFairChains
import SetBench.FastFairHistory
import SetBench.FastFairErase
import SetBench.RowLock
import SetBench.RowLockOk
import SetBench.RowLockRuns
import SetBench.Silo
import SetBench.SiloOk
import SetBench.SiloSteps
import SetBench.SiloRuns
import SetBench.SiloWaits
import SetBench.FlockLock
import SetBench.FlockLockInv
import SetBench.FlockLockRuns
