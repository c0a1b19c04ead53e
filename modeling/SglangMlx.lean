import SglangMlx.MemoryPool
import SglangMlx.EvictPolicy
import SglangMlx.RadixCache
import SglangMlx.Lib.PrefixTree
import SglangMlx.RadixTree
import SglangMlx.RadixBook
import SglangMlx.RadixWalk
import SglangMlx.RadixLock
import SglangMlx.RadixEvict
import SglangMlx.RadixRun
import SglangMlx.RadixInvariant
import SglangMlx.Lib.PrefixMap
import SglangMlx.RadixMap
import SglangMlx.RadixPin
import SglangMlx.EvictOrder
import SglangMlx.PoolPartition
import SglangMlx.ModelRunner
import SglangMlx.SlotLedger
import SglangMlx.RunnerInvariant
import SglangMlx.RunnerStep
import SglangMlx.LiveSlots
import SglangMlx.CausalModel
import SglangMlx.PrefixReuse
import SglangMlx.SlotLeaks
import SglangMlx.Lib.Layout
import SglangMlx.Lib.MachineInt
import SglangMlx.EvictReclaim
import SglangMlx.RadixStamp
import SglangMlx.EvictHistory
import SglangMlx.TokenLocks
import SglangMlx.RunnerSound
import SglangMlx.StepFailure
import SglangMlx.Generate
import SglangMlx.FullCache
import SglangMlx.MlxArray
import SglangMlx.ReshapeAndCache
import SglangMlx.ReshapeCorrect
import SglangMlx.PagedAttention
import SglangMlx.CacheLayout
import SglangMlx.StridedViews
import SglangMlx.AttentionKernel
import SglangMlx.ChunkedUpdates
import SglangMlx.Lib.ConcurrentCopy
import SglangMlx.CopyBlocks
import SglangMlx.CopyBlocksCorrect
import SglangMlx.BlockTables
import SglangMlx.Lib.ThreadGrid
import SglangMlx.ReshapeFlash
import SglangMlx.FlashAgrees
import SglangMlx.Lib.MiniFloat
import SglangMlx.Float8
import SglangMlx.Float8Codes
import SglangMlx.Float8Correct
import SglangMlx.Float8Rounding
import SglangMlx.Lib.KeyTree
import SglangMlx.InsertOrder
import SglangMlx.AttentionBounds
import SglangMlx.AttentionPhases
import SglangMlx.AttentionCorrect
import SglangMlx.AttentionAccuracy
import SglangMlx.AttentionOverStore
import SglangMlx.Bfloat16
import SglangMlx.Float8RoundTrip
import SglangMlx.ReferenceDecoding
import SglangMlx.FollowUp
