import Whim.TypeCheckRuns
import Whim.StructuralHash
import Whim.StringRuns
import Whim.UnitVerification
import Whim.JumpThreading
import Whim.FoldingAgrees
import Whim.FrameDecoder
import Whim.CompactionPreserves
import Whim.VarianceSound
import Whim.SchedulerTimers
import Whim.TransactionSafe
import Whim.SourcePath
import Whim.CsvChunks
import Whim.BinaryHeapSafe
import Whim.ChannelRuns
import Whim.SemaphoreRuns
import Whim.PoolRuns
import Whim.Suspensions
import Whim.TaskGroupRuns
import Whim.SchedulerErrors
import Whim.LockReferences
import Whim.ArchiveChecksum
import Whim.TokenBucketRuns
import Whim.Throttle
import Whim.TypeEnvironments
import Whim.ExpressionPrecedence
import Whim.LexerRuns
import Whim.StringLengths
import Whim.License
import Whim.StringSwitch
import Whim.ClassOrder
import Whim.PercentCoding
import Whim.Splitting
import Whim.BaseConversion
