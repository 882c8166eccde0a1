import KernelHashtable.Lib.Pointer
import KernelHashtable.Lib.Ring
import KernelHashtable.Lib.Chain
import KernelHashtable.Lib.Heap
import KernelHashtable.Lib.Arena
import KernelHashtable.Lib.Run
import KernelHashtable.Lib.Multimap
import KernelHashtable.Lib.Traverse
import KernelHashtable.Lib.Exchange
import KernelHashtable.Lib.Circles
import KernelHashtable.Lib.Horner
import KernelHashtable.Lib.ShiftMix
import KernelHashtable.Lib.Spread
import KernelHashtable.Lib.Strings
import KernelHashtable.KList
import KernelHashtable.KListCircles
import KernelHashtable.KListRuns
import KernelHashtable.KListTraverse
import KernelHashtable.HList
import KernelHashtable.HListRuns
import KernelHashtable.Log2
import KernelHashtable.Log2Round
import KernelHashtable.Hash
import KernelHashtable.HashCustom
import KernelHashtable.HashJenkins
import KernelHashtable.Hashtable
import KernelHashtable.HashtableRuns
import KernelHashtable.HashtableClear
import KernelHashtable.HashtableSize
import KernelHashtable.HashtableTraverse
import KernelHashtable.StringTable
import KernelHashtable.StringTableRuns
import KernelHashtable.HashSum
import KernelHashtable.HashSpread
import KernelHashtable.HashStrSpread
import KernelHashtable.HashCustomSpread
import KernelHashtable.Deque
import KernelHashtable.DequeRuns
import KernelHashtable.DequeMacros
import KernelHashtable.DequeClear
import KernelHashtable.DequeBounded
import KernelHashtable.DequeUses
import KernelHashtable.AssocArray
import KernelHashtable.AssocEntry
import KernelHashtable.AssocInvariant
import KernelHashtable.AssocLifetime
import KernelHashtable.AssocRuns
import KernelHashtable.AssocMultimap
import KernelHashtable.AssocMap
import KernelHashtable.AssocLedger
import KernelHashtable.AssocReplace
import KernelHashtable.AssocStoredKey
import KernelHashtable.AssocCompare
import KernelHashtable.AssocCollision
import KernelHashtable.AssocSpread
import KernelHashtable.AssocPercent
import KernelHashtable.AssocScarce
import KernelHashtable.RunExample
import KernelHashtable.MainArguments
import KernelHashtable.LeakDetector
import KernelHashtable.LeakRecords
import KernelHashtable.LeakBook
import KernelHashtable.LeakRuns
import KernelHashtable.LeakReport
import KernelHashtable.LeakRealloc
import KernelHashtable.LeakStart
import KernelHashtable.LeakSizes
import KernelHashtable.LeakNames
import KernelHashtable.LeakHistory
