import CppProjects.Serialize.TypeTags
import CppProjects.Serialize.Reserve
import CppProjects.Serialize.Containers
import CppProjects.Ini.Stability
import CppProjects.ThreadPool.CPoolWakeup
import CppProjects.ThreadPool.CppPoolQueue
import CppProjects.Vector.MyVectorSizing
import CppProjects.Vector.MyVectorRefused
import CppProjects.Vector.MyVectorEraseRange
import CppProjects.Vector.CppVectorSequence
import CppProjects.Vector.CppVectorAssign
import CppProjects.Vector.CppVectorLifetimes
import CppProjects.Vector.MyVectorCopies
import CppProjects.Vector.ReserveIterator
import CppProjects.List.LinkedListWhole
import CppProjects.List.LinkedListTraversal
import CppProjects.ThreadPool.PoolRelease
import CppProjects.ThreadPool.ThreadPollDrain
import CppProjects.Stack.LockFreeStackRuns
import CppProjects.Json.JsonEquality
import CppProjects.Json.JsonExceptions
import CppProjects.Json.JsonPaths
import CppProjects.Json.JsonTags
import CppProjects.Json.JsonOwnership
import CppProjects.Ini.Assignments
import CppProjects.Ini.IntSettings
import CppProjects.Serialize.Bounds
import CppProjects.Serialize.FailedReads
import CppProjects.Serialize.MapRoundTrip
import CppProjects.Serialize.Display
import CppProjects.ThreadPool.CPoolCounts
import CppProjects.ConnectPool.Lending
import CppProjects.Logger.Rotation
import CppProjects.Timer.Update
import CppProjects.Xml.XmlAttributes
import CppProjects.Xml.XmlAssign
import CppProjects.Xml.XmlStr
import CppProjects.Epoll.Echo
import CppProjects.LookupTable.Linearization
import CppProjects.Sort.QuickSort
import CppProjects.Http.UrlDecode
import CppProjects.Http.ParamValue
import CppProjects.Http.ParseQuery
import CppProjects.Timer.TimerThread
import CppProjects.Timer.FiringTimes
import CppProjects.ConnectPool.Recycling
import CppProjects.ThreadPool.CPoolShutdown
import CppProjects.Xml.XmlChildList
import CppProjects.Xml.XmlIndependence
import CppProjects.MemoryPool.MemoryPool
import CppProjects.MemoryPool.PoolMoves
import CppProjects.MemoryPool.PoolRuns
import CppProjects.MemoryPool.StackAlloc
import CppProjects.Http.Faults
import CppProjects.ThreadPool.DetachedPoolDrain
import CppProjects.Atomics.Counters
