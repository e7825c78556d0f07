import DeftRpc.Foundation.Exec
import DeftRpc.Foundation.Ring
import DeftRpc.Foundation.Word
import DeftRpc.Foundation.Bytes
import DeftRpc.Foundation.Framing
import DeftRpc.Buffer.RingBuffer
import DeftRpc.Buffer.RingInvariant
import DeftRpc.Buffer.RingQueue
import DeftRpc.Buffer.RingFetch
import DeftRpc.Buffer.FetchSafety
import DeftRpc.Net.Codec
import DeftRpc.Net.TcpConnection
import DeftRpc.Hook.IoBase
import DeftRpc.Hook.Write
import DeftRpc.Foundation.Memory
import DeftRpc.Coroutine.SharedStack
import DeftRpc.Coroutine.StackRuns
import DeftRpc.Foundation.KeyedSet
import DeftRpc.Timers.TimerQueue
import DeftRpc.Timers.QueueInvariant
import DeftRpc.Timers.QueueSteps
import DeftRpc.Timers.Arming
import DeftRpc.Timers.ExpireEvent
import DeftRpc.Concurrent.LockFreeQueue
import DeftRpc.Concurrent.QueueProducers
import DeftRpc.Concurrent.QueueOrder
import DeftRpc.Concurrent.QueueConsumers
import DeftRpc.Concurrent.QueueReclaim
import DeftRpc.Concurrent.ReentrantMutex
import DeftRpc.Concurrent.SchedulerThread
import DeftRpc.Concurrent.Scheduler
import DeftRpc.Concurrent.Wakeup
import DeftRpc.Concurrent.WakeupOrder
import DeftRpc.Coroutine.Poller
import DeftRpc.Coroutine.PollerMirror
import DeftRpc.Coroutine.ActiveList
import DeftRpc.Coroutine.TwoDirections
import DeftRpc.Hook.Registration
import DeftRpc.Net.ClientReceive
import DeftRpc.Net.ClientSend
import DeftRpc.Net.ConnectionLife
import DeftRpc.DataStruct.HashInvariant
import DeftRpc.DataStruct.HashIterator
import DeftRpc.Serialize.StringDeSerialize
import DeftRpc.Serialize.Truncation
import DeftRpc.DataStruct.HashRefinement
import DeftRpc.DataStruct.HashResize
import DeftRpc.DataStruct.SkipList
import DeftRpc.Foundation.Lane
import DeftRpc.DataStruct.SkipListLanes
import DeftRpc.DataStruct.SkipListUpdate
import DeftRpc.DataStruct.SkipListInvariant
import DeftRpc.DataStruct.SkipListOps
import DeftRpc.DataStruct.SkipListInsert
import DeftRpc.DataStruct.SkipListRefinement
import DeftRpc.DataStruct.SkipListLevels
import DeftRpc.Net.Conversation
import DeftRpc.Serialize.BackReferences
import DeftRpc.Serialize.PointerTags
import DeftRpc.Serialize.StringSerialize
import DeftRpc.Serialize.RoundTrip
import DeftRpc.Serialize.PassedOver
import DeftRpc.DataStruct.HashRehash
import DeftRpc.DataStruct.HashLinks
import DeftRpc.DataStruct.HashStrings
import DeftRpc.DataStruct.HashSimulation
import DeftRpc.DataStruct.HashDestroy
import DeftRpc.DataStruct.HashCursor
import DeftRpc.Timers.TimerIds
import DeftRpc.Timers.ActiveMirror
import DeftRpc.Timers.Cancellation
import DeftRpc.Timers.SizeAssertions
import DeftRpc.DataStruct.SkipListUnlink
import DeftRpc.Buffer.EVBuffer
import DeftRpc.Buffer.EVQueue
import DeftRpc.Log.FormatString
import DeftRpc.Log.Rendering
import DeftRpc.Foundation.BitPolynomial
import DeftRpc.Foundation.ShiftRegister
import DeftRpc.Checksum.Crc32
import DeftRpc.Checksum.Detection
import DeftRpc.Buffer.RingGrowth
import DeftRpc.Net.ClientEof
import DeftRpc.Foundation.OneShot
import DeftRpc.Timers.LoneTimer
import DeftRpc.Timers.DoUntil
import DeftRpc.Net.ClientState
import DeftRpc.Serialize.Destination
import DeftRpc.Serialize.FreshDestination
import DeftRpc.Serialize.StringResize
import DeftRpc.Coroutine.StackSetup
import DeftRpc.Foundation.Numeral
import DeftRpc.Net.Addr
import DeftRpc.Foundation.Assembly
import DeftRpc.Coroutine.CoctxSwap
import DeftRpc.Coroutine.Switching
import DeftRpc.Concurrent.QueueProgress
import DeftRpc.Net.TcpSever
import DeftRpc.Foundation.RegisterPower
import DeftRpc.Checksum.TwoBits
import DeftRpc.Coroutine.EventLoop
import DeftRpc.Coroutine.Shutdown
import DeftRpc.Log.Logger
import DeftRpc.Log.LogLines
import DeftRpc.Log.LogProgress
import DeftRpc.Serialize.BinaryRoundTrip
import DeftRpc.Hook.EnableHook
