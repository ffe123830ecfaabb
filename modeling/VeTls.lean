import VeTls.Lib.RingBuffer
import VeTls.Lib.Bytes
import VeTls.Lib.Protobuf
import VeTls.Lib.Intrusive
import VeTls.Lib.Threads
import VeTls.Lib.Machine
import VeTls.Lib.Line
import VeTls.Lib.Extremes
import VeTls.Lib.TokenBucket
import VeTls.Keys.Map
import VeTls.Keys.Sound
import VeTls.Keys.Steps
import VeTls.Keys.Heap
import VeTls.Keys.Refine
import VeTls.Keys.Held
import VeTls.Keys.Contents
import VeTls.Keys.Load
import VeTls.Keys.Slack
import VeTls.Keys.Memory
import VeTls.Keys.Scheduler
import VeTls.Wire
import VeTls.Config
import VeTls.Builder
import VeTls.Producer
import VeTls.Writer
import VeTls.Worker
import VeTls.Sender
import VeTls.System
import VeTls.Fleet
import VeTls.Pipeline.Shelf
import VeTls.Pipeline.WriterMoves
import VeTls.Pipeline.WorkerMoves
import VeTls.Pipeline.SenderMoves
import VeTls.Pipeline.Runs
import VeTls.Pipeline.Contents
import VeTls.Pipeline.Closing
import VeTls.Pipeline.Calls
import VeTls.Pipeline.Books
import VeTls.Pipeline.Intake
import VeTls.Pipeline.Ledger
import VeTls.Pipeline.Budget
import VeTls.Pipeline.Reclaim
import VeTls.Pipeline.Permits
import VeTls.Pipeline.Breaker
import VeTls.Pipeline.Stopping
import VeTls.Pipeline.Tidy
import VeTls.Pipeline.Recall
import VeTls.Pipeline.Slots
import VeTls.Pipeline.Custody
import VeTls.Pipeline.Drain
import VeTls.Pipeline.Shut
import VeTls.Pipeline.Once
import VeTls.Pipeline.Waits
import VeTls.Pipeline.Attempts
import VeTls.Pipeline.KeyBreaker
import VeTls.Pipeline.KeyRate
import VeTls.Pipeline.Packing
import VeTls.Pipeline.Leftovers
import VeTls.Pipeline.FailedAdds
import VeTls.Env.Cache
import VeTls.Env.Isolation
import VeTls.Env.Updates
import VeTls.Env.Atomic
import VeTls.Env.Retry
import VeTls.Env.Lifecycle
import VeTls.Env.Notify
import VeTls.Pool
import VeTls.RateLimit
import VeTls.Proto.Encode
import VeTls.Proto.RoundTrip
import VeTls.Proto.Fast
import VeTls.Proto.Export
import VeTls.Proto.Complete
import VeTls.Proto.Whole
import VeTls.Env.Lengths
import VeTls.Env.Snapshot
import VeTls.Env.SendLoops
import VeTls.Sign.Cache
import VeTls.Pipeline.Turns
import VeTls.Pipeline.Flush
import VeTls.Pipeline.Limits
import VeTls.Pipeline.Oversize
import VeTls.Pipeline.Switching
import VeTls.Pipeline.Overtaking
import VeTls.Pipeline.GateLoop
import VeTls.Pipeline.Admission
import VeTls.Pipeline.Charged
import VeTls.Pipeline.Metadata
import VeTls.Rings
import VeTls.Lib.Percent
import VeTls.Lib.Url
import VeTls.Sign.Query
import VeTls.Sign.Target
import VeTls.Sign.PutLogs
import VeTls.Pipeline.Starved
import VeTls.Lib.Blocks
import VeTls.Lib.Digests
import VeTls.Sign.Sha256
import VeTls.Sign.Md5
import VeTls.Sign.Order
import VeTls.Sign.Sent
import VeTls.Sign.Arena
import VeTls.Env.FailedUpdates
import VeTls.Pipeline.Traces
import VeTls.Pipeline.Covered
import VeTls.Lib.Doubling
import VeTls.Lib.Json
import VeTls.Proto.Growth
import VeTls.Proto.Lens
import VeTls.Env.ErrorBody
import VeTls.Lib.Checked
import VeTls.Lib.Lz4Block
import VeTls.Compress.Lz4
import VeTls.Compress.Lz4Parts
import VeTls.Compress.Lz4Runs
import VeTls.Compress.Lz4Calls
import VeTls.Compress.Payload
import VeTls.Sign.Server
import VeTls.Sign.Accepted
import VeTls.Sign.Binding
import VeTls.Delivery
import VeTls.Lib.Signals
import VeTls.Blocking
import VeTls.Pipeline.Census
import VeTls.Pipeline.Created
import VeTls.Lib.Allocator
import VeTls.Env.Templates
import VeTls.Env.LogTags
