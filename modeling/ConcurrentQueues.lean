import ConcurrentQueues.Library.Machine
import ConcurrentQueues.Library.Outline
import ConcurrentQueues.Library.Script
import ConcurrentQueues.Library.Fifo
import ConcurrentQueues.Library.History
import ConcurrentQueues.Library.Atomic
import ConcurrentQueues.Library.Spine
import ConcurrentQueues.Library.Links
import ConcurrentQueues.Library.Progress
import ConcurrentQueues.Library.ListProgress
import ConcurrentQueues.MSQueue.Model
import ConcurrentQueues.MSQueue.Linearizable
import ConcurrentQueues.MSQueue.Progress
import ConcurrentQueues.MSQueue.Shape
import ConcurrentQueues.ValoisQueue.Model
import ConcurrentQueues.ValoisQueue.Linearizable
import ConcurrentQueues.ValoisQueue.Progress
import ConcurrentQueues.ValoisQueue.Reclaim
import ConcurrentQueues.TwoLockQueue.Linearizable
import ConcurrentQueues.PLJQueue.History
import ConcurrentQueues.PLJQueue.Linearizable
import ConcurrentQueues.PLJQueue.Snapshot
import ConcurrentQueues.PLJQueue.Shape
import ConcurrentQueues.PLJQueue.Progress
import ConcurrentQueues.Library.Tickets
import ConcurrentQueues.Library.TopBit
import ConcurrentQueues.CRQ.Model
import ConcurrentQueues.Library.TicketRing
import ConcurrentQueues.Library.Waiting
import ConcurrentQueues.CRQ.Exact
import ConcurrentQueues.PRQ.Model
import ConcurrentQueues.PRQ.Exact
import ConcurrentQueues.RingQueue.Model
import ConcurrentQueues.RingQueue.Chain
import ConcurrentQueues.RingQueue.Runs
import ConcurrentQueues.RingQueue.Items
import ConcurrentQueues.RingQueue.Waiting
import ConcurrentQueues.RingQueue.Linearizable
import ConcurrentQueues.RingQueue.Shape
import ConcurrentQueues.LPRQueue.Delivery
import ConcurrentQueues.LPRQueue.Linearizable
import ConcurrentQueues.LCRQueue.Delivery
import ConcurrentQueues.LCRQueue.Model
import ConcurrentQueues.LPRQueue.Model
import ConcurrentQueues.CRQ.Ring
import ConcurrentQueues.CRQ.Repair
import ConcurrentQueues.PRQ.Ring
import ConcurrentQueues.Library.Family
import ConcurrentQueues.PRQ.Token
import ConcurrentQueues.LockFree
import ConcurrentQueues.Histories
import ConcurrentQueues.Correctness.Model
import ConcurrentQueues.Correctness.Passes
import ConcurrentQueues.Correctness.Terminates
import ConcurrentQueues.Library.Closing
import ConcurrentQueues.Library.Heap
import ConcurrentQueues.MutexQueue.Model
import ConcurrentQueues.MutexQueue.Refines
import ConcurrentQueues.Closing
import ConcurrentQueues.Library.Output
import ConcurrentQueues.Refusal
import ConcurrentQueues.Permanence
import ConcurrentQueues.Library.Sequential
import ConcurrentQueues.Library.Window
import ConcurrentQueues.CRQ.Sequential
import ConcurrentQueues.PRQ.Sequential
import ConcurrentQueues.RingQueue.Sequential
import ConcurrentQueues.LCRQueue.Sequential
import ConcurrentQueues.LPRQueue.Sequential
import ConcurrentQueues.Sequential
import ConcurrentQueues.Library.Log
import ConcurrentQueues.Benchmark.Model
import ConcurrentQueues.Benchmark.Sampling
import ConcurrentQueues.Benchmark.Conservation
import ConcurrentQueues.Benchmark.Queues
import ConcurrentQueues.Benchmark.Timing
import ConcurrentQueues.Benchmark.Latency
import ConcurrentQueues.Library.Stuck
import ConcurrentQueues.NeverStuck
import ConcurrentQueues.Sweep.Model
import ConcurrentQueues.Sweep.Resume
import ConcurrentQueues.Library.Pattern
import ConcurrentQueues.Results.Model
import ConcurrentQueues.Results.ReadBack
import ConcurrentQueues.Library.Alone
import ConcurrentQueues.Alone
