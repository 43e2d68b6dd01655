import ConcurrentQueues.LCRQueue.Sequential
import ConcurrentQueues.LPRQueue.Sequential

/-!
# The queues of rings with one thread
-/

/-- `LCRQueue` and `LPRQueue` are FIFO lists for a thread that is alone and makes fewer than
`2 ^ 62` calls: every call returns, and it returns what the list does. -/
theorem ringQueues_implementFifo {ι : Type} (tokens : PRQ.Tokens ι) (i : ι) :
  (LCRQueue.machine ι).Implements i (2 ^ 62) fifo [] ∧
    (LPRQueue.machine tokens).Implements i (2 ^ 62) fifo []
  := by
  constructor
  · exact RingQueue.implements_fifo (LCRQueue.solo i) (LCRQueue.soloDequeue i)
  · exact RingQueue.implements_fifo (LPRQueue.solo tokens i) (LPRQueue.soloDequeue tokens i)
