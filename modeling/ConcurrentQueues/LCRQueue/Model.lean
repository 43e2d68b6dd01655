import ConcurrentQueues.CRQ.Model
import ConcurrentQueues.RingQueue.Model

/-!
# LCRQueue

The queue of `lcr_queue.hpp` over the rings of `CRQ`.
-/

namespace LCRQueue

open RingQueue

variable {ι : Type}

/-- The shared memory. -/
abbrev Shared := RingQueue.Shared CRQ.Shared

/-- The points of `dequeue`. -/
abbrev Dequeue := RingQueue.Dequeue CRQ.Local

/-- One access of `enqueue`. -/
def enqueue (i : ι) (s : Shared) (pc : Enqueue CRQ.Local) :
    Option (Shared × Enqueue CRQ.Local × Tag) :=
  RingQueue.enqueue (CRQ.machine ι) i s pc

/-- One access of `dequeue`. -/
def dequeue (i : ι) (s : Shared) : Dequeue → Option (Shared × Dequeue × Tag)
  | .loadHead item => some (s, .ring item s.head ((CRQ.machine ι).start .dequeue), .silent)
  | .ring item crq l =>
      (call (CRQ.machine ι) i s crq l).map fun (s, l, t) =>
        match (CRQ.machine ι).result l with
        | none => (s, .ring item crq l, t)
        | some (.value v) => if v ≠ CRQ.EMPTY then (s, .done v, t) else (s, .loadNext item crq, t)
        | some _ => (s, .loadNext item crq, t)
  | .loadNext item crq =>
      match s.next crq with
      | none => some (s, .refused item, .silent)
      | some next => some (s, .casHead item crq next, .silent)
  | .casHead item crq next =>
      if s.head = crq then some ({ s with head := next }, .loadHead item, .shiftHead crq)
      else some (s, .loadHead item, .silent)
  | .retry _ _ _ _ => none
  | .refused _ => none
  | .done _ => none

/-- `LCRQueue` as a machine. -/
def machine (ι : Type) :
    Machine ι Shared (Local CRQ.Local) (QueueOp ℕ) (QueueRes ℕ) Tag Unit :=
  RingQueue.machine (CRQ.machine ι) dequeue

end LCRQueue
