import ConcurrentQueues.PRQ.Model
import ConcurrentQueues.RingQueue.Model

/-!
# LPRQueue

The queue of `lpr_queue.hpp` over the rings of `PRQ`. Before `dequeue` moves the head to the
next ring it tries the ring once more.
-/

namespace LPRQueue

open RingQueue

variable {ι : Type}

/-- The shared memory. -/
abbrev Shared := RingQueue.Shared PRQ.Shared

/-- The points of `dequeue`. -/
abbrev Dequeue := RingQueue.Dequeue PRQ.Local

/-- One access of `enqueue`. -/
def enqueue (tokens : PRQ.Tokens ι) (i : ι) (s : Shared) (pc : Enqueue PRQ.Local) :
    Option (Shared × Enqueue PRQ.Local × Tag) :=
  RingQueue.enqueue (PRQ.machine tokens) i s pc

/-- One access of `dequeue`. -/
def dequeue (tokens : PRQ.Tokens ι) (i : ι) (s : Shared) :
    Dequeue → Option (Shared × Dequeue × Tag)
  | .loadHead item => some (s, .ring item s.head ((PRQ.machine tokens).start .dequeue), .silent)
  | .ring item prq l =>
      (call (PRQ.machine tokens) i s prq l).map fun (s, l, t) =>
        match (PRQ.machine tokens).result l with
        | none => (s, .ring item prq l, t)
        | some (.value v) => if v ≠ PRQ.EMPTY then (s, .done v, t) else (s, .loadNext item prq, t)
        | some _ => (s, .loadNext item prq, t)
  | .loadNext item prq =>
      match s.next prq with
      | none => some (s, .refused item, .silent)
      | some next =>
          some (s, .retry item prq next ((PRQ.machine tokens).start .dequeue), .silent)
  | .retry item prq next l =>
      (call (PRQ.machine tokens) i s prq l).map fun (s, l, t) =>
        match (PRQ.machine tokens).result l with
        | none => (s, .retry item prq next l, t)
        | some (.value v) =>
            if v ≠ PRQ.EMPTY then (s, .done v, t) else (s, .casHead item prq next, t)
        | some _ => (s, .casHead item prq next, t)
  | .casHead item prq next =>
      if s.head = prq then some ({ s with head := next }, .loadHead item, .shiftHead prq)
      else some (s, .loadHead item, .silent)
  | .refused _ => none
  | .done _ => none

/-- `LPRQueue` as a machine. -/
def machine (tokens : PRQ.Tokens ι) :
    Machine ι Shared (Local PRQ.Local) (QueueOp ℕ) (QueueRes ℕ) Tag Unit :=
  RingQueue.machine (PRQ.machine tokens) (dequeue tokens)

end LPRQueue
