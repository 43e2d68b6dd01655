import ConcurrentQueues.LPRQueue.Linearizable
import ConcurrentQueues.MSQueue.Linearizable
import ConcurrentQueues.MutexQueue.Refines
import ConcurrentQueues.PLJQueue.Linearizable
import ConcurrentQueues.TwoLockQueue.Linearizable
import ConcurrentQueues.ValoisQueue.Linearizable

/-!
# The histories of the queues

What the threads that use a queue see of it, they may see of a queue whose operations take effect in
one step. This is so of all the queues but `LCRQueue`, and of `PLJQueue` as long as its counters
have not gone round.
-/

variable {ι V : Type} [DecidableEq ι] [Inhabited V]

namespace MutexQueue

theorem implementsQueue :
  (machine ι V).ImplementsQueue fun _ _ => True
  := by
  intro n r _
  exact ((linearizes ι V).fifo (outline ι V) (r.lift (ghost ι V) fun _ _ => trivial)).of_lift.admits

end MutexQueue

namespace TwoLockQueue

theorem implementsQueue :
  (machine ι V).ImplementsQueue fun _ _ => True
  := by
  intro n r _
  exact ((linearizes ι V).fifo (outline ι V) (r.lift (ghost ι V) fun _ _ => trivial)).of_lift.admits

end TwoLockQueue

namespace MSQueue

theorem implementsQueue :
  (machine ι V).ImplementsQueue fun _ _ => True
  := by
  intro n r _
  exact ((linearizes ι V).fifo (outline ι V) (r.lift (ghost ι V) fun _ _ => trivial)).of_lift.admits

end MSQueue

namespace ValoisQueue

theorem implementsQueue :
  (machine ι V).ImplementsQueue fun _ _ => True
  := by
  intro n r _
  exact ((linearizes ι V).fifo (outline ι V) (r.lift (ghost ι V) fun _ _ => trivial)).of_lift.admits

end ValoisQueue

namespace PLJQueue

/-- Head and tail have each been changed fewer than 2^32 times, so that no counter comes round. -/
def Short {n : ℕ} (r : (machine ι V).Run n) : Prop :=
  changes r Shared.head n < 2 ^ 32 ∧ changes r Shared.tail n < 2 ^ 32

theorem implementsQueue :
  (machine ι V).ImplementsQueue fun _ r => Short r
  := by
  rintro n r ⟨hhead, htail⟩
  exact ((linearizes ι V).fifo (outline ι V)
    (r.lift (ghost ι V) (trail_bound r hhead htail))).of_lift.admits

end PLJQueue

namespace LPRQueue

theorem implementsQueue (tokens : PRQ.Tokens ι) :
  (machine tokens).ImplementsQueue fun _ _ => True
  := fun _ r _ => RingQueue.admits r dequeue_step (PRQ.ring_gives tokens)

end LPRQueue

/-- The threads that use a `MutexQueue`, `TwoLockQueue`, `MSQueue`, `ValoisQueue`, `PLJQueue` or
`LPRQueue` see nothing that they would not see of the atomic queue. -/
theorem queues_implementQueue (tokens : PRQ.Tokens ι) :
  (MutexQueue.machine ι V).ImplementsQueue (fun _ _ => True) ∧
    (TwoLockQueue.machine ι V).ImplementsQueue (fun _ _ => True) ∧
    (MSQueue.machine ι V).ImplementsQueue (fun _ _ => True) ∧
    (ValoisQueue.machine ι V).ImplementsQueue (fun _ _ => True) ∧
    (PLJQueue.machine ι V).ImplementsQueue (fun _ r => PLJQueue.Short r) ∧
    (LPRQueue.machine tokens).ImplementsQueue (fun _ _ => True)
  := ⟨MutexQueue.implementsQueue, TwoLockQueue.implementsQueue, MSQueue.implementsQueue,
    ValoisQueue.implementsQueue, PLJQueue.implementsQueue, LPRQueue.implementsQueue tokens⟩
