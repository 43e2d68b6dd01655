import ConcurrentQueues.MSQueue.Progress
import ConcurrentQueues.ValoisQueue.Progress

/-!
# The linked-list queues are lock-free

`MSQueue` and `ValoisQueue` have the same list and the same bound on the iterations of their
loops. They differ in what guards a swing of head or tail, a count or the address alone.
-/

variable {ι V : Type} [DecidableEq ι] [Inhabited V]

/-- In every run of `MSQueue` and of `ValoisQueue`, with `E` links and `D` swings of the head, each
thread goes round its loops at most `2 * E + D` times without ending its operation. -/
theorem listQueues_lockFree {n m : ℕ} (r : (MSQueue.machine ι V).Run n)
    (r' : (ValoisQueue.machine ι V).Run m) :
  r.LockFree MSQueue.Top (fun s => s.tail.ptr) MSQueue.change ∧
    r'.LockFree ValoisQueue.Top (fun s => s.tail) ValoisQueue.change
  := ⟨MSQueue.lockFree r, ValoisQueue.lockFree r'⟩
