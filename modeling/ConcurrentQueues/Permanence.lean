import ConcurrentQueues.LCRQueue.Delivery
import ConcurrentQueues.LPRQueue.Delivery
import ConcurrentQueues.RingQueue.Shape

/-!
# Closing is permanent

In `LCRQueue` and `LPRQueue` a ring that has been closed stays closed, though the bit shares its
word with the counter of the tail: `fetch_add` does not reach the bit, `fetch_or` sets it, and the
CAS of `fixState` fails when it is set. Only the last ring of the list may be open.
-/

open Machine RingQueue

namespace CRQ

/-- An enqueue that draws its ticket from a closed ring is refused. -/
theorem enqueue_refused {s s' : Shared} {pc pc' : Enqueue}
    (hs : enqueue s pc = some (s', pc', .drawClosed)) :
  pc' = .closed
  := by
  cases pc with
  | drawTail arg it =>
      rw [enqueue] at hs
      split at hs
      · cases hs
        rfl
      · cases hs
  | readVal | close | ok | closed => cases hs
  | readSafeAndIdx arg it t val =>
      simp only [enqueue] at hs
      split at hs
      · split at hs
        · cases hs
        · cases hs
      · cases hs
  | readHead arg it t w | cas arg it t w | checkOverflow arg it t =>
      simp only [enqueue] at hs
      split at hs
      · cases hs
      · cases hs

/-- `CLOSED_BIT` shows whether a ring is closed. -/
theorem ring_reveals (ι : Type) :
  Reveals (ring ι) fun s => decodeTailClosed s.tail
  := by
  constructor
  case closed => exact fun h => h.closed
  case refuse =>
    intro i s l s' l' hs
    rcases step_inv hs with ⟨pc, pc', rfl, rfl, hpc⟩ | ⟨pc, pc', rfl, rfl, hpc⟩
    · obtain rfl := enqueue_refused hpc
      rfl
    · apply (dequeue_tag hpc).elim

end CRQ

namespace PRQ

/-- An enqueue that draws its ticket from a closed ring is refused. -/
theorem enqueue_refused {token : ℕ} {s s' : Shared} {pc pc' : Enqueue}
    (hs : enqueue token s pc = some (s', pc', .drawClosed)) :
  pc' = .closed
  := by
  cases pc with
  | drawTail item it =>
      rw [enqueue] at hs
      split at hs
      · cases hs
        rfl
      · cases hs
  | readWord | close | ok | closed => cases hs
  | readValue item it t w =>
      simp only [enqueue] at hs
      split at hs
      · split at hs
        · cases hs
        · cases hs
      · cases hs
  | readHead item it t w v | placeToken item it t w v | casWord item it t w
  | clearToken item it t | install item it t | checkOverflow item it t =>
      simp only [enqueue] at hs
      split at hs
      · cases hs
      · cases hs

/-- `CLOSED_BIT` shows whether a ring is closed. -/
theorem ring_reveals {ι : Type} (tokens : Tokens ι) :
  Reveals (ring tokens) fun s => decodeTailClosed s.tail
  := by
  constructor
  case closed => exact fun h => h.closed
  case refuse =>
    intro i s l s' l' hs
    rcases step_inv hs with ⟨pc, pc', rfl, rfl, hpc⟩ | ⟨pc, pc', rfl, rfl, hpc⟩
    · obtain rfl := enqueue_refused hpc
      rfl
    · apply (dequeue_tag hpc).elim

end PRQ

/-- In every run of `LCRQueue` and of `LPRQueue` a closed ring stays closed, and the list of the
rings keeps its shape. -/
theorem queues_keepShape :
  (∀ (ι : Type) [DecidableEq ι] (n : ℕ) (r : (LCRQueue.machine ι).Run n),
      KeepsShape r fun s => CRQ.decodeTailClosed s.tail) ∧
    ∀ (ι : Type) [DecidableEq ι] (tokens : PRQ.Tokens ι) (n : ℕ)
      (r : (LPRQueue.machine tokens).Run n), KeepsShape r fun s => PRQ.decodeTailClosed s.tail
  := by
  constructor
  · intro ι _ n r
    apply keepsShape LCRQueue.dequeue_step (CRQ.ring_reveals ι) r
  · intro ι _ tokens n r
    apply keepsShape LPRQueue.dequeue_step (PRQ.ring_reveals tokens) r
