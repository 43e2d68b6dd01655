import ConcurrentQueues.LPRQueue.Delivery
import ConcurrentQueues.RingQueue.Linearizable

/-!
# LPRQueue is linearizable

Since a dequeue looks twice before the head moves on, the items that wait in the rings form a list
on which the operations take effect.
-/

namespace PRQ

variable {ι : Type}

/-- An enqueue takes nothing. -/
theorem enqueue_ne_take {token : ℕ} {s s' : Shared} {pc pc' : Enqueue} {t x : ℕ} :
  enqueue token s pc ≠ some (s', pc', .take t x)
  := by
  intro hs
  cases pc with
  | readWord | close | ok | closed => cases hs
  | readValue item it u w =>
      simp only [enqueue] at hs
      split at hs
      · split at hs
        · cases hs
        · cases hs
      · cases hs
  | drawTail item it | readHead item it u w v | placeToken item it u w v | casWord item it u w
  | clearToken item it u | install item it u | checkOverflow item it u =>
      simp only [enqueue] at hs
      split at hs
      · cases hs
      · cases hs

/-- A dequeue returns what it takes. -/
theorem dequeue_take {s s' : Shared} {pc pc' : Dequeue} {t x : ℕ}
    (hs : dequeue s pc = some (s', pc', .take t x)) :
  pc' = .gave x
  := by
  cases pc with
  | take h value =>
      cases hs
      rfl
  | drawHead | readWord | readValue | gave | empty => cases hs
  | checkWord h w value =>
      simp only [dequeue] at hs
      split at hs
      · cases hs
      · split at hs
        · cases hs
        · split at hs
          · split at hs
            · cases hs
            · cases hs
          · split at hs
            · cases hs
            · cases hs
  | killToken | advance | mark | readTail =>
      simp only [dequeue] at hs
      split at hs
      · cases hs
      · cases hs

/-- Null is not an item. -/
theorem ring_gives (tokens : Tokens ι) :
  RingQueue.Gives (ring tokens)
  := by
  constructor
  case take =>
    intro i s l s' l' t x hs
    rcases step_inv hs with ⟨pc, pc', rfl, rfl, hpc⟩ | ⟨pc, pc', rfl, rfl, hpc⟩
    · exact absurd hpc enqueue_ne_take
    · obtain rfl := dequeue_take hpc
      rfl
  case null =>
    intro hvalid
    have hvacant : vacant EMPTY = false := hvalid
    cases hvacant

end PRQ

namespace LPRQueue

open Machine

variable {ι : Type} [DecidableEq ι] {n : ℕ}

/-- Every run of `LPRQueue` is linearizable: there are a list for each moment and calls that take
effect then, such that each call takes effect once, between its call and its return, and with the
value that it returns. -/
theorem lprQueue_linearizable (tokens : PRQ.Tokens ι) (r : (machine tokens).Run n) :
  ∃ q l, r.Linear q l
  := by
  obtain ⟨e, he⟩ := RingQueue.schedule r dequeue_step (PRQ.ring_gives tokens)
  obtain ⟨l, hl⟩ := he.linear
  exact ⟨_, l, hl⟩

end LPRQueue
