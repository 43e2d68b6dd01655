import ConcurrentQueues.LPRQueue.Model
import ConcurrentQueues.PRQ.Ring
import ConcurrentQueues.RingQueue.Items

/-!
# Delivery in LPRQueue

`LPRQueue` loses no item, returns false only when it has seen the queue empty, and delivers
the items in order. Before the head moves on, a dequeue has found the ring empty after the
next ring was linked, so the ring was closed by then and has been drained.
-/

namespace LPRQueue

open Machine RingQueue

variable {ι : Type} {tokens : PRQ.Tokens ι}

/-- The accesses of `dequeue` are those of a dequeue that looks twice. -/
theorem dequeue_step :
  Dequeues (PRQ.machine tokens) (PRQ.ring tokens).null true (dequeue tokens)
  := by
  intro i s pc s' pc' t hs
  cases pc with
  | loadHead item =>
      cases hs
      exact .loadHead item
  | ring item p l =>
      obtain ⟨⟨s₁, l₁, t₁⟩, hcall, heq⟩ := Option.map_eq_some_iff.mp hs
      cases hv : (PRQ.machine tokens).result l₁ with
      | none =>
          simp only [hv] at heq
          cases heq
          exact .ring hcall hv
      | some v =>
          cases v with
          | value v =>
              simp only [hv] at heq
              split at heq
              case isTrue hne =>
                cases heq
                exact .give hcall hv hne
              case isFalse hnull =>
                cases heq
                exact .empty hcall hv fun x hx => by cases hx; exact not_not.mp hnull
          | ok | closed =>
              simp only [hv] at heq
              cases heq
              exact .empty hcall hv nofun
  | loadNext item p =>
      rw [dequeue] at hs
      split at hs
      case h_1 hnext =>
        cases hs
        exact .refuse hnext
      case h_2 q hnext =>
        cases hs
        exact .again hnext rfl
  | retry item p q l =>
      obtain ⟨⟨s₁, l₁, t₁⟩, hcall, heq⟩ := Option.map_eq_some_iff.mp hs
      cases hv : (PRQ.machine tokens).result l₁ with
      | none =>
          simp only [hv] at heq
          cases heq
          exact .retry hcall hv
      | some v =>
          cases v with
          | value v =>
              simp only [hv] at heq
              split at heq
              case isTrue hne =>
                cases heq
                exact .retryGive hcall hv hne
              case isFalse hnull =>
                cases heq
                exact .retryEmpty hcall hv fun x hx => by cases hx; exact not_not.mp hnull
          | ok | closed =>
              simp only [hv] at heq
              cases heq
              exact .retryEmpty hcall hv nofun
  | casHead item p q =>
      rw [dequeue] at hs
      split at hs
      case isTrue hhead =>
        cases hs
        exact .shift hhead
      case isFalse hhead =>
        cases hs
        exact .lose hhead
  | refused item => cases hs
  | done item => cases hs

variable [DecidableEq ι] {n : ℕ}

/-- The head leaves only empty rings. -/
theorem leftEmpty (r : (machine tokens).Run n) :
  ∀ k ≤ n, LeftEmpty (PRQ.ring tokens) (trail (PRQ.ring tokens) r k)
  := fun _ hk => (asserts dequeue_step r hk).1.leftEmpty

/-- `LPRQueue` loses no item. -/
theorem lprQueue_losesNone (tokens : PRQ.Tokens ι) (r : (machine tokens).Run n) :
  LosesNone r PRQ.Holds
  := losesNone dequeue_step r (leftEmpty r)

/-- `LPRQueue` returns false only when it has seen the queue empty. -/
theorem lprQueue_falseJustified (tokens : PRQ.Tokens ι) (r : (machine tokens).Run n) :
  FalseJustified r PRQ.Holds
  := falseJustified dequeue_step r (leftEmpty r)

/-- `LPRQueue` delivers each item at most once, and in order. -/
theorem lprQueue_deliversInOrder (tokens : PRQ.Tokens ι) (r : (machine tokens).Run n) :
  DeliversInOrder r
  := deliversInOrder dequeue_step r

end LPRQueue
