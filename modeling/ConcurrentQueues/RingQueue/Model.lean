import ConcurrentQueues.Library.Fifo
import ConcurrentQueues.Library.Tickets

/-!
# Queues of rings

What `LCRQueue` and `LPRQueue` have in common: a linked list of rings, over a machine for one
ring, and the operation `enqueue`, which is the same in both. A ring is named by the
number of its allocation. A ring that is deleted has not been seen by any other thread, so
it plays no part whether its address is handed out again.
-/

namespace RingQueue

variable {ι ρ ℓ : Type}

/-- The shared memory: `_head`, `_tail`, the rings with their `next`, and the first name that
has not been used. -/
structure Shared (ρ : Type) where
  head : ℕ
  tail : ℕ
  ring : ℕ → ρ
  next : ℕ → Option ℕ
  fresh : ℕ

/-- What a step does to the shared memory. -/
inductive Tag where
  | silent
  | ring (p : ℕ) (τ : RingTag ℕ)
  | link (p : ℕ)
  | discard (p : ℕ)
  | swingTail
  | shiftHead (p : ℕ)
  deriving DecidableEq

/-- The points of `enqueue` before each access, with the local variables in scope. In a call of
the ring there is the local state of that call. -/
inductive Enqueue (ℓ : Type) where
  | loadTail (x : ℕ)
  | loadNext (x crq : ℕ)
  | reloadNext (x crq : ℕ)
  | casTail (x crq next : ℕ)
  | ring (x crq : ℕ) (l : ℓ)
  | newRing (x crq newcrq : ℕ) (l : ℓ)
  | link (x crq newcrq : ℕ)
  | swingTail (x crq newcrq : ℕ)
  | done (x : ℕ)

/-- The points of `dequeue` before each access. Only `LPRQueue` has a second call of the ring. -/
inductive Dequeue (ℓ : Type) where
  | loadHead (item : ℕ)
  | ring (item crq : ℕ) (l : ℓ)
  | loadNext (item crq : ℕ)
  | retry (item crq next : ℕ) (l : ℓ)
  | casHead (item crq next : ℕ)
  | refused (item : ℕ)
  | done (item : ℕ)

/-- The local state of a thread in a call. -/
inductive Local (ℓ : Type) where
  | enqueue (pc : Enqueue ℓ)
  | dequeue (pc : Dequeue ℓ)

/-- The ring named `p` becomes `x`. -/
def Shared.setRing (s : Shared ρ) (p : ℕ) (x : ρ) : Shared ρ :=
  { s with ring := Function.update s.ring p x }

/-- The queue after the constructor: head and tail point to a new ring. -/
def init (new : ρ) : Shared ρ where
  head := 0
  tail := 0
  ring _ := new
  next _ := none
  fresh := 1

variable (M : Machine ι ρ ℓ (RingOp ℕ) (RingRes ℕ) (RingTag ℕ) Unit)

/-- One access of the call of ring `p` in which the thread is at `l`. -/
def call (i : ι) (s : Shared ρ) (p : ℕ) (l : ℓ) : Option (Shared ρ × ℓ × Tag) :=
  (M.step i () (s.ring p) l).map fun (x, l', τ) => (s.setRing p x, l', .ring p τ)

/-- One access of `enqueue`. A `next` that is not null stays so, and there is no step from where
it would be null again. -/
def enqueue (i : ι) (s : Shared ρ) : Enqueue ℓ → Option (Shared ρ × Enqueue ℓ × Tag)
  | .loadTail x => some (s, .loadNext x s.tail, .silent)
  | .loadNext x crq =>
      if s.next crq ≠ none then some (s, .reloadNext x crq, .silent)
      else some (s, .ring x crq (M.start (.enqueue x)), .silent)
  | .reloadNext x crq => (s.next crq).map fun next => (s, .casTail x crq next, .silent)
  | .casTail x crq next =>
      if s.tail = crq then some ({ s with tail := next }, .loadTail x, .swingTail)
      else some (s, .loadTail x, .silent)
  | .ring x crq l =>
      (call M i s crq l).map fun (s, l, t) =>
        match M.result l with
        | none => (s, .ring x crq l, t)
        | some .closed =>
            ({ s with fresh := s.fresh + 1 }, .newRing x crq s.fresh (M.start (.enqueue x)), t)
        | some _ => (s, .done x, t)
  | .newRing x crq newcrq l =>
      (call M i s newcrq l).map fun (s, l, t) =>
        match M.result l with
        | none => (s, .newRing x crq newcrq l, t)
        | some _ => (s, .link x crq newcrq, t)
  | .link x crq newcrq =>
      if s.next crq = none then
        some ({ s with next := Function.update s.next crq (some newcrq) },
          .swingTail x crq newcrq, .link newcrq)
      else some (s, .loadTail x, .discard newcrq)
  | .swingTail x crq newcrq =>
      if s.tail = crq then some ({ s with tail := newcrq }, .done x, .swingTail)
      else some (s, .done x, .silent)
  | .done _ => none

/-- A queue of rings as a machine, whose `dequeue` is given. -/
def machine (dequeue : ι → Shared ρ → Dequeue ℓ → Option (Shared ρ × Dequeue ℓ × Tag)) :
    Machine ι (Shared ρ) (Local ℓ) (QueueOp ℕ) (QueueRes ℕ) Tag Unit where
  init := init M.init
  legal s := ∀ p < s.fresh, M.legal (s.ring p)
  valid
    | .enqueue x => M.valid (.enqueue x)
    | .dequeue _ => True
  start
    | .enqueue x => .enqueue (.loadTail x)
    | .dequeue out => .dequeue (.loadHead out)
  result
    | .enqueue (.done _) => some .enqueued
    | .dequeue (.refused item) => some (.dequeued false item)
    | .dequeue (.done item) => some (.dequeued true item)
    | _ => none
  step i _ s
    | .enqueue pc => (enqueue M i s pc).map fun (s, pc, t) => (s, .enqueue pc, t)
    | .dequeue pc => (dequeue i s pc).map fun (s, pc, t) => (s, .dequeue pc, t)

end RingQueue
