import ConcurrentQueues.Library.Fifo

/-!
# MSQueue

The queue of `ms_queue.hpp`, one step for each atomic access. Addresses are natural numbers,
and a node is never freed before the destructor runs, so `new` returns the next address
not used so far. The items are pointers of type `V`, with the null pointer as default.
-/

namespace MSQueue

variable {ι V : Type}

/-- `pointer_t`: a node or null, and an unsigned 32-bit count. -/
structure Pointer where
  ptr : Option ℕ
  count : UInt32
  deriving DecidableEq

/-- `Node`. -/
structure Node (V : Type) where
  value : V
  next : Pointer

/-- The shared memory: `Head`, `Tail` and the nodes allocated so far. -/
structure Shared (V : Type) where
  head : Pointer
  tail : Pointer
  node : ℕ → Node V
  fresh : ℕ

/-- What a step does to the shared memory. -/
inductive Tag where
  | silent
  | alloc (node : ℕ)
  | link (node : ℕ)
  | swingTail
  | swingHead
  deriving DecidableEq

/-- The points of `enqueue` before each access, named after the lines of the source, with the
local variables in scope. -/
inductive Enqueue (V : Type) where
  | e1 (value : V)
  | e5 (value : V) (node : ℕ)
  | e6 (value : V) (node : ℕ) (tail : Pointer)
  | e7 (value : V) (node : ℕ) (tail next : Pointer)
  | e9 (value : V) (node : ℕ) (tail next : Pointer)
  | e13 (value : V) (node : ℕ) (tail next : Pointer)
  | e17 (value : V) (node : ℕ) (tail : Pointer)
  | done (value : V)

/-- The points of `dequeue` before each access. -/
inductive Dequeue (V : Type) where
  | d2 (pvalue : V)
  | d3 (pvalue : V) (head : Pointer)
  | d4 (pvalue : V) (head tail : Pointer)
  | d5 (pvalue : V) (head tail next : Pointer)
  | d8 (pvalue : V)
  | d10 (pvalue : V) (tail next : Pointer)
  | d12 (pvalue : V) (head next : Pointer)
  | d13 (pvalue : V) (head next : Pointer)
  | d20 (pvalue : V)

/-- The local state of a thread in a call. -/
inductive Local (V : Type) where
  | enqueue (pc : Enqueue V)
  | dequeue (pc : Dequeue V)

/-- The node at address `p` becomes `v`. -/
def Shared.setNode (s : Shared V) (p : ℕ) (v : Node V) : Shared V :=
  { s with node := Function.update s.node p v }

/-- `MSQueue()`: head and tail point to a dummy node. -/
def init [Inhabited V] : Shared V where
  head := ⟨some 0, 0⟩
  tail := ⟨some 0, 0⟩
  node _ := ⟨default, ⟨none, 0⟩⟩
  fresh := 1

/-- One access of `enqueue`. A null pointer is never followed: there is no step then. -/
def enqueue (s : Shared V) : Enqueue V → Option (Shared V × Enqueue V × Tag)
  | .e1 value =>
      some ({ s.setNode s.fresh ⟨value, ⟨none, 0⟩⟩ with fresh := s.fresh + 1 },
        .e5 value s.fresh, .alloc s.fresh)
  | .e5 value node => some (s, .e6 value node s.tail, .silent)
  | .e6 value node tail =>
      tail.ptr.map fun t => (s, .e7 value node tail (s.node t).next, .silent)
  | .e7 value node tail next =>
      if tail = s.tail then
        if next.ptr = none then some (s, .e9 value node tail next, .silent)
        else some (s, .e13 value node tail next, .silent)
      else some (s, .e5 value node, .silent)
  | .e9 value node tail next =>
      tail.ptr.map fun t =>
        if (s.node t).next = next then
          (s.setNode t ⟨(s.node t).value, ⟨some node, next.count + 1⟩⟩, .e17 value node tail,
            .link node)
        else (s, .e5 value node, .silent)
  | .e13 value node tail next =>
      if s.tail = tail then
        some ({ s with tail := ⟨next.ptr, tail.count + 1⟩ }, .e5 value node, .swingTail)
      else some (s, .e5 value node, .silent)
  | .e17 value node tail =>
      if s.tail = tail then
        some ({ s with tail := ⟨some node, tail.count + 1⟩ }, .done value, .swingTail)
      else some (s, .done value, .silent)
  | .done _ => none

/-- One access of `dequeue`. -/
def dequeue (s : Shared V) : Dequeue V → Option (Shared V × Dequeue V × Tag)
  | .d2 pvalue => some (s, .d3 pvalue s.head, .silent)
  | .d3 pvalue head => some (s, .d4 pvalue head s.tail, .silent)
  | .d4 pvalue head tail =>
      head.ptr.map fun h => (s, .d5 pvalue head tail (s.node h).next, .silent)
  | .d5 pvalue head tail next =>
      if head = s.head then
        if head.ptr = tail.ptr then
          if next.ptr = none then some (s, .d8 pvalue, .silent)
          else some (s, .d10 pvalue tail next, .silent)
        else some (s, .d12 pvalue head next, .silent)
      else some (s, .d2 pvalue, .silent)
  | .d8 _ => none
  | .d10 pvalue tail next =>
      if s.tail = tail then
        some ({ s with tail := ⟨next.ptr, tail.count + 1⟩ }, .d2 pvalue, .swingTail)
      else some (s, .d2 pvalue, .silent)
  | .d12 _ head next =>
      next.ptr.map fun p => (s, .d13 (s.node p).value head next, .silent)
  | .d13 pvalue head next =>
      if s.head = head then
        some ({ s with head := ⟨next.ptr, head.count + 1⟩ }, .d20 pvalue, .swingHead)
      else some (s, .d2 pvalue, .silent)
  | .d20 _ => none

/-- `MSQueue` as a machine. -/
def machine (ι V : Type) [Inhabited V] :
    Machine ι (Shared V) (Local V) (QueueOp V) (QueueRes V) Tag Unit where
  init := init
  legal _ := True
  valid _ := True
  start
    | .enqueue value => .enqueue (.e1 value)
    | .dequeue out => .dequeue (.d2 out)
  result
    | .enqueue (.done _) => some .enqueued
    | .dequeue (.d8 pvalue) => some (.dequeued false pvalue)
    | .dequeue (.d20 pvalue) => some (.dequeued true pvalue)
    | _ => none
  step _ _ s
    | .enqueue pc => (enqueue s pc).map fun (s, pc, t) => (s, .enqueue pc, t)
    | .dequeue pc => (dequeue s pc).map fun (s, pc, t) => (s, .dequeue pc, t)

/-- An access is one of `enqueue` or of `dequeue`. -/
theorem step_inv [Inhabited V] {i : ι} {ch : Unit} {s s' : Shared V} {l l' : Local V} {t : Tag}
    (hs : (machine ι V).step i ch s l = some (s', l', t)) :
  (∃ pc pc', l = .enqueue pc ∧ l' = .enqueue pc' ∧ enqueue s pc = some (s', pc', t)) ∨
    ∃ pc pc', l = .dequeue pc ∧ l' = .dequeue pc' ∧ dequeue s pc = some (s', pc', t)
  := by
  cases l with
  | enqueue pc =>
      obtain ⟨⟨_, pc', _⟩, hs, heq⟩ := Option.map_eq_some_iff.mp hs
      cases heq
      exact Or.inl ⟨pc, pc', rfl, rfl, hs⟩
  | dequeue pc =>
      obtain ⟨⟨_, pc', _⟩, hs, heq⟩ := Option.map_eq_some_iff.mp hs
      cases heq
      exact Or.inr ⟨pc, pc', rfl, rfl, hs⟩

/-- The points at which a call has a result. -/
theorem result_eq_some [Inhabited V] (ι : Type) {l : Local V} {v : QueueRes V}
    (hv : (machine ι V).result l = some v) :
  (∃ item, l = .enqueue (.done item) ∧ v = .enqueued) ∨
    (∃ item, l = .dequeue (.d8 item) ∧ v = .dequeued false item) ∨
    ∃ item, l = .dequeue (.d20 item) ∧ v = .dequeued true item
  := by
  cases l with
  | enqueue pc =>
      cases pc with
      | done item =>
          cases hv
          exact Or.inl ⟨item, rfl, rfl⟩
      | _ => cases hv
  | dequeue pc =>
      cases pc with
      | d8 item =>
          cases hv
          exact Or.inr (Or.inl ⟨item, rfl, rfl⟩)
      | d20 item =>
          cases hv
          exact Or.inr (Or.inr ⟨item, rfl, rfl⟩)
      | _ => cases hv

/-- Linking a node appends its item, and moving the head removes the front. -/
def effect : Tag → Effect
  | .link _ => .append
  | .swingHead => .remove
  | _ => .none

end MSQueue
