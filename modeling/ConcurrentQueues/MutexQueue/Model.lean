import ConcurrentQueues.Library.Fifo
import ConcurrentQueues.Library.Heap

/-!
# MutexQueue

The queue of `mutex_queue.hpp`, one step for each access, over a heap from which nodes are
deleted and which reuses addresses. The critical sections are made of steps like the rest.
-/

namespace MutexQueue

open Heap (Pointer)

variable {ι V : Type}

/-- `Node`. -/
structure Node (V : Type) where
  item : V
  next : Option Pointer

/-- The shared memory. The mutex is held by a thread or by none. -/
structure Shared (ι V : Type) where
  head : Option Pointer
  tail : Option Pointer
  mutex : Option ι
  heap : Heap (Node V)

/-- What a step does to the shared memory. -/
inductive Tag where
  | silent
  | new (node : Pointer)
  | writeFirst (node : Pointer)
  | storeNext (node : Pointer)
  | writeTail
  | writeHead (tmp : Option Pointer)
  | clearTail
  | delete (tmp : Pointer)
  deriving DecidableEq

/-- The points of `enqueue` before each access, with the local variables in scope. -/
inductive Enqueue (V : Type) where
  | new (item : V)
  | lock (item : V) (node : Pointer)
  | testHead (item : V) (node : Pointer)
  | writeHead (item : V) (node : Pointer)
  | readTail (item : V) (node : Pointer)
  | storeNext (item : V) (node : Pointer) (tail : Option Pointer)
  | writeTail (item : V) (node : Pointer)
  | unlock (item : V)
  | done (item : V)

/-- The points of `dequeue` before each access. -/
inductive Dequeue (V : Type) where
  | lock (item : V)
  | testHead (item : V)
  | unlockEmpty (item : V)
  | refused (item : V)
  | readHead (item : V)
  | rereadHead (item : V) (tmp : Option Pointer)
  | readNext (item : V) (tmp head : Option Pointer)
  | writeHead (item : V) (tmp next : Option Pointer)
  | testEmpty (item : V) (tmp : Option Pointer)
  | clearTail (item : V) (tmp : Option Pointer)
  | unlock (item : V) (tmp : Option Pointer)
  | readItem (item : V) (tmp : Option Pointer)
  | delete (item : V) (tmp : Option Pointer)
  | done (item : V)

/-- The local state of a thread in a call. -/
inductive Local (V : Type) where
  | enqueue (pc : Enqueue V)
  | dequeue (pc : Dequeue V)

/-- `MutexQueue()`. -/
def init : Shared ι V where
  head := none
  tail := none
  mutex := none
  heap := .empty

/-- One access of `enqueue`. The address of a new node is any at which no node is alive, the
mutex is taken when it is free, and an access follows the address of a pointer to whatever
node is alive there. A null pointer is never followed: there is no step then. -/
def enqueue (i : ι) (address : ℕ) (s : Shared ι V) :
    Enqueue V → Option (Shared ι V × Enqueue V × Tag)
  | .new item =>
      (s.heap.new address ⟨item, none⟩).map fun (heap, node) =>
        ({ s with heap := heap }, .lock item node, .new node)
  | .lock item node =>
      if s.mutex.isNone then some ({ s with mutex := some i }, .testHead item node, .silent)
      else none
  | .testHead item node =>
      if s.head.isNone then some (s, .writeHead item node, .silent)
      else some (s, .readTail item node, .silent)
  | .writeHead item node =>
      some ({ s with head := some node }, .writeTail item node, .writeFirst node)
  | .readTail item node => some (s, .storeNext item node s.tail, .silent)
  | .storeNext item node tail => do
      let p ← tail
      let v ← s.heap.read p
      return ({ s with heap := s.heap.write p { v with next := some node } }, .writeTail item node,
        .storeNext node)
  | .writeTail item node => some ({ s with tail := some node }, .unlock item, .writeTail)
  | .unlock item => some ({ s with mutex := none }, .done item, .silent)
  | .done _ => none

/-- One access of `dequeue`. -/
def dequeue (i : ι) (s : Shared ι V) : Dequeue V → Option (Shared ι V × Dequeue V × Tag)
  | .lock item =>
      if s.mutex.isNone then some ({ s with mutex := some i }, .testHead item, .silent)
      else none
  | .testHead item =>
      if s.head.isNone then some (s, .unlockEmpty item, .silent)
      else some (s, .readHead item, .silent)
  | .unlockEmpty item => some ({ s with mutex := none }, .refused item, .silent)
  | .refused _ => none
  | .readHead item => some (s, .rereadHead item s.head, .silent)
  | .rereadHead item tmp => some (s, .readNext item tmp s.head, .silent)
  | .readNext item tmp head => do
      let p ← head
      let v ← s.heap.read p
      return (s, .writeHead item tmp v.next, .silent)
  | .writeHead item tmp next =>
      some ({ s with head := next }, .testEmpty item tmp, .writeHead tmp)
  | .testEmpty item tmp =>
      if s.head.isNone then some (s, .clearTail item tmp, .silent)
      else some (s, .unlock item tmp, .silent)
  | .clearTail item tmp => some ({ s with tail := none }, .unlock item tmp, .clearTail)
  | .unlock item tmp => some ({ s with mutex := none }, .readItem item tmp, .silent)
  | .readItem _ tmp => do
      let p ← tmp
      let v ← s.heap.read p
      return (s, .delete v.item tmp, .silent)
  | .delete item tmp => do
      let p ← tmp
      let _ ← s.heap.read p
      return ({ s with heap := s.heap.delete p }, .done item, .delete p)
  | .done _ => none

/-- `MutexQueue` as a machine. -/
def machine (ι V : Type) :
    Machine ι (Shared ι V) (Local V) (QueueOp V) (QueueRes V) Tag ℕ where
  init := init
  legal _ := True
  valid _ := True
  start
    | .enqueue item => .enqueue (.new item)
    | .dequeue out => .dequeue (.lock out)
  result
    | .enqueue (.done _) => some .enqueued
    | .dequeue (.refused item) => some (.dequeued false item)
    | .dequeue (.done item) => some (.dequeued true item)
    | _ => none
  step i address s
    | .enqueue pc => (enqueue i address s pc).map fun (s, pc, t) => (s, .enqueue pc, t)
    | .dequeue pc => (dequeue i s pc).map fun (s, pc, t) => (s, .dequeue pc, t)

/-- An access is one of `enqueue` or of `dequeue`. -/
theorem step_inv {i : ι} {address : ℕ} {s s' : Shared ι V} {l l' : Local V} {t : Tag}
    (hs : (machine ι V).step i address s l = some (s', l', t)) :
  (∃ pc pc', l = .enqueue pc ∧ l' = .enqueue pc' ∧ enqueue i address s pc = some (s', pc', t)) ∨
    ∃ pc pc', l = .dequeue pc ∧ l' = .dequeue pc' ∧ dequeue i s pc = some (s', pc', t)
  := by
  cases l with
  | enqueue pc =>
      obtain ⟨⟨_, pc', _⟩, hs, heq⟩ := Option.map_eq_some_iff.mp hs
      cases heq
      exact Or.inl ⟨pc, pc', rfl, rfl, hs⟩
  | dequeue pc =>
      obtain ⟨⟨_, pc', _⟩, hs, heq⟩ := Option.map_eq_some_iff.mp hs
      cases heq
      exact Or.inr ⟨pc, pc', rfl, rfl, hs⟩

/-- The points at which a call has a result. -/
theorem result_eq_some (ι : Type) {l : Local V} {v : QueueRes V}
    (hv : (machine ι V).result l = some v) :
  (∃ item, l = .enqueue (.done item) ∧ v = .enqueued) ∨
    (∃ item, l = .dequeue (.refused item) ∧ v = .dequeued false item) ∨
    ∃ item, l = .dequeue (.done item) ∧ v = .dequeued true item
  := by
  cases l with
  | enqueue pc =>
      cases pc with
      | done item =>
          cases hv
          exact Or.inl ⟨item, rfl, rfl⟩
      | _ => cases hv
  | dequeue pc =>
      cases pc with
      | refused item =>
          cases hv
          exact Or.inr (Or.inl ⟨item, rfl, rfl⟩)
      | done item =>
          cases hv
          exact Or.inr (Or.inr ⟨item, rfl, rfl⟩)
      | _ => cases hv

/-- One iteration of the loop of `~MutexQueue()`, which deletes the node `tmp`. The destructor
runs when no other thread uses the queue. -/
def destroy (s : Shared ι V) : Option (Shared ι V × Pointer) := do
  let tmp ← s.head
  let v ← s.heap.read tmp
  return ({ s with head := v.next, heap := s.heap.delete tmp }, tmp)

/-- `~MutexQueue()` takes the memory `s` to `s'` and deletes the nodes `ds` in this order, without
following a pointer to a node that has been deleted. -/
inductive Destroys : Shared ι V → List Pointer → Shared ι V → Prop where
  | done {s : Shared ι V} (hnull : s.head = none) : Destroys s [] { s with tail := none }
  | delete {s s' s'' : Shared ι V} {tmp : Pointer} {ds : List Pointer} (halive : s.heap.Alive tmp)
      (htmp : destroy s = some (s', tmp)) (hrest : Destroys s' ds s'') : Destroys s (tmp :: ds) s''

/-- Writing the head of an empty queue and storing `next` append the item of the node, and moving
the head removes the front. -/
def effect : Tag → Effect
  | .writeFirst _ | .storeNext _ => .append
  | .writeHead _ => .remove
  | _ => .none

/-- What an access does to the heap. -/
def use : Tag → Heap.Use
  | .new node => .new node
  | .delete tmp => .delete tmp
  | _ => .keep

/-- The pointer whose node the next access of a thread reads, writes or deletes. -/
def Local.follows : Local V → Option Pointer
  | .enqueue (.storeNext _ _ tail) => tail
  | .dequeue (.readNext _ _ head) => head
  | .dequeue (.readItem _ tmp) | .dequeue (.delete _ tmp) => tmp
  | _ => none

/-- The pointers in the local variables of a thread. -/
def Local.pointers : Local V → List Pointer
  | .enqueue (.lock _ node) | .enqueue (.testHead _ node) | .enqueue (.writeHead _ node)
  | .enqueue (.readTail _ node) | .enqueue (.writeTail _ node) => [node]
  | .enqueue (.storeNext _ node tail) => node :: tail.toList
  | .dequeue (.rereadHead _ tmp) | .dequeue (.testEmpty _ tmp) | .dequeue (.clearTail _ tmp)
  | .dequeue (.unlock _ tmp) | .dequeue (.readItem _ tmp) | .dequeue (.delete _ tmp) => tmp.toList
  | .dequeue (.readNext _ tmp head) => tmp.toList ++ head.toList
  | .dequeue (.writeHead _ tmp next) => tmp.toList ++ next.toList
  | _ => []

/-- The node a thread owns once it has moved the head past it and let go of the mutex. -/
def Local.tmp : Local V → Option Pointer
  | .dequeue (.readItem _ tmp) | .dequeue (.delete _ tmp) => tmp
  | _ => none

/-- The field `next` of the node `p`. -/
def Shared.next (s : Shared ι V) (p : Pointer) : Option Pointer := (s.heap.read p).bind Node.next

end MutexQueue
