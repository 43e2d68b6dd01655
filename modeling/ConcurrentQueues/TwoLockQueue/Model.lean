import ConcurrentQueues.Library.Fifo

/-!
# TwoLockQueue

The queue of `two_lock_queue.hpp`, one step for each access, over a heap from which nodes are
deleted. The address of a deleted node may be handed out again by `new`. A pointer
therefore carries the number of the allocation it came from: no access reads the
number, but it tells a pointer to a deleted node from one to a later node at the same address.
-/

namespace TwoLockQueue

variable {ι V : Type}

/-- `Node *`, not null. -/
structure Pointer where
  address : ℕ
  birth : ℕ
  deriving DecidableEq

/-- `Node`. -/
structure Node (V : Type) where
  item : V
  next : Option Pointer

/-- A node in the heap, with the number of its allocation. -/
structure Cell (V : Type) where
  birth : ℕ
  node : Node V

/-- The shared memory. A mutex is held by a thread or by none, and an address at which no
node is alive holds `none`. -/
structure Shared (ι V : Type) where
  head : Pointer
  headLock : Option ι
  tail : Pointer
  tailLock : Option ι
  heap : ℕ → Option (Cell V)
  births : ℕ

/-- What a step does to the shared memory. -/
inductive Tag where
  | silent
  | new (node : Pointer)
  | storeNext (node : Pointer)
  | writeTail
  | readNull
  | writeHead (dummy : Pointer)
  | delete (dummy : Pointer)

/-- The points of `enqueue` before each access, with the local variables in scope. -/
inductive Enqueue (V : Type) where
  | new (item : V)
  | lock (item : V) (node : Pointer)
  | readTail (item : V) (node : Pointer)
  | storeNext (item : V) (node tail : Pointer)
  | writeTail (item : V) (node : Pointer)
  | unlock (item : V)
  | done (item : V)

/-- The points of `dequeue` before each access. -/
inductive Dequeue (V : Type) where
  | lock (item : V)
  | readHead (item : V)
  | loadNext (item : V) (dummy : Pointer)
  | unlockEmpty (item : V)
  | refused (item : V)
  | readItem (item : V) (dummy newHead : Pointer)
  | writeHead (item : V) (dummy newHead : Pointer)
  | unlock (item : V) (dummy : Pointer)
  | delete (item : V) (dummy : Pointer)
  | done (item : V)

/-- The local state of a thread in a call. -/
inductive Local (V : Type) where
  | enqueue (pc : Enqueue V)
  | dequeue (pc : Dequeue V)

/-- The content of address `p` becomes `c`. -/
def Shared.setHeap (s : Shared ι V) (p : ℕ) (c : Option (Cell V)) : Shared ι V :=
  { s with heap := Function.update s.heap p c }

/-- `TwoLockQueue()`: head and tail point to a dummy node. -/
def init [Inhabited V] : Shared ι V where
  head := ⟨0, 0⟩
  headLock := none
  tail := ⟨0, 0⟩
  tailLock := none
  heap := Function.update (fun _ => none) 0 (some ⟨0, ⟨default, none⟩⟩)
  births := 1

/-- One access of `enqueue`. The address of a new node is any at which no node is alive, a
mutex is taken when it is free, and an access follows the address of a pointer to
whatever node is alive there. -/
def enqueue (i : ι) (address : ℕ) (s : Shared ι V) :
    Enqueue V → Option (Shared ι V × Enqueue V × Tag)
  | .new item =>
      if (s.heap address).isNone then
        some ({ s.setHeap address (some ⟨s.births, ⟨item, none⟩⟩) with births := s.births + 1 },
          .lock item ⟨address, s.births⟩, .new ⟨address, s.births⟩)
      else none
  | .lock item node =>
      if s.tailLock.isNone then
        some ({ s with tailLock := some i }, .readTail item node, .silent)
      else none
  | .readTail item node => some (s, .storeNext item node s.tail, .silent)
  | .storeNext item node tail =>
      (s.heap tail.address).map fun c =>
        (s.setHeap tail.address (some { c with node := { c.node with next := some node } }),
          .writeTail item node, .storeNext node)
  | .writeTail item node => some ({ s with tail := node }, .unlock item, .writeTail)
  | .unlock item => some ({ s with tailLock := none }, .done item, .silent)
  | .done _ => none

/-- One access of `dequeue`. -/
def dequeue (i : ι) (s : Shared ι V) : Dequeue V → Option (Shared ι V × Dequeue V × Tag)
  | .lock item =>
      if s.headLock.isNone then some ({ s with headLock := some i }, .readHead item, .silent)
      else none
  | .readHead item => some (s, .loadNext item s.head, .silent)
  | .loadNext item dummy =>
      (s.heap dummy.address).map fun c =>
        match c.node.next with
        | none => (s, .unlockEmpty item, .readNull)
        | some newHead => (s, .readItem item dummy newHead, .silent)
  | .unlockEmpty item => some ({ s with headLock := none }, .refused item, .silent)
  | .refused _ => none
  | .readItem _ dummy newHead =>
      (s.heap newHead.address).map fun c => (s, .writeHead c.node.item dummy newHead, .silent)
  | .writeHead item dummy newHead =>
      some ({ s with head := newHead }, .unlock item dummy, .writeHead dummy)
  | .unlock item dummy => some ({ s with headLock := none }, .delete item dummy, .silent)
  | .delete item dummy =>
      (s.heap dummy.address).map fun _ =>
        (s.setHeap dummy.address none, .done item, .delete dummy)
  | .done _ => none

/-- `TwoLockQueue` as a machine. -/
def machine (ι V : Type) [Inhabited V] :
    Machine ι (Shared ι V) (Local V) (QueueOp V) (QueueRes V) Tag ℕ where
  init := init
  legal _ := True
  valid _ := True
  start
    | .enqueue item => .enqueue (.new item)
    | .dequeue out => .dequeue (.lock out)
  result
    | .enqueue (.done _) => some .enqueued
    | .dequeue (.refused item) => some (.dequeued false item)
    | .dequeue (.done item) => some (.dequeued true item)
    | _ => none
  step i address s
    | .enqueue pc => (enqueue i address s pc).map fun (s, pc, t) => (s, .enqueue pc, t)
    | .dequeue pc => (dequeue i s pc).map fun (s, pc, t) => (s, .dequeue pc, t)

/-- An access is one of `enqueue` or of `dequeue`. -/
theorem step_inv [Inhabited V] {i : ι} {address : ℕ} {s s' : Shared ι V} {l l' : Local V} {t : Tag}
    (hs : (machine ι V).step i address s l = some (s', l', t)) :
  (∃ pc pc', l = .enqueue pc ∧ l' = .enqueue pc' ∧ enqueue i address s pc = some (s', pc', t)) ∨
    ∃ pc pc', l = .dequeue pc ∧ l' = .dequeue pc' ∧ dequeue i s pc = some (s', pc', t)
  := by
  cases l with
  | enqueue pc =>
      obtain ⟨⟨_, pc', _⟩, hs, heq⟩ := Option.map_eq_some_iff.mp hs
      cases heq
      exact Or.inl ⟨pc, pc', rfl, rfl, hs⟩
  | dequeue pc =>
      obtain ⟨⟨_, pc', _⟩, hs, heq⟩ := Option.map_eq_some_iff.mp hs
      cases heq
      exact Or.inr ⟨pc, pc', rfl, rfl, hs⟩

/-- The points at which a call has a result. -/
theorem result_eq_some [Inhabited V] (ι : Type) {l : Local V} {v : QueueRes V}
    (hv : (machine ι V).result l = some v) :
  (∃ item, l = .enqueue (.done item) ∧ v = .enqueued) ∨
    (∃ item, l = .dequeue (.refused item) ∧ v = .dequeued false item) ∨
    ∃ item, l = .dequeue (.done item) ∧ v = .dequeued true item
  := by
  cases l with
  | enqueue pc =>
      cases pc with
      | done item =>
          cases hv
          exact Or.inl ⟨item, rfl, rfl⟩
      | _ => cases hv
  | dequeue pc =>
      cases pc with
      | refused item =>
          cases hv
          exact Or.inr (Or.inl ⟨item, rfl, rfl⟩)
      | done item =>
          cases hv
          exact Or.inr (Or.inr ⟨item, rfl, rfl⟩)
      | _ => cases hv

/-- Storing `next` appends the item of the stored node, and writing the head removes the
front. -/
def effect : Tag → Effect
  | .storeNext _ => .append
  | .writeHead _ => .remove
  | _ => .none

/-- The pointer whose node the next access of a thread reads, writes or deletes. -/
def Local.follows : Local V → Option Pointer
  | .enqueue (.storeNext _ _ tail) => some tail
  | .dequeue (.loadNext _ dummy) => some dummy
  | .dequeue (.readItem _ _ newHead) => some newHead
  | .dequeue (.delete _ dummy) => some dummy
  | _ => none

/-- The node `p` pointed to when it was allocated has not been deleted. -/
def Shared.Alive (s : Shared ι V) (p : Pointer) : Prop :=
  ∃ node, s.heap p.address = some ⟨p.birth, node⟩

end TwoLockQueue
