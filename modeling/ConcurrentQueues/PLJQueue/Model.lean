import ConcurrentQueues.Library.Fifo

/-!
# PLJQueue

The queue of `plj_queue.hpp`, one step for each atomic access. Objects are never freed, so
`new` returns the next address not used so far. What a thread computes between two accesses,
such as the state of the queue from a snapshot, belongs to the access before.
-/

namespace PLJQueue

variable {ι V : Type}

/-- The marker of an object that is not going to be dequeued. -/
def ENQ : UInt32 := 0

/-- The marker of an object that is going to be dequeued. -/
def DEQ : UInt32 := 1

/-- `Count`. -/
structure Count where
  counter : UInt32
  mark : UInt32
  deriving DecidableEq

/-- `Pointer`. -/
structure Pointer where
  ptr : Option ℕ
  count : Count
  deriving DecidableEq

/-- A pointer no one has written yet. -/
def Pointer.default : Pointer := ⟨none, ⟨0, 0⟩⟩

/-- The pointer a thread that has seen `p` replaces it with, to point to `ptr`. -/
def Pointer.shift (p : Pointer) (ptr : Option ℕ) : Pointer :=
  ⟨ptr, ⟨p.count.counter + 1, p.count.mark⟩⟩

/-- `Object`. -/
structure Object (V : Type) where
  data : V
  nextobject : Pointer

/-- The shared memory: `Shared_head`, `Shared_tail` and the objects allocated so far. -/
structure Shared (V : Type) where
  head : Pointer
  tail : Pointer
  object : ℕ → Object V
  fresh : ℕ

/-- What a step does to the shared memory. -/
inductive Tag where
  | silent
  | new (object : ℕ)
  | loadTail
  | write (object : ℕ)
  | link (object : ℕ)
  | mark (object : Option ℕ)
  | shiftTail
  | shiftHead (object : Option ℕ)
  | drainTail
  | drainHead
  | fillTail (object : ℕ)
  | fillHead

/-- `DetermineState`: the state of the queue in Figure 2. -/
def determineState (head tail next : Pointer) : ℕ :=
  if head.ptr ≠ none ∧ head.ptr = tail.ptr then
    if next.ptr = none then
      if next.count.mark = DEQ then 4 else 3
    else 5
  else if head.ptr ≠ none ∧ tail.ptr ≠ none ∧ head.ptr ≠ tail.ptr then
    if next.ptr = none then 1 else 2
  else if head.ptr = none ∧ tail.ptr = none then 7
  else if head.ptr ≠ none ∧ tail.ptr = none then 6
  else if head.ptr = none ∧ tail.ptr ≠ none then 8
  else 0

/-- The points of `Snapshot` before each access. `next` keeps its value when the tail is
null. -/
inductive Snapshot where
  | loadHead (next : Pointer)
  | loadTail (firsthead next : Pointer)
  | loadNext (firsthead firsttail next : Pointer)
  | checkTail (firsthead firsttail next : Pointer)
  | checkHead (firsthead tail next : Pointer)
  | done (head tail next : Pointer)

/-- The start of a snapshot. -/
def Snapshot.start : Snapshot := .loadHead .default

/-- The points of `enqueue` before each access, with the local variables in scope. -/
inductive Enqueue (V : Type) where
  | new (item : V)
  | storeNext (item : V) (object : ℕ)
  | snapshot (item : V) (object : ℕ) (snapshot : Snapshot)
  | link (item : V) (object : ℕ) (tail next : Pointer)
  | swing (item : V) (object : ℕ) (tail : Pointer)
  | shiftTail (item : V) (object : ℕ) (tail next : Pointer)
  | drainTail (item : V) (object : ℕ) (head tail : Pointer)
  | drainHead (item : V) (object : ℕ) (head : Pointer)
  | fillTail (item : V) (object : ℕ) (head tail : Pointer)
  | fill (item : V) (object : ℕ) (head : Pointer)
  | fillHead (item : V) (object : ℕ) (head tail : Pointer)
  | done (item : V)

/-- The points of `dequeue` before each access. -/
inductive Dequeue (V : Type) where
  | snapshot (item : V) (snapshot : Snapshot)
  | loadHeadNext (item : V) (head : Pointer)
  | shiftHead (item : V) (head : Pointer) (next : Option ℕ)
  | mark (item : V) (head tail next : Pointer)
  | markTail (item : V) (object : Option ℕ) (head tail : Pointer)
  | markHead (item : V) (object : Option ℕ) (head : Pointer)
  | drainTail (item : V) (head tail : Pointer)
  | drainHead (item : V) (head : Pointer)
  | loadTailNext (item : V) (tail : Pointer)
  | shiftTail (item : V) (tail : Pointer) (next : Option ℕ)
  | fillHead (item : V) (head tail : Pointer)
  | delinkLoad (item : V) (object : ℕ)
  | delinkStore (item : V) (object : ℕ) (oldNext : Pointer)
  | readData (item : V) (object : ℕ)
  | refused (item : V)
  | done (item : V)

/-- The local state of a thread in a call. -/
inductive Local (V : Type) where
  | enqueue (pc : Enqueue V)
  | dequeue (pc : Dequeue V)

/-- The object at address `p` becomes `v`. -/
def Shared.setObject (s : Shared V) (p : ℕ) (v : Object V) : Shared V :=
  { s with object := Function.update s.object p v }

/-- The field `nextobject` of the object at address `p` becomes `next`. -/
def Shared.setNext (s : Shared V) (p : ℕ) (next : Pointer) : Shared V :=
  s.setObject p { s.object p with nextobject := next }

/-- `PLJQueue()`. -/
def init [Inhabited V] : Shared V where
  head := ⟨none, ⟨0, ENQ⟩⟩
  tail := ⟨none, ⟨0, ENQ⟩⟩
  object _ := ⟨default, .default⟩
  fresh := 0

/-- One access of `Snapshot`. -/
def snapshot (s : Shared V) : Snapshot → Option (Snapshot × Tag)
  | .loadHead next => some (.loadTail s.head next, .silent)
  | .loadTail firsthead next =>
      if s.tail.ptr ≠ none then some (.loadNext firsthead s.tail next, .loadTail)
      else some (.checkTail firsthead s.tail next, .loadTail)
  | .loadNext firsthead firsttail _ =>
      firsttail.ptr.map fun p =>
        (.checkTail firsthead firsttail (s.object p).nextobject, .silent)
  | .checkTail firsthead firsttail next =>
      if s.tail = firsttail then some (.checkHead firsthead s.tail next, .silent)
      else some (.loadTail firsthead next, .silent)
  | .checkHead firsthead tail next =>
      if s.head = firsthead then some (.done s.head tail next, .silent)
      else some (.loadHead next, .silent)
  | .done _ _ _ => none

/-- The switch of `enqueue`. -/
def Enqueue.switch (item : V) (object : ℕ) (head tail next : Pointer) : Enqueue V :=
  match determineState head tail next with
  | 1 | 3 => .link item object tail next
  | 2 | 5 => .shiftTail item object tail next
  | 4 => .drainTail item object head tail
  | 6 => .drainHead item object head
  | 7 => .fillTail item object head tail
  | 8 => .fillHead item object head tail
  | _ => .snapshot item object .start

/-- Where `enqueue` goes from a point of its snapshot. -/
def Enqueue.afterSnapshot (item : V) (object : ℕ) : Snapshot → Enqueue V
  | .done head tail next => .switch item object head tail next
  | pc => .snapshot item object pc

/-- One access of `enqueue`. A null pointer is never followed: there is no step then. -/
def enqueue (s : Shared V) : Enqueue V → Option (Shared V × Enqueue V × Tag)
  | .new item =>
      some ({ s.setObject s.fresh ⟨item, .default⟩ with fresh := s.fresh + 1 },
        .storeNext item s.fresh, .new s.fresh)
  | .storeNext item object =>
      some (s.setNext object ⟨none, ⟨0, ENQ⟩⟩, .snapshot item object .start, .write object)
  | .snapshot item object pc =>
      (snapshot s pc).map fun (pc, t) => (s, .afterSnapshot item object pc, t)
  | .link item object tail next =>
      tail.ptr.map fun p =>
        if (s.object p).nextobject = next then
          (s.setNext p ⟨some object, ⟨next.count.counter + 1, ENQ⟩⟩, .swing item object tail,
            .link object)
        else (s, .snapshot item object .start, .silent)
  | .swing item object tail =>
      if s.tail = tail then
        some ({ s with tail := tail.shift (some object) }, .done item, .shiftTail)
      else some (s, .done item, .silent)
  | .shiftTail item object tail next =>
      if s.tail = tail then
        some ({ s with tail := tail.shift next.ptr }, .snapshot item object .start, .shiftTail)
      else some (s, .snapshot item object .start, .silent)
  | .drainTail item object head tail =>
      if s.tail = tail then
        some ({ s with tail := tail.shift none }, .drainHead item object head, .drainTail)
      else some (s, .drainHead item object head, .silent)
  | .drainHead item object head =>
      if s.head = head then
        some ({ s with head := head.shift none }, .snapshot item object .start, .drainHead)
      else some (s, .snapshot item object .start, .silent)
  | .fillTail item object head tail =>
      if s.tail = tail then
        some ({ s with tail := tail.shift (some object) }, .fill item object head,
          .fillTail object)
      else some (s, .snapshot item object .start, .silent)
  | .fill item object head =>
      if s.head = head then
        some ({ s with head := head.shift (some object) }, .done item, .fillHead)
      else some (s, .done item, .silent)
  | .fillHead item object head tail =>
      if s.head = head then
        some ({ s with head := head.shift tail.ptr }, .snapshot item object .start, .fillHead)
      else some (s, .snapshot item object .start, .silent)
  | .done _ => none

/-- The switch of `dequeue`. -/
def Dequeue.switch (item : V) (head tail next : Pointer) : Dequeue V :=
  match determineState head tail next with
  | 1 | 2 => .loadHeadNext item head
  | 3 => .mark item head tail next
  | 4 => .drainTail item head tail
  | 5 => .loadTailNext item tail
  | 6 => .drainHead item head
  | 7 => .refused item
  | 8 => .fillHead item head tail
  | _ => .snapshot item .start

/-- Where `dequeue` goes from a point of its snapshot. -/
def Dequeue.afterSnapshot (item : V) : Snapshot → Dequeue V
  | .done head tail next => .switch item head tail next
  | pc => .snapshot item pc

/-- What `dequeue` does with the object it has dequeued. -/
def Dequeue.extract (item : V) : Option ℕ → Dequeue V
  | none => .refused item
  | some object => .delinkLoad item object

/-- One access of `dequeue`. -/
def dequeue (s : Shared V) : Dequeue V → Option (Shared V × Dequeue V × Tag)
  | .snapshot item pc => (snapshot s pc).map fun (pc, t) => (s, .afterSnapshot item pc, t)
  | .loadHeadNext item head =>
      head.ptr.map fun p => (s, .shiftHead item head (s.object p).nextobject.ptr, .silent)
  | .shiftHead item head next =>
      if s.head = head then
        some ({ s with head := head.shift next }, .extract item head.ptr, .shiftHead head.ptr)
      else some (s, .snapshot item .start, .silent)
  | .mark item head tail next =>
      tail.ptr.map fun p =>
        if (s.object p).nextobject = next then
          (s.setNext p ⟨next.ptr, ⟨next.count.counter + 1, DEQ⟩⟩,
            .markTail item head.ptr head tail, .mark head.ptr)
        else (s, .snapshot item .start, .silent)
  | .markTail item object head tail =>
      if s.tail = tail then
        some ({ s with tail := tail.shift none }, .markHead item object head, .drainTail)
      else some (s, .markHead item object head, .silent)
  | .markHead item object head =>
      if s.head = head then
        some ({ s with head := head.shift none }, .extract item object, .drainHead)
      else some (s, .extract item object, .silent)
  | .drainTail item head tail =>
      if s.tail = tail then
        some ({ s with tail := tail.shift none }, .drainHead item head, .drainTail)
      else some (s, .drainHead item head, .silent)
  | .drainHead item head =>
      if s.head = head then
        some ({ s with head := head.shift none }, .snapshot item .start, .drainHead)
      else some (s, .snapshot item .start, .silent)
  | .loadTailNext item tail =>
      tail.ptr.map fun p => (s, .shiftTail item tail (s.object p).nextobject.ptr, .silent)
  | .shiftTail item tail next =>
      if s.tail = tail then
        some ({ s with tail := tail.shift next }, .snapshot item .start, .shiftTail)
      else some (s, .snapshot item .start, .silent)
  | .fillHead item head tail =>
      if s.head = head then
        some ({ s with head := head.shift tail.ptr }, .snapshot item .start, .fillHead)
      else some (s, .snapshot item .start, .silent)
  | .delinkLoad item object =>
      some (s, .delinkStore item object (s.object object).nextobject, .silent)
  | .delinkStore item object oldNext =>
      some (s.setNext object ⟨none, ⟨oldNext.count.counter + 1, ENQ⟩⟩, .readData item object,
        .write object)
  | .readData _ object => some (s, .done (s.object object).data, .silent)
  | .refused _ => none
  | .done _ => none

/-- `PLJQueue` as a machine. -/
def machine (ι V : Type) [Inhabited V] :
    Machine ι (Shared V) (Local V) (QueueOp V) (QueueRes V) Tag Unit where
  init := init
  legal _ := True
  valid _ := True
  start
    | .enqueue item => .enqueue (.new item)
    | .dequeue out => .dequeue (.snapshot out .start)
  result
    | .enqueue (.done _) => some .enqueued
    | .dequeue (.refused item) => some (.dequeued false item)
    | .dequeue (.done item) => some (.dequeued true item)
    | _ => none
  step _ _ s
    | .enqueue pc => (enqueue s pc).map fun (s, pc, t) => (s, .enqueue pc, t)
    | .dequeue pc => (dequeue s pc).map fun (s, pc, t) => (s, .dequeue pc, t)

/-- An access is one of `enqueue` or of `dequeue`. -/
theorem step_inv [Inhabited V] {i : ι} {ch : Unit} {s s' : Shared V} {l l' : Local V} {t : Tag}
    (hs : (machine ι V).step i ch s l = some (s', l', t)) :
  (∃ pc pc', l = .enqueue pc ∧ l' = .enqueue pc' ∧ enqueue s pc = some (s', pc', t)) ∨
    ∃ pc pc', l = .dequeue pc ∧ l' = .dequeue pc' ∧ dequeue s pc = some (s', pc', t)
  := by
  cases l with
  | enqueue pc =>
      obtain ⟨⟨_, pc', _⟩, hs, heq⟩ := Option.map_eq_some_iff.mp hs
      cases heq
      exact Or.inl ⟨pc, pc', rfl, rfl, hs⟩
  | dequeue pc =>
      obtain ⟨⟨_, pc', _⟩, hs, heq⟩ := Option.map_eq_some_iff.mp hs
      cases heq
      exact Or.inr ⟨pc, pc', rfl, rfl, hs⟩

/-- The points at which a call has a result. -/
theorem result_eq_some [Inhabited V] (ι : Type) {l : Local V} {v : QueueRes V}
    (hv : (machine ι V).result l = some v) :
  (∃ item, l = .enqueue (.done item) ∧ v = .enqueued) ∨
    (∃ item, l = .dequeue (.refused item) ∧ v = .dequeued false item) ∨
    ∃ item, l = .dequeue (.done item) ∧ v = .dequeued true item
  := by
  cases l with
  | enqueue pc =>
      cases pc with
      | done item =>
          cases hv
          exact Or.inl ⟨item, rfl, rfl⟩
      | _ => cases hv
  | dequeue pc =>
      cases pc with
      | refused item =>
          cases hv
          exact Or.inr (Or.inl ⟨item, rfl, rfl⟩)
      | done item =>
          cases hv
          exact Or.inr (Or.inr ⟨item, rfl, rfl⟩)
      | _ => cases hv

/-- Linking an object and filling an empty queue append the data of the object; moving the
head of a queue with other objects and marking its only object remove the front. -/
def effect : Tag → Effect
  | .link _ | .fillTail _ => .append
  | .shiftHead _ | .mark _ => .remove
  | _ => .none

end PLJQueue
