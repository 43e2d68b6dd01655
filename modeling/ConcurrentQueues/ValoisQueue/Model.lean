import ConcurrentQueues.Library.Fifo

/-!
# ValoisQueue

The queue of `valois_queue.hpp`, one step for each atomic access. Retired nodes are freed by
the destructor only, so `new` returns the next address not used so far.
-/

namespace ValoisQueue

variable {ι V : Type}

/-- `Node`. -/
structure Node (V : Type) where
  item : V
  next : Option ℕ
  retiredNext : Option ℕ

/-- The shared memory: `head_`, `tail_`, `retired_` and the nodes allocated so far. -/
structure Shared (V : Type) where
  head : Option ℕ
  tail : Option ℕ
  retired : Option ℕ
  node : ℕ → Node V
  fresh : ℕ

/-- What a step does to the shared memory. -/
inductive Tag where
  | silent
  | alloc (node : ℕ)
  | link (node : ℕ)
  | swingTail
  | swingHead
  | retire (node : ℕ)
  deriving DecidableEq

/-- The points of `enqueue` before each access, with the local variables in scope. -/
inductive Enqueue (V : Type) where
  | new (item : V)
  | loadTail (item : V) (node : ℕ)
  | loadNext (item : V) (node : ℕ) (tail : Option ℕ)
  | checkTail (item : V) (node : ℕ) (tail next : Option ℕ)
  | link (item : V) (node : ℕ) (tail : Option ℕ)
  | swing (item : V) (node : ℕ) (tail : Option ℕ)
  | help (item : V) (node : ℕ) (tail next : Option ℕ)
  | done (item : V)

/-- The points of `dequeue` before each access. -/
inductive Dequeue (V : Type) where
  | loadHead (item : V)
  | loadTail (item : V) (head : Option ℕ)
  | loadNext (item : V) (head tail : Option ℕ)
  | checkHead (item : V) (head tail next : Option ℕ)
  | refused (item : V)
  | help (item : V) (tail next : Option ℕ)
  | readItem (item : V) (head next : Option ℕ)
  | swing (item : V) (head next : Option ℕ)
  | loadRetired (item : V) (node : Option ℕ)
  | storeRetiredNext (item : V) (node oldRetired : Option ℕ)
  | casRetired (item : V) (node oldRetired : Option ℕ)
  | done (item : V)

/-- The local state of a thread in a call. -/
inductive Local (V : Type) where
  | enqueue (pc : Enqueue V)
  | dequeue (pc : Dequeue V)

/-- The node at address `p` becomes `v`. -/
def Shared.setNode (s : Shared V) (p : ℕ) (v : Node V) : Shared V :=
  { s with node := Function.update s.node p v }

/-- `ValoisQueue()`: head and tail point to a dummy node. -/
def init [Inhabited V] : Shared V where
  head := some 0
  tail := some 0
  retired := none
  node _ := ⟨default, none, none⟩
  fresh := 1

/-- One access of `enqueue`. A null pointer is never followed: there is no step then. -/
def enqueue (s : Shared V) : Enqueue V → Option (Shared V × Enqueue V × Tag)
  | .new item =>
      some ({ s.setNode s.fresh ⟨item, none, none⟩ with fresh := s.fresh + 1 },
        .loadTail item s.fresh, .alloc s.fresh)
  | .loadTail item node => some (s, .loadNext item node s.tail, .silent)
  | .loadNext item node tail =>
      tail.map fun t => (s, .checkTail item node tail (s.node t).next, .silent)
  | .checkTail item node tail next =>
      if tail ≠ s.tail then some (s, .loadTail item node, .silent)
      else if next = none then some (s, .link item node tail, .silent)
      else some (s, .help item node tail next, .silent)
  | .link item node tail =>
      tail.map fun t =>
        if (s.node t).next = none then
          (s.setNode t { s.node t with next := some node }, .swing item node tail, .link node)
        else (s, .loadTail item node, .silent)
  | .swing item node tail =>
      if s.tail = tail then some ({ s with tail := some node }, .done item, .swingTail)
      else some (s, .done item, .silent)
  | .help item node tail next =>
      if s.tail = tail then some ({ s with tail := next }, .loadTail item node, .swingTail)
      else some (s, .loadTail item node, .silent)
  | .done _ => none

/-- One access of `dequeue`, and of `retire`, whose weak CAS fails spuriously when `weak`. -/
def dequeue (weak : Bool) (s : Shared V) : Dequeue V → Option (Shared V × Dequeue V × Tag)
  | .loadHead item => some (s, .loadTail item s.head, .silent)
  | .loadTail item head => some (s, .loadNext item head s.tail, .silent)
  | .loadNext item head tail =>
      head.map fun h => (s, .checkHead item head tail (s.node h).next, .silent)
  | .checkHead item head tail next =>
      if head ≠ s.head then some (s, .loadHead item, .silent)
      else if next = none then some (s, .refused item, .silent)
      else if head = tail then some (s, .help item tail next, .silent)
      else some (s, .readItem item head next, .silent)
  | .refused _ => none
  | .help item tail next =>
      if s.tail = tail then some ({ s with tail := next }, .loadHead item, .swingTail)
      else some (s, .loadHead item, .silent)
  | .readItem _ head next =>
      next.map fun p => (s, .swing (s.node p).item head next, .silent)
  | .swing item head next =>
      if s.head = head then some ({ s with head := next }, .loadRetired item head, .swingHead)
      else some (s, .loadHead item, .silent)
  | .loadRetired item node => some (s, .storeRetiredNext item node s.retired, .silent)
  | .storeRetiredNext item node oldRetired =>
      node.map fun p =>
        (s.setNode p { s.node p with retiredNext := oldRetired }, .casRetired item node oldRetired,
          .silent)
  | .casRetired item node oldRetired =>
      node.map fun p =>
        if s.retired = oldRetired ∧ weak = false then
          ({ s with retired := node }, .done item, .retire p)
        else (s, .storeRetiredNext item node s.retired, .silent)
  | .done _ => none

/-- `ValoisQueue` as a machine. -/
def machine (ι V : Type) [Inhabited V] :
    Machine ι (Shared V) (Local V) (QueueOp V) (QueueRes V) Tag Bool where
  init := init
  legal _ := True
  valid _ := True
  start
    | .enqueue item => .enqueue (.new item)
    | .dequeue out => .dequeue (.loadHead out)
  result
    | .enqueue (.done _) => some .enqueued
    | .dequeue (.refused item) => some (.dequeued false item)
    | .dequeue (.done item) => some (.dequeued true item)
    | _ => none
  step _ weak s
    | .enqueue pc => (enqueue s pc).map fun (s, pc, t) => (s, .enqueue pc, t)
    | .dequeue pc => (dequeue weak s pc).map fun (s, pc, t) => (s, .dequeue pc, t)

/-- An access is one of `enqueue` or of `dequeue`. -/
theorem step_inv [Inhabited V] {i : ι} {weak : Bool} {s s' : Shared V} {l l' : Local V} {t : Tag}
    (hs : (machine ι V).step i weak s l = some (s', l', t)) :
  (∃ pc pc', l = .enqueue pc ∧ l' = .enqueue pc' ∧ enqueue s pc = some (s', pc', t)) ∨
    ∃ pc pc', l = .dequeue pc ∧ l' = .dequeue pc' ∧ dequeue weak s pc = some (s', pc', t)
  := by
  cases l with
  | enqueue pc =>
      obtain ⟨⟨_, pc', _⟩, hs, heq⟩ := Option.map_eq_some_iff.mp hs
      cases heq
      exact Or.inl ⟨pc, pc', rfl, rfl, hs⟩
  | dequeue pc =>
      obtain ⟨⟨_, pc', _⟩, hs, heq⟩ := Option.map_eq_some_iff.mp hs
      cases heq
      exact Or.inr ⟨pc, pc', rfl, rfl, hs⟩

/-- The points at which a call has a result. -/
theorem result_eq_some [Inhabited V] (ι : Type) {l : Local V} {v : QueueRes V}
    (hv : (machine ι V).result l = some v) :
  (∃ item, l = .enqueue (.done item) ∧ v = .enqueued) ∨
    (∃ item, l = .dequeue (.refused item) ∧ v = .dequeued false item) ∨
    ∃ item, l = .dequeue (.done item) ∧ v = .dequeued true item
  := by
  cases l with
  | enqueue pc =>
      cases pc with
      | done item =>
          cases hv
          exact Or.inl ⟨item, rfl, rfl⟩
      | _ => cases hv
  | dequeue pc =>
      cases pc with
      | refused item =>
          cases hv
          exact Or.inr (Or.inl ⟨item, rfl, rfl⟩)
      | done item =>
          cases hv
          exact Or.inr (Or.inr ⟨item, rfl, rfl⟩)
      | _ => cases hv

/-- Linking a node appends its item, and moving the head removes the front. -/
def effect : Tag → Effect
  | .link _ => .append
  | .swingHead => .remove
  | _ => .none

/-! ### The destructor -/

/-- The nodes that are alive when the destructor starts, which no other thread can see. -/
def Shared.memory (s : Shared V) (p : ℕ) : Option (Node V) :=
  if p < s.fresh then some (s.node p) else none

/-- `delete_chain` and `delete_retired`, which follow one field of the nodes: from `curr` on, the
loop takes the memory `m` to `m'` and deletes the nodes `ds` in this order. It reads the field
of a node that is alive before it deletes the node. -/
inductive DeleteChain (field : Node V → Option ℕ) :
    (ℕ → Option (Node V)) → Option ℕ → List ℕ → (ℕ → Option (Node V)) → Prop where
  | done {m : ℕ → Option (Node V)} : DeleteChain field m none [] m
  | delete {m m' : ℕ → Option (Node V)} {curr : ℕ} {v : Node V} {ds : List ℕ}
      (halive : m curr = some v)
      (hrest : DeleteChain field (Function.update m curr none) (field v) ds m') :
      DeleteChain field m (some curr) (curr :: ds) m'

/-- `~ValoisQueue()` deletes the nodes `ds` and leaves the memory `m`. -/
def Destroys (s : Shared V) (ds : List ℕ) (m : ℕ → Option (Node V)) : Prop :=
  ∃ linked retired m', DeleteChain Node.next s.memory s.head linked m' ∧
    DeleteChain Node.retiredNext m' s.retired retired m ∧ ds = linked ++ retired

/-! ### Where a node is -/

/-- The node of an enqueue that has not linked it yet. -/
def Local.unlinked : Local V → Option ℕ
  | .enqueue (.loadTail _ node) | .enqueue (.loadNext _ node _)
  | .enqueue (.checkTail _ node _ _) | .enqueue (.link _ node _)
  | .enqueue (.help _ node _ _) => some node
  | _ => none

/-- The node that a dequeue has moved the head past and has not finished to retire. -/
def Local.retiring : Local V → Option ℕ
  | .dequeue (.loadRetired _ node) | .dequeue (.storeRetiredNext _ node _)
  | .dequeue (.casRetired _ node _) => node
  | _ => none

end ValoisQueue
