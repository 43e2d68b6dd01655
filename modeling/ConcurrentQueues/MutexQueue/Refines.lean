import ConcurrentQueues.MutexQueue.Model
import ConcurrentQueues.Library.Links

/-!
# MutexQueue refines a FIFO list and reclaims its nodes exactly

The ghost is the chain of nodes from the head on, with the owners of the nodes that are in
the hands of one thread: new nodes, and nodes that have been removed and wait for being
deleted. At every moment the chain is what the head leads to. Only the tail lags behind it
inside a critical section, where it may even point to a node that has left the chain.
-/

namespace MutexQueue

open Machine
open Heap (Pointer)

variable {ι V : Type}

/-- The nodes of the queue from the head on, whether the tail lags behind them, and the owners of
nodes in the hands of one thread. -/
structure Chain (ι : Type) where
  nodes : List Pointer
  lag : Bool
  owner : Pointer → Option ι

namespace Chain

/-- The owner of the node `p` becomes `i`. -/
def give (a : Chain ι) (p : Pointer) (i : Option ι) : Chain ι :=
  { a with owner := Function.update a.owner p i }

/-- The node `p` becomes the last one. -/
def append (a : Chain ι) (p : Pointer) : Chain ι :=
  { a.give p none with nodes := a.nodes ++ [p], lag := true }

/-- The tail catches up. -/
def catchUp (a : Chain ι) : Chain ι := { a with lag := false }

/-- The first node leaves the chain for the hands of thread `i`. If it was the only one, the tail
still points to it. -/
def remove (a : Chain ι) (i : ι) (p : Pointer) : Chain ι :=
  { a.give p (some i) with nodes := a.nodes.tail, lag := a.nodes.tail.isEmpty }

/-- What each step of thread `i` does to the chain. -/
def next (i : ι) (a : Chain ι) : Tag → Chain ι
  | .silent => a
  | .new node => a.give node (some i)
  | .writeFirst node | .storeNext node => a.append node
  | .writeTail | .clearTail => a.catchUp
  | .writeHead none => a
  | .writeHead (some tmp) => a.remove i tmp
  | .delete tmp => a.give tmp none

end Chain

/-- The chain of the queue. -/
def ghost (ι V : Type) : (machine ι V).Ghost (Chain ι) where
  init := ⟨[], false, fun _ => none⟩
  bound _ := True
  next i _ a _ _ _ t := a.next i t

/-- The invariant. Every node of the chain is alive and points to the next one, the head is the
first and, unless it lags, the tail the last of them. A node that is alive is on the chain or
owned by a thread. -/
structure Inv (s : Shared ι V × Chain ι) : Prop where
  nodup : s.2.nodes.Nodup
  node : ∀ k p, s.2.nodes[k]? = some p → ∃ v, s.1.heap.Has p ⟨v, s.2.nodes[k + 1]?⟩
  head : s.1.head = s.2.nodes.head?
  tail : s.2.lag = false → s.1.tail = s.2.nodes.getLast?
  stale : ∀ p, s.1.tail = some p → p ∈ s.2.nodes ∨
    ∃ i v, s.1.mutex = some i ∧ s.2.owner p = some i ∧ s.1.heap.Has p ⟨v, none⟩
  lag : s.1.mutex = none → s.2.lag = false
  owned : ∀ p i, s.2.owner p = some i → p ∉ s.2.nodes ∧ s.1.heap.Alive p
  placed : ∀ p, s.1.heap.Alive p → p ∈ s.2.nodes ∨ ∃ i, s.2.owner p = some i

/-- Thread `i` owns the node `o`, and no other. -/
def Owns (i : ι) (s : Shared ι V × Chain ι) (o : Option Pointer) : Prop :=
  ∀ p, s.2.owner p = some i ↔ o = some p

/-- Thread `i` owns the new node `node` with item `item`. -/
def Holds (i : ι) (s : Shared ι V × Chain ι) (item : V) (node : Pointer) : Prop :=
  Owns i s (some node) ∧ s.1.heap.Has node ⟨item, none⟩

/-- Thread `i` is in its critical section, and the tail does not lag. -/
def Section (i : ι) (s : Shared ι V × Chain ι) : Prop := s.1.mutex = some i ∧ s.2.lag = false

/-- What thread `i` knows at each point of `enqueue`. -/
def Enqueue.Knows (i : ι) (s : Shared ι V × Chain ι) : Enqueue V → Prop
  | .new _ | .done _ => Owns i s none
  | .lock item node => Holds i s item node
  | .testHead item node => Holds i s item node ∧ Section i s
  | .writeHead item node => Holds i s item node ∧ Section i s ∧ s.2.nodes = []
  | .readTail item node => Holds i s item node ∧ Section i s ∧ s.2.nodes ≠ []
  | .storeNext item node tail =>
      Holds i s item node ∧ Section i s ∧ s.2.nodes ≠ [] ∧ s.1.tail = tail
  | .writeTail _ node => Owns i s none ∧ s.1.mutex = some i ∧ s.2.nodes.getLast? = some node
  | .unlock _ => Owns i s none ∧ Section i s

/-- What thread `i` knows at each point of `dequeue`. -/
def Dequeue.Knows (i : ι) (s : Shared ι V × Chain ι) : Dequeue V → Prop
  | .lock _ | .refused _ | .done _ => Owns i s none
  | .testHead _ | .unlockEmpty _ => Owns i s none ∧ Section i s
  | .readHead _ => Owns i s none ∧ Section i s ∧ s.2.nodes ≠ []
  | .rereadHead _ tmp => Owns i s none ∧ Section i s ∧ s.2.nodes ≠ [] ∧ s.2.nodes.head? = tmp
  | .readNext _ tmp head =>
      Owns i s none ∧ Section i s ∧ s.2.nodes ≠ [] ∧ s.2.nodes.head? = tmp ∧
        s.2.nodes.head? = head
  | .writeHead _ tmp next =>
      Owns i s none ∧ Section i s ∧ s.2.nodes ≠ [] ∧ s.2.nodes.head? = tmp ∧
        s.2.nodes[1]? = next
  | .testEmpty _ tmp =>
      tmp ≠ none ∧ Owns i s tmp ∧ s.1.mutex = some i ∧ s.2.lag = s.2.nodes.isEmpty
  | .clearTail _ tmp => tmp ≠ none ∧ Owns i s tmp ∧ s.1.mutex = some i ∧ s.2.nodes = []
  | .unlock _ tmp => tmp ≠ none ∧ Owns i s tmp ∧ Section i s
  | .readItem _ tmp | .delete _ tmp => tmp ≠ none ∧ Owns i s tmp ∧ s.1.mutex ≠ some i

/-- What thread `i` knows about its own position. -/
def Knows (i : ι) (s : Shared ι V × Chain ι) : Option (Local V) → Prop
  | none => Owns i s none
  | some (.enqueue pc) => pc.Knows i s
  | some (.dequeue pc) => pc.Knows i s

section value

variable [Inhabited V]

/-- The item of the node `p`. -/
def Shared.value (s : Shared ι V) (p : Pointer) : V :=
  ((s.heap.read p).map Node.item).getD default

/-- The items in the queue. -/
def items (s : Shared ι V × Chain ι) : List V := s.2.nodes.map s.1.value

theorem value_eq {s : Shared ι V} {p : Pointer} {v : Node V} (h : s.heap.Has p v) :
  s.value p = v.item
  := by
  rw [Shared.value, h.read]
  rfl

/-- The phase of a call. From the moment it moves the head, a dequeue has removed the item of the
node in `tmp`, which it reads later. A dequeue that unlocks has seen an empty list. -/
def phase (s : Shared ι V × Chain ι) : Local V → Phase V
  | .enqueue (.new item) | .enqueue (.lock item _) | .enqueue (.testHead item _)
  | .enqueue (.writeHead item _) | .enqueue (.readTail item _)
  | .enqueue (.storeNext item _ _) => .appending item
  | .enqueue (.writeTail item _) | .enqueue (.unlock item) | .enqueue (.done item) =>
      .appended item
  | .dequeue (.unlockEmpty _) | .dequeue (.refused _) => .removing true
  | .dequeue (.testEmpty _ tmp) | .dequeue (.clearTail _ tmp) | .dequeue (.unlock _ tmp)
  | .dequeue (.readItem _ tmp) => .removed ((tmp.map s.1.value).getD default)
  | .dequeue (.delete item _) | .dequeue (.done item) => .removed item
  | .dequeue _ => .removing false

end value

/-! ### The steps of the chain -/

/-- The steps of thread `i` on the chain and the memory. -/
inductive ChainStep (i : ι) : Shared ι V × Chain ι → Shared ι V × Chain ι → Prop where
  | stay (x : Shared ι V × Chain ι) : ChainStep i x x
  | new {s : Shared ι V} {a : Chain ι} {x : ℕ} {v : Node V} {heap : Heap (Node V)}
      {node : Pointer} (hnew : s.heap.new x v = some (heap, node)) :
      ChainStep i (s, a) ({ s with heap := heap }, a.give node (some i))
  | lock {s : Shared ι V} {a : Chain ι} (hfree : s.mutex = none) :
      ChainStep i (s, a) ({ s with mutex := some i }, a)
  | unlock {s : Shared ι V} {a : Chain ι} (hsection : Section i (s, a)) :
      ChainStep i (s, a) ({ s with mutex := none }, a)
  | writeFirst {s : Shared ι V} {a : Chain ι} {item : V} {node : Pointer}
      (hnode : Holds i (s, a) item node) (hsection : Section i (s, a)) (hnil : a.nodes = []) :
      ChainStep i (s, a) ({ s with head := some node }, a.append node)
  | storeNext {s : Shared ι V} {a : Chain ι} {item : V} {node tail : Pointer} {v : Node V}
      (hnode : Holds i (s, a) item node) (hsection : Section i (s, a))
      (htail : a.nodes.getLast? = some tail) (hv : s.heap.Has tail v) :
      ChainStep i (s, a)
        ({ s with heap := s.heap.write tail { v with next := some node } }, a.append node)
  | writeTail {s : Shared ι V} {a : Chain ι} {tail : Option Pointer} (hlock : s.mutex = some i)
      (hlast : a.nodes.getLast? = tail) : ChainStep i (s, a) ({ s with tail := tail }, a.catchUp)
  | writeHead {s : Shared ι V} {a : Chain ι} {tmp : Pointer} (hsection : Section i (s, a))
      (hhead : a.nodes.head? = some tmp) :
      ChainStep i (s, a) ({ s with head := a.nodes[1]? }, a.remove i tmp)
  | delete {s : Shared ι V} {a : Chain ι} {p : Pointer} (hp : a.owner p = some i)
      (hlock : s.mutex ≠ some i) :
      ChainStep i (s, a) ({ s with heap := s.heap.delete p }, a.give p none)

variable {i j : ι} {s : Shared ι V} {a : Chain ι} {p q node : Pointer}

theorem give_of_ne (h : q ≠ p) (o : Option ι) :
  (a.give p o).owner q = a.owner q
  := Function.update_of_ne h ..

theorem give_self (o : Option ι) :
  (a.give p o).owner p = o
  := Function.update_self ..

/-- A node owned after `p` is given away was owned before and is another one. -/
theorem owner_of_give_none (h : (a.give p none).owner q = some j) :
  q ≠ p ∧ a.owner q = some j
  := by
  by_cases hq : q = p
  · subst hq
    cases (give_self none).symm.trans h
  · rw [give_of_ne hq] at h
    exact ⟨hq, h⟩

theorem Inv.alive {x : Shared ι V × Chain ι} (h : Inv x) (hp : p ∈ x.2.nodes) :
  x.1.heap.Alive p
  := by
  obtain ⟨k, hk⟩ := List.getElem?_of_mem hp
  obtain ⟨v, hv⟩ := h.node k p hk
  exact hv.alive

/-- The last node of the chain has no successor. -/
theorem Inv.last (h : Inv (s, a)) (hp : a.nodes.getLast? = some p) :
  ∃ v, s.heap.Has p ⟨v, none⟩
  := by
  rw [List.getLast?_eq_getElem?] at hp
  obtain ⟨v, hv⟩ := h.node _ p hp
  have hlen : a.nodes.length ≤ a.nodes.length - 1 + 1 := by omega
  rw [List.getElem?_eq_none hlen] at hv
  exact ⟨v, hv⟩

theorem Inv.new (h : Inv (s, a)) {x : ℕ} {v : Node V} {heap : Heap (Node V)}
    (hn : s.heap.new x v = some (heap, node)) :
  Inv ({ s with heap := heap }, a.give node (some i))
  := by
  constructor
  case nodup => exact h.nodup
  case node =>
    intro k p hk
    obtain ⟨v, hv⟩ := h.node k p hk
    exact ⟨v, hv.new hn⟩
  case head => exact h.head
  case tail => exact h.tail
  case stale =>
    intro p hp
    rcases h.stale p hp with hmem | ⟨j, w, hlock, howner, hw⟩
    · exact Or.inl hmem
    · exact Or.inr ⟨j, w, hlock, (give_of_ne (Heap.ne_of_new hn hw.alive) _).trans howner,
        hw.new hn⟩
  case lag => exact h.lag
  case owned =>
    intro p j hp
    by_cases hpn : p = node
    · subst hpn
      exact ⟨fun hmem => Heap.ne_of_new hn (h.alive hmem) rfl, (Heap.new_has hn).alive⟩
    · rw [give_of_ne hpn] at hp
      obtain ⟨hmem, halive⟩ := h.owned p j hp
      exact ⟨hmem, (Heap.alive_new_iff hn).mpr (Or.inl halive)⟩
  case placed =>
    intro p hp
    rcases (Heap.alive_new_iff hn).mp hp with halive | rfl
    · rcases h.placed p halive with hmem | ⟨j, hj⟩
      · exact Or.inl hmem
      · exact Or.inr ⟨j, (give_of_ne (Heap.ne_of_new hn halive) _).trans hj⟩
    · exact Or.inr ⟨i, give_self _⟩

/-- Appending a new node, whose predecessor, if there is one, gets to point to it. -/
theorem Inv.append {s' : Shared ι V} (h : Inv (s, a)) {item : V} (hn : Holds i (s, a) item node)
    (hsection : Section i (s, a)) (hhead : s'.head = (a.nodes ++ [node]).head?)
    (htail : s'.tail = s.tail) (hlock : s'.mutex = s.mutex)
    (hlast : ∀ p v, a.nodes.getLast? = some p → s.heap.Has p v →
      s'.heap.Has p ⟨v.item, some node⟩)
    (hkeep : ∀ p v, a.nodes.getLast? ≠ some p → s.heap.Has p v → s'.heap.Has p v)
    (halive : ∀ p, s'.heap.Alive p ↔ s.heap.Alive p) :
  Inv (s', a.append node)
  := by
  have hself : a.owner node = some i := (hn.1 node).mpr rfl
  have hmem := (h.owned node i hself).1
  constructor
  case nodup =>
    apply List.Nodup.append h.nodup (List.nodup_singleton node)
    intro x hx hx'
    rw [List.mem_singleton] at hx'
    exact hmem (hx' ▸ hx)
  case node =>
    intro k p hk
    simp only [Chain.append] at hk ⊢
    rcases lt_trichotomy k a.nodes.length with hlt | rfl | hlt
    · rw [List.getElem?_append_left hlt] at hk
      obtain ⟨v, hv⟩ := h.node k p hk
      by_cases hk1 : k + 1 < a.nodes.length
      · use v
        rw [List.getElem?_append_left hk1]
        apply hkeep p _ _ hv
        rw [List.getLast?_eq_getElem?]
        intro heq
        have hkl := (List.getElem?_inj hlt h.nodup).mp (hk.trans heq.symm)
        omega
      · have hlen : k + 1 = a.nodes.length := by omega
        use v
        rw [hlen, List.getElem?_concat_length]
        apply hlast p _ _ hv
        rw [List.getLast?_eq_getElem?, ← hlen, Nat.add_sub_cancel, hk]
    · rw [List.getElem?_concat_length] at hk
      obtain rfl := Option.some.inj hk
      use item
      have hnone : (a.nodes ++ [node])[a.nodes.length + 1]? = none := by
        apply List.getElem?_eq_none
        rw [List.length_append, List.length_singleton]
      rw [hnone]
      apply hkeep node _ _ hn.2
      exact fun heq => hmem (List.mem_of_getLast? heq)
    · have hnone : (a.nodes ++ [node])[k]? = none := by
        apply List.getElem?_eq_none
        rw [List.length_append, List.length_singleton]
        exact hlt
      cases hnone.symm.trans hk
  case head => exact hhead
  case tail =>
    intro hlag
    cases hlag
  case stale =>
    intro p hp
    apply Or.inl
    apply List.mem_append_left
    apply List.mem_of_getLast?
    rw [← h.tail hsection.2, ← htail, hp]
  case lag =>
    intro hnone
    cases (hlock.trans hsection.1).symm.trans hnone
  case owned =>
    intro p j hp
    obtain ⟨hne, hp⟩ := owner_of_give_none hp
    obtain ⟨hpmem, hpalive⟩ := h.owned p j hp
    refine ⟨?_, (halive p).mpr hpalive⟩
    simp only [Chain.append, List.mem_append, List.mem_singleton]
    rintro (hp | hp)
    · exact hpmem hp
    · exact hne hp
  case placed =>
    intro p hp
    by_cases hpn : p = node
    · subst hpn
      exact Or.inl (List.mem_append_right _ (List.mem_singleton_self p))
    · rcases h.placed p ((halive p).mp hp) with hpmem | ⟨j, hj⟩
      · exact Or.inl (List.mem_append_left _ hpmem)
      · exact Or.inr ⟨j, (give_of_ne hpn none).trans hj⟩

/-- A chain with a first node. -/
theorem nodes_eq (h : a.nodes.head? = some p) :
  a.nodes = p :: a.nodes.tail
  := by
  cases hn : a.nodes with
  | nil =>
      rw [hn] at h
      cases h
  | cons q rest =>
      rw [hn] at h
      cases h
      rfl

theorem Inv.writeHead (h : Inv (s, a)) (hsection : Section i (s, a))
    (hp : a.nodes.head? = some p) :
  Inv ({ s with head := a.nodes[1]? }, a.remove i p)
  := by
  have hnodes := nodes_eq hp
  generalize hrest : a.nodes.tail = rest at hnodes
  have hremove : (a.remove i p).nodes = rest := hrest
  have hlag : (a.remove i p).lag = rest.isEmpty := by rw [Chain.remove, hrest]
  have hnodup := h.nodup
  simp only [hnodes] at hnodup
  obtain ⟨hmem, hnodup⟩ := List.nodup_cons.mp hnodup
  have htail := h.tail hsection.2
  simp only [hnodes] at htail
  obtain ⟨v, hv⟩ := h.node 0 p (by simp only [hnodes, List.getElem?_cons_zero])
  simp only [hnodes, List.getElem?_cons_succ] at hv
  constructor
  case nodup => rwa [hremove]
  case node =>
    intro k q hk
    simp only [hremove] at hk ⊢
    have hnext := h.node (k + 1) q
    simp only [hnodes, List.getElem?_cons_succ] at hnext
    exact hnext hk
  case head =>
    simp only [hnodes, hremove, List.getElem?_cons_succ, List.head?_eq_getElem?]
  case tail =>
    intro hlag'
    simp only [hlag] at hlag'
    cases rest with
    | nil => cases hlag'
    | cons q rest =>
        simp only [hremove, htail]
        exact List.getLast?_cons_cons
  case stale =>
    intro q hq
    simp only [htail] at hq
    simp only [hremove]
    cases rest with
    | nil =>
        cases hq
        exact Or.inr ⟨i, v, hsection.1, give_self _, hv⟩
    | cons r rest =>
        rw [List.getLast?_cons_cons] at hq
        exact Or.inl (List.mem_of_getLast? hq)
  case lag =>
    intro hnone
    cases hsection.1.symm.trans hnone
  case owned =>
    intro q j hq
    simp only [hremove]
    by_cases hqp : q = p
    · subst hqp
      exact ⟨hmem, hv.alive⟩
    · have hq' : a.owner q = some j := (give_of_ne hqp (some i)).symm.trans hq
      obtain ⟨hqmem, halive⟩ := h.owned q j hq'
      refine ⟨fun hin => hqmem ?_, halive⟩
      simp only [hnodes]
      exact List.mem_cons_of_mem p hin
  case placed =>
    intro q hq
    simp only [hremove]
    by_cases hqp : q = p
    · subst hqp
      exact Or.inr ⟨i, give_self _⟩
    · rcases h.placed q hq with hqmem | ⟨j, hj⟩
      · simp only [hnodes] at hqmem
        exact Or.inl ((List.mem_cons.mp hqmem).resolve_left hqp)
      · exact Or.inr ⟨j, (give_of_ne hqp (some i)).trans hj⟩

theorem Inv.delete (h : Inv (s, a)) (hp : a.owner p = some i) (hlock : s.mutex ≠ some i) :
  Inv ({ s with heap := s.heap.delete p }, a.give p none)
  := by
  obtain ⟨hmem, halive⟩ := h.owned p i hp
  constructor
  case nodup => exact h.nodup
  case node =>
    intro k q hk
    obtain ⟨v, hv⟩ := h.node k q hk
    have hne : q ≠ p := fun heq => hmem (heq ▸ List.mem_of_getElem? hk)
    exact ⟨v, (Heap.has_delete_iff halive hne).mpr hv⟩
  case head => exact h.head
  case tail => exact h.tail
  case stale =>
    intro q hq
    rcases h.stale q hq with hqmem | ⟨j, v, hj, howner, hv⟩
    · exact Or.inl hqmem
    · have hne : q ≠ p := by
        rintro rfl
        rw [hp] at howner
        rw [← howner] at hj
        exact hlock hj
      exact Or.inr ⟨j, v, hj, (give_of_ne hne none).trans howner,
        (Heap.has_delete_iff halive hne).mpr hv⟩
  case lag => exact h.lag
  case owned =>
    intro q j hq
    obtain ⟨hne, hq⟩ := owner_of_give_none hq
    obtain ⟨hqmem, hqalive⟩ := h.owned q j hq
    exact ⟨hqmem, (Heap.alive_delete_iff halive).mpr ⟨hqalive, hne⟩⟩
  case placed =>
    intro q hq
    obtain ⟨hqalive, hne⟩ := (Heap.alive_delete_iff halive).mp hq
    rcases h.placed q hqalive with hqmem | ⟨j, hj⟩
    · exact Or.inl hqmem
    · exact Or.inr ⟨j, (give_of_ne hne none).trans hj⟩

theorem ChainStep.inv {x x' : Shared ι V × Chain ι} (h : ChainStep i x x') (hx : Inv x) :
  Inv x'
  := by
  cases h with
  | stay => exact hx
  | new hnew => exact hx.new hnew
  | @lock s a hfree =>
      refine ⟨hx.nodup, hx.node, hx.head, hx.tail, fun p hp => ?_, by rintro ⟨⟩, hx.owned,
        hx.placed⟩
      rcases hx.stale p hp with hmem | ⟨j, v, hj, -⟩
      · exact Or.inl hmem
      · cases hfree.symm.trans hj
  | @unlock s a hsection =>
      refine ⟨hx.nodup, hx.node, hx.head, hx.tail, fun p hp => ?_, fun _ => hsection.2,
        hx.owned, hx.placed⟩
      apply Or.inl
      apply List.mem_of_getLast?
      rw [← hx.tail hsection.2]
      exact hp
  | @writeFirst s a item node hnode hsection hnil =>
      have hnone : a.nodes.getLast? = none := by rw [hnil]; rfl
      apply hx.append hnode hsection
      · rw [hnil]
        rfl
      · rfl
      · rfl
      · intro p v hp
        cases hnone.symm.trans hp
      · exact fun _ _ _ => id
      · exact fun _ => Iff.rfl
  | @storeNext s a item node tail v hnode hsection htail hv =>
      apply hx.append hnode hsection
      · have hhead := hx.head
        cases hnodes : a.nodes with
        | nil =>
            rw [hnodes] at htail
            cases htail
        | cons p rest =>
            simp only [hnodes] at hhead
            exact hhead
      · rfl
      · rfl
      · intro p w hp hw
        obtain rfl := Option.some.inj (htail.symm.trans hp)
        obtain rfl := hv.unique hw
        exact Heap.write_has hv.alive
      · intro p w hp hw
        have hne : p ≠ tail := fun heq => hp (heq ▸ htail)
        exact (Heap.has_write_iff hv.alive hne).mpr hw
      · exact fun _ => Heap.alive_write_iff hv.alive
  | @writeTail s a tail hlock hlast =>
      refine ⟨hx.nodup, hx.node, hx.head, fun _ => hlast.symm, fun p hp => ?_, fun _ => rfl,
        hx.owned, hx.placed⟩
      exact Or.inl (List.mem_of_getLast? (hlast.trans hp))
  | writeHead hsection hhead => exact hx.writeHead hsection hhead
  | delete hp hlock => exact hx.delete hp hlock

/-! ### What the other threads see -/

/-- What thread `j` sees of the steps of others. Who holds the mutex finds the queue unchanged, and
nodes stay in the hands of their owner. -/
structure Sees (j : ι) (x x' : Shared ι V × Chain ι) : Prop where
  mutex : x'.1.mutex = some j ↔ x.1.mutex = some j
  held : x.1.mutex = some j → x'.1.head = x.1.head ∧ x'.1.tail = x.1.tail ∧
    x'.2.nodes = x.2.nodes ∧ x'.2.lag = x.2.lag
  owner : ∀ p, x'.2.owner p = some j ↔ x.2.owner p = some j
  has : ∀ p v, x.2.owner p = some j → x.1.heap.Has p v → x'.1.heap.Has p v

/-- A node that thread `i` gives away or takes was not in the hands of `j`, and is not now. -/
theorem owner_give (hij : j ≠ i) {o : Option ι} (hp : a.owner p ≠ some j)
    (ho : o = none ∨ o = some i) :
  (a.give p o).owner q = some j ↔ a.owner q = some j
  := by
  by_cases hq : q = p
  · subst hq
    rw [give_self]
    rcases ho with rfl | rfl
    · exact ⟨by rintro ⟨⟩, fun h => absurd h hp⟩
    · exact ⟨fun h => absurd (Option.some.inj h).symm hij, fun h => absurd h hp⟩
  · rw [give_of_ne hq]

theorem ChainStep.sees {x x' : Shared ι V × Chain ι} (h : ChainStep i x x') (hx : Inv x)
    (hij : j ≠ i) :
  Sees j x x'
  := by
  have hother : ∀ {o : Option ι}, o = some i → o ≠ some j :=
    fun hi hj => hij (Option.some.inj (hj.symm.trans hi))
  have hfree : ∀ {o : Option ι}, o = none → o ≠ some j :=
    fun hn hj => Option.some_ne_none j (hj.symm.trans hn)
  cases h with
  | stay => exact ⟨Iff.rfl, fun _ => ⟨rfl, rfl, rfl, rfl⟩, fun _ => Iff.rfl, fun _ _ _ => id⟩
  | @new s a x v heap node hnew =>
      refine ⟨Iff.rfl, fun _ => ⟨rfl, rfl, rfl, rfl⟩, fun p => ?_, fun p v _ hv => hv.new hnew⟩
      apply owner_give hij _ (Or.inr rfl)
      exact fun howner => Heap.ne_of_new hnew (hx.owned node j howner).2 rfl
  | @lock s a hnone =>
      refine ⟨?_, fun hj => absurd hj (hfree hnone), fun _ => Iff.rfl, fun _ _ _ => id⟩
      exact iff_of_false (hother rfl) (hfree hnone)
  | @unlock s a hsection =>
      refine ⟨?_, fun hj => absurd hj (hother hsection.1), fun _ => Iff.rfl, fun _ _ _ => id⟩
      exact iff_of_false (hfree rfl) (hother hsection.1)
  | @writeFirst s a item node hnode hsection hnil =>
      refine ⟨Iff.rfl, fun hj => absurd hj (hother hsection.1), fun p => ?_, fun _ _ _ => id⟩
      exact owner_give hij (hother ((hnode.1 node).mpr rfl)) (Or.inl rfl)
  | @storeNext s a item node tail v hnode hsection htail hv =>
      refine ⟨Iff.rfl, fun hj => absurd hj (hother hsection.1), fun p => ?_, fun p w hp hw => ?_⟩
      · exact owner_give hij (hother ((hnode.1 node).mpr rfl)) (Or.inl rfl)
      · have hne : p ≠ tail := by
          rintro rfl
          exact (hx.owned p j hp).1 (List.mem_of_getLast? htail)
        exact (Heap.has_write_iff hv.alive hne).mpr hw
  | writeTail hlock =>
      exact ⟨Iff.rfl, fun hj => absurd hj (hother hlock), fun _ => Iff.rfl, fun _ _ _ => id⟩
  | @writeHead s a tmp hsection hhead =>
      refine ⟨Iff.rfl, fun hj => absurd hj (hother hsection.1), fun p => ?_, fun _ _ _ => id⟩
      apply owner_give hij _ (Or.inr rfl)
      exact fun howner => (hx.owned tmp j howner).1 (List.mem_of_mem_head? hhead)
  | @delete s a p hp hlock =>
      refine ⟨Iff.rfl, fun _ => ⟨rfl, rfl, rfl, rfl⟩, fun q => ?_, fun q v hq hv => ?_⟩
      · exact owner_give hij (hother hp) (Or.inl rfl)
      · have hne : q ≠ p := fun heq => hother hp (heq ▸ hq)
        exact (Heap.has_delete_iff (hx.owned p i hp).2 hne).mpr hv

section keep

variable {x x' : Shared ι V × Chain ι} {o : Option Pointer}

theorem Owns.keep (h : Owns j x o) (hs : Sees j x x') :
  Owns j x' o
  := fun p => (hs.owner p).trans (h p)

theorem Holds.keep {item : V} (h : Holds j x item node) (hs : Sees j x x') :
  Holds j x' item node
  := ⟨h.1.keep hs, hs.has node _ ((h.1 node).mpr rfl) h.2⟩

theorem Section.keep (h : Section j x) (hs : Sees j x x') :
  Section j x'
  := ⟨hs.mutex.mpr h.1, (hs.held h.1).2.2.2.trans h.2⟩

theorem Enqueue.Knows.keep {pc : Enqueue V} (h : pc.Knows j x) (hs : Sees j x x') :
  pc.Knows j x'
  := by
  cases pc with
  | new item => exact Owns.keep h hs
  | lock item node => exact Holds.keep h hs
  | testHead item node => exact ⟨h.1.keep hs, h.2.keep hs⟩
  | writeHead item node =>
      obtain ⟨hnode, hsection, hnil⟩ := h
      obtain ⟨-, -, hnodes, -⟩ := hs.held hsection.1
      exact ⟨hnode.keep hs, hsection.keep hs, hnodes.trans hnil⟩
  | readTail item node =>
      obtain ⟨hnode, hsection, hne⟩ := h
      obtain ⟨-, -, hnodes, -⟩ := hs.held hsection.1
      exact ⟨hnode.keep hs, hsection.keep hs, hnodes ▸ hne⟩
  | storeNext item node tail =>
      obtain ⟨hnode, hsection, hne, htail⟩ := h
      obtain ⟨-, htail', hnodes, -⟩ := hs.held hsection.1
      exact ⟨hnode.keep hs, hsection.keep hs, hnodes ▸ hne, htail'.trans htail⟩
  | writeTail item node =>
      obtain ⟨hown, hlock, hlast⟩ := h
      obtain ⟨-, -, hnodes, -⟩ := hs.held hlock
      exact ⟨hown.keep hs, hs.mutex.mpr hlock, hnodes ▸ hlast⟩
  | unlock item => exact ⟨h.1.keep hs, h.2.keep hs⟩
  | done item => exact Owns.keep h hs

theorem Dequeue.Knows.keep {pc : Dequeue V} (h : pc.Knows j x) (hs : Sees j x x') :
  pc.Knows j x'
  := by
  cases pc with
  | lock item => exact Owns.keep h hs
  | testHead item => exact ⟨h.1.keep hs, h.2.keep hs⟩
  | unlockEmpty item => exact ⟨h.1.keep hs, h.2.keep hs⟩
  | refused item => exact Owns.keep h hs
  | readHead item =>
      obtain ⟨hown, hsection, hne⟩ := h
      obtain ⟨-, -, hnodes, -⟩ := hs.held hsection.1
      exact ⟨hown.keep hs, hsection.keep hs, hnodes ▸ hne⟩
  | rereadHead item tmp =>
      obtain ⟨hown, hsection, hne, htmp⟩ := h
      obtain ⟨-, -, hnodes, -⟩ := hs.held hsection.1
      exact ⟨hown.keep hs, hsection.keep hs, hnodes ▸ hne, hnodes ▸ htmp⟩
  | readNext item tmp head =>
      obtain ⟨hown, hsection, hne, htmp, hhead⟩ := h
      obtain ⟨-, -, hnodes, -⟩ := hs.held hsection.1
      exact ⟨hown.keep hs, hsection.keep hs, hnodes ▸ hne, hnodes ▸ htmp, hnodes ▸ hhead⟩
  | writeHead item tmp next =>
      obtain ⟨hown, hsection, hne, htmp, hnext⟩ := h
      obtain ⟨-, -, hnodes, -⟩ := hs.held hsection.1
      exact ⟨hown.keep hs, hsection.keep hs, hnodes ▸ hne, hnodes ▸ htmp, hnodes ▸ hnext⟩
  | testEmpty item tmp =>
      obtain ⟨hsome, hown, hlock, hlag⟩ := h
      obtain ⟨-, -, hnodes, hlag'⟩ := hs.held hlock
      refine ⟨hsome, hown.keep hs, hs.mutex.mpr hlock, ?_⟩
      rw [hlag', hnodes, hlag]
  | clearTail item tmp =>
      obtain ⟨hsome, hown, hlock, hnil⟩ := h
      obtain ⟨-, -, hnodes, -⟩ := hs.held hlock
      exact ⟨hsome, hown.keep hs, hs.mutex.mpr hlock, hnodes.trans hnil⟩
  | unlock item tmp => exact ⟨h.1, h.2.1.keep hs, h.2.2.keep hs⟩
  | readItem item tmp => exact ⟨h.1, h.2.1.keep hs, fun hj => h.2.2 (hs.mutex.mp hj)⟩
  | delete item tmp => exact ⟨h.1, h.2.1.keep hs, fun hj => h.2.2 (hs.mutex.mp hj)⟩
  | done item => exact Owns.keep h hs

theorem Knows.keep {l : Option (Local V)} (h : Knows j x l) (hs : Sees j x x') :
  Knows j x' l
  := by
  cases l with
  | none => exact Owns.keep h hs
  | some l =>
      cases l with
      | enqueue pc => exact Enqueue.Knows.keep h hs
      | dequeue pc => exact Dequeue.Knows.keep h hs

end keep

/-! ### The steps of the two operations -/

theorem Owns.give_some (h : Owns i (s, a) none) (s' : Shared ι V) :
  Owns i (s', a.give p (some i)) (some p)
  := by
  intro q
  by_cases hq : q = p
  · subst hq
    exact iff_of_true (give_self _) rfl
  · simp only [give_of_ne hq, h q, reduceCtorEq, false_iff, Option.some.injEq]
    exact Ne.symm hq

theorem Owns.give_none (h : Owns i (s, a) (some p)) (s' : Shared ι V) :
  Owns i (s', a.give p none) none
  := by
  intro q
  by_cases hq : q = p
  · subst hq
    exact iff_of_false (by rw [give_self]; rintro ⟨⟩) (by rintro ⟨⟩)
  · simp only [give_of_ne hq, h q, reduceCtorEq, iff_false, Option.some.injEq]
    exact Ne.symm hq

section spec

variable [Inhabited V] {s' : Shared ι V} {t : Tag}

/-- When chain and items stay, so does the list. -/
theorem items_same {a' : Chain ι} (ha : a'.nodes = a.nodes)
    (h : ∀ p ∈ a.nodes, s'.value p = s.value p) :
  items (s', a') = items (s, a)
  := by
  simp only [items, ha]
  exact List.map_congr_left h

theorem items_append {item : V} (h : ∀ p ∈ a.nodes, s'.value p = s.value p)
    (hnode : s'.value node = item) :
  items (s', a.append node) = items (s, a) ++ [item]
  := by
  simp only [items, Chain.append, List.map_append, List.map_cons, List.map_nil, hnode]
  rw [List.map_congr_left h]

/-- The items of the other blocks stay when a block is made or deleted, and a block gets to point to
another one with its item as before. -/
theorem value_of_has {v : Node V} (h : s.heap.Has p v) (h' : s'.heap.Has p v) :
  s'.value p = s.value p
  := by
  rw [value_eq h, value_eq h']

/-- Each access of `enqueue` keeps the invariant and what the thread knows; the one that links the
node appends the item. -/
theorem enqueue_spec {x : ℕ} {pc pc' : Enqueue V} (h : Inv (s, a)) (hpc : pc.Knows i (s, a))
    (hs : enqueue i x s pc = some (s', pc', t)) :
  ChainStep i (s, a) (s', a.next i t) ∧ pc'.Knows i (s', a.next i t) ∧
    Phase.Step (effect t) (items (s, a)) (phase (s, a) (.enqueue pc)) (items (s', a.next i t))
      (phase (s', a.next i t) (.enqueue pc'))
  := by
  cases pc with
  | new item =>
      obtain ⟨⟨heap, node⟩, hnew, heq⟩ := Option.map_eq_some_iff.mp hs
      cases heq
      refine ⟨.new hnew, ⟨Owns.give_some hpc _, Heap.new_has hnew⟩, .keep (items_same rfl ?_) _⟩
      intro p hp
      obtain ⟨v, hv⟩ := h.alive hp
      exact value_of_has hv (hv.new hnew)
  | lock item node =>
      simp only [enqueue, Option.ite_none_right_eq_some, Option.isNone_iff_eq_none] at hs
      obtain ⟨hfree, heq⟩ := hs
      cases heq
      exact ⟨.lock hfree, ⟨hpc, rfl, h.lag hfree⟩, .same _ _⟩
  | testHead item node =>
      obtain ⟨hnode, hsection⟩ := hpc
      have hhead : s.head = a.nodes.head? := h.head
      simp only [enqueue, hhead, Option.isNone_iff_eq_none, List.head?_eq_none_iff] at hs
      split at hs
      case isTrue hnil =>
        cases hs
        exact ⟨.stay _, ⟨hnode, hsection, hnil⟩, .same _ _⟩
      case isFalse hne =>
        cases hs
        exact ⟨.stay _, ⟨hnode, hsection, hne⟩, .same _ _⟩
  | writeHead item node =>
      obtain ⟨hnode, hsection, hnil⟩ := hpc
      cases hs
      have hlast : (a.append node).nodes.getLast? = some node := List.getLast?_concat
      refine ⟨.writeFirst hnode hsection hnil, ⟨hnode.1.give_none s, hsection.1, hlast⟩, ?_⟩
      exact .appendTo (items_append (fun _ _ => rfl) (value_eq hnode.2))
  | readTail item node =>
      obtain ⟨hnode, hsection, hne⟩ := hpc
      cases hs
      exact ⟨.stay _, ⟨hnode, hsection, hne, rfl⟩, .same _ _⟩
  | storeNext item node tail =>
      obtain ⟨hnode, hsection, hne, htail⟩ := hpc
      obtain ⟨p, rfl, hs⟩ := Option.bind_eq_some_iff.mp hs
      obtain ⟨v, hv, hs⟩ := Option.bind_eq_some_iff.mp hs
      cases hs
      have hp : a.nodes.getLast? = some p := (h.tail hsection.2).symm.trans htail
      obtain ⟨w, hw⟩ := h.last hp
      obtain rfl := Option.some.inj (hw.read.symm.trans hv)
      have hlast : (a.append node).nodes.getLast? = some node := List.getLast?_concat
      refine ⟨.storeNext hnode hsection hp hw, ⟨hnode.1.give_none s, hsection.1, hlast⟩, ?_⟩
      have hne : node ≠ p := by
        rintro rfl
        exact (h.owned node i ((hnode.1 node).mpr rfl)).1 (List.mem_of_getLast? hp)
      apply Phase.Step.appendTo
      apply items_append
      · intro q hq
        by_cases hqp : q = p
        · subst hqp
          rw [value_eq hw, value_eq (Heap.write_has hw.alive)]
        · obtain ⟨u, hu⟩ := h.alive hq
          exact value_of_has hu ((Heap.has_write_iff hw.alive hqp).mpr hu)
      · have hnode' : (s.heap.write p ⟨w, some node⟩).Has node ⟨item, none⟩ :=
          (Heap.has_write_iff hw.alive hne).mpr hnode.2
        rw [Shared.value, hnode'.read]
        rfl
  | writeTail item node =>
      obtain ⟨hown, hlock, hlast⟩ := hpc
      cases hs
      exact ⟨.writeTail hlock hlast, ⟨hown, hlock, rfl⟩, .same _ _⟩
  | unlock item =>
      obtain ⟨hown, hsection⟩ := hpc
      cases hs
      exact ⟨.unlock hsection, hown, .same _ _⟩
  | done item => cases hs

/-- Each access of `dequeue` keeps the invariant and what the thread knows; the one that moves the
head removes the front, and one that finds the head null sees the list empty. -/
theorem dequeue_spec {pc pc' : Dequeue V} (h : Inv (s, a)) (hpc : pc.Knows i (s, a))
    (hs : dequeue i s pc = some (s', pc', t)) :
  ChainStep i (s, a) (s', a.next i t) ∧ pc'.Knows i (s', a.next i t) ∧
    Phase.Step (effect t) (items (s, a)) (phase (s, a) (.dequeue pc)) (items (s', a.next i t))
      (phase (s', a.next i t) (.dequeue pc'))
  := by
  have hhead : s.head = a.nodes.head? := h.head
  cases pc with
  | lock item =>
      simp only [dequeue, Option.ite_none_right_eq_some, Option.isNone_iff_eq_none] at hs
      obtain ⟨hfree, heq⟩ := hs
      cases heq
      exact ⟨.lock hfree, ⟨hpc, rfl, h.lag hfree⟩, .same _ _⟩
  | testHead item =>
      obtain ⟨hown, hsection⟩ := hpc
      simp only [dequeue, hhead, Option.isNone_iff_eq_none, List.head?_eq_none_iff] at hs
      split at hs
      case isTrue hnil =>
        cases hs
        refine ⟨.stay _, ⟨hown, hsection⟩, ?_⟩
        have hitems : items (s, a) = [] := by
          rw [items, hnil]
          rfl
        simp only [Chain.next, hitems]
        exact .see _
      case isFalse hne =>
        cases hs
        exact ⟨.stay _, ⟨hown, hsection, hne⟩, .same _ _⟩
  | unlockEmpty item =>
      obtain ⟨hown, hsection⟩ := hpc
      cases hs
      exact ⟨.unlock hsection, hown, .same _ _⟩
  | refused item => cases hs
  | readHead item =>
      obtain ⟨hown, hsection, hne⟩ := hpc
      cases hs
      exact ⟨.stay _, ⟨hown, hsection, hne, hhead.symm⟩, .same _ _⟩
  | rereadHead item tmp =>
      obtain ⟨hown, hsection, hne, htmp⟩ := hpc
      cases hs
      exact ⟨.stay _, ⟨hown, hsection, hne, htmp, hhead.symm⟩, .same _ _⟩
  | readNext item tmp head =>
      obtain ⟨hown, hsection, hne, htmp, hhead'⟩ := hpc
      obtain ⟨p, rfl, hs⟩ := Option.bind_eq_some_iff.mp hs
      obtain ⟨v, hv, hs⟩ := Option.bind_eq_some_iff.mp hs
      cases hs
      obtain ⟨w, hw⟩ := h.node 0 p (by rw [← List.head?_eq_getElem?, hhead'])
      obtain rfl := Option.some.inj (hw.read.symm.trans hv)
      exact ⟨.stay _, ⟨hown, hsection, hne, htmp, rfl⟩, .same _ _⟩
  | writeHead item tmp next =>
      obtain ⟨hown, hsection, hne, htmp, rfl⟩ := hpc
      cases hs
      obtain ⟨p, rest, hnodes⟩ : ∃ p rest, a.nodes = p :: rest := List.exists_cons_of_ne_nil hne
      obtain rfl : some p = tmp := by rw [← htmp, hnodes]; rfl
      refine ⟨.writeHead hsection htmp, ⟨Option.some_ne_none p, hown.give_some s, hsection.1, rfl⟩,
        ?_⟩
      apply Phase.Step.removeFrom
      simp only [items, Chain.next, Chain.remove, hnodes, List.map_cons, List.tail_cons,
        Option.map_some, Option.getD_some]
      rfl
  | testEmpty item tmp =>
      obtain ⟨hsome, hown, hlock, hlag⟩ := hpc
      simp only [dequeue, hhead, Option.isNone_iff_eq_none, List.head?_eq_none_iff] at hs
      split at hs
      case isTrue hnil =>
        cases hs
        exact ⟨.stay _, ⟨hsome, hown, hlock, hnil⟩, .same _ _⟩
      case isFalse hne =>
        cases hs
        refine ⟨.stay _, ⟨hsome, hown, hlock, ?_⟩, .same _ _⟩
        rw [Chain.next, hlag, List.isEmpty_eq_false_iff]
        exact hne
  | clearTail item tmp =>
      obtain ⟨hsome, hown, hlock, hnil⟩ := hpc
      cases hs
      have hlast : a.nodes.getLast? = none := by rw [hnil]; rfl
      exact ⟨.writeTail hlock hlast, ⟨hsome, hown, hlock, rfl⟩, .same _ _⟩
  | unlock item tmp =>
      obtain ⟨hsome, hown, hsection⟩ := hpc
      cases hs
      exact ⟨.unlock hsection, ⟨hsome, hown, by rintro ⟨⟩⟩, .same _ _⟩
  | readItem item tmp =>
      obtain ⟨hsome, hown, hlock⟩ := hpc
      obtain ⟨p, rfl, hs⟩ := Option.bind_eq_some_iff.mp hs
      obtain ⟨v, hv, hs⟩ := Option.bind_eq_some_iff.mp hs
      cases hs
      refine ⟨.stay _, ⟨hsome, hown, hlock⟩, ?_⟩
      have hvalue : s.value p = v.item := by
        rw [Shared.value, hv]
        rfl
      simp only [phase, Option.map_some, Option.getD_some, hvalue]
      exact .same _ _
  | delete item tmp =>
      obtain ⟨hsome, hown, hlock⟩ := hpc
      obtain ⟨p, rfl, hs⟩ := Option.bind_eq_some_iff.mp hs
      obtain ⟨v, hv, hs⟩ := Option.bind_eq_some_iff.mp hs
      cases hs
      have hp : a.owner p = some i := (hown p).mpr rfl
      obtain ⟨hmem, halive⟩ := h.owned p i hp
      refine ⟨.delete hp hlock, hown.give_none _, .keep (items_same rfl ?_) _⟩
      intro q hq
      obtain ⟨u, hu⟩ := h.alive hq
      have hne : q ≠ p := fun heq => hmem (heq ▸ hq)
      exact value_of_has hu ((Heap.has_delete_iff halive hne).mpr hu)
  | done item => cases hs

end spec

/-! ### Reachability -/

/-- What the head leads to are the nodes of the chain. -/
theorem Inv.links (h : Inv (s, a)) :
  Links s.next s.head a.nodes
  := by
  have hhead : s.head = a.nodes.head? := h.head
  rw [hhead]
  apply Links.of_getElem?
  intro k p hk
  obtain ⟨v, hv⟩ := h.node k p hk
  rw [Shared.next, hv.read]
  rfl

/-- A node in the hands of a thread outside its critical section is not reached from the head. -/
theorem Inv.not_reached_head (h : Inv (s, a)) (hp : a.owner p = some i) :
  ¬ Reached s.next s.head p
  := fun hreached => (h.owned p i hp).1 (h.links.mem_of_reached hreached)

/-- Nor is it reached from the tail, even when the tail lags. -/
theorem Inv.not_reached_tail (h : Inv (s, a)) (hp : a.owner p = some i)
    (hlock : s.mutex ≠ some i) :
  ¬ Reached s.next s.tail p
  := by
  rintro ⟨q, hq, hreach⟩
  rcases h.stale q hq with hmem | ⟨j, v, hj, howner, hv⟩
  · obtain ⟨l₁, l₂, hnodes⟩ := List.append_of_mem hmem
    have hlinks := h.links
    simp only at hnodes
    rw [hnodes] at hlinks
    apply (h.owned p i hp).1
    simp only [hnodes]
    apply List.mem_append_right
    exact hlinks.suffix.mem_of_reached ⟨q, rfl, hreach⟩
  · rcases Relation.ReflTransGen.cases_head hreach with rfl | ⟨u, hu, -⟩
    · simp only at howner
      rw [hp] at howner
      rw [← howner] at hj
      exact hlock hj
    · rw [Shared.next, hv.read] at hu
      cases hu

/-- The pointers in the variables of a thread are to nodes of the chain or to its own. -/
theorem Knows.pointers (h : Inv (s, a)) {l : Local V} (hl : Knows j (s, a) (some l))
    (hp : p ∈ l.pointers) :
  p ∈ a.nodes ∨ a.owner p = some j
  := by
  have hnode : ∀ {item : V} {node : Pointer}, Holds j (s, a) item node → p = node →
      p ∈ a.nodes ∨ a.owner p = some j := by
    rintro item _ ⟨hown, -⟩ rfl
    exact Or.inr ((hown p).mpr rfl)
  have htmp : ∀ {tmp : Option Pointer}, Owns j (s, a) tmp → p ∈ tmp.toList →
      p ∈ a.nodes ∨ a.owner p = some j := by
    intro tmp hown hp
    exact Or.inr ((hown p).mpr (Option.mem_toList.mp hp))
  have hhead : ∀ {tmp : Option Pointer}, a.nodes.head? = tmp → p ∈ tmp.toList →
      p ∈ a.nodes ∨ a.owner p = some j := by
    rintro _ rfl hp
    exact Or.inl (List.mem_of_mem_head? (Option.mem_toList.mp hp))
  cases l with
  | enqueue pc =>
      cases pc with
      | new item => cases hp
      | lock item node => exact hnode hl (List.mem_singleton.mp hp)
      | testHead item node => exact hnode hl.1 (List.mem_singleton.mp hp)
      | writeHead item node => exact hnode hl.1 (List.mem_singleton.mp hp)
      | readTail item node => exact hnode hl.1 (List.mem_singleton.mp hp)
      | storeNext item node tail =>
          obtain ⟨hn, hsection, -, htail⟩ := hl
          rcases List.mem_cons.mp hp with hp | hp
          · exact hnode hn hp
          · apply Or.inl
            apply List.mem_of_getLast?
            have hlast : s.tail = a.nodes.getLast? := h.tail hsection.2
            rw [← hlast]
            exact htail.trans (Option.mem_toList.mp hp)
      | writeTail item node =>
          obtain rfl := List.mem_singleton.mp hp
          exact Or.inl (List.mem_of_getLast? hl.2.2)
      | unlock item => cases hp
      | done item => cases hp
  | dequeue pc =>
      cases pc with
      | rereadHead item tmp => exact hhead hl.2.2.2 hp
      | readNext item tmp head =>
          rcases List.mem_append.mp hp with hp | hp
          · exact hhead hl.2.2.2.1 hp
          · exact hhead hl.2.2.2.2 hp
      | writeHead item tmp next =>
          rcases List.mem_append.mp hp with hp | hp
          · exact hhead hl.2.2.2.1 hp
          · exact Or.inl (List.mem_of_getElem? (hl.2.2.2.2.trans (Option.mem_toList.mp hp)))
      | testEmpty item tmp => exact htmp hl.2.1 hp
      | clearTail item tmp => exact htmp hl.2.1 hp
      | unlock item tmp => exact htmp hl.2.1 hp
      | readItem item tmp => exact htmp hl.2.1 hp
      | delete item tmp => exact htmp hl.2.1 hp
      | _ => cases hp

/-- The node a thread follows is alive. -/
theorem Knows.alive (h : Inv (s, a)) {l : Local V} (hl : Knows i (s, a) (some l))
    (hp : l.follows = some p) :
  s.heap.Alive p
  := by
  have hin : p ∈ l.pointers := by
    match l, hp with
    | .enqueue (.storeNext item node tail), hp =>
        exact List.mem_cons_of_mem _ (Option.mem_toList.mpr hp)
    | .dequeue (.readNext item tmp head), hp =>
        exact List.mem_append_right _ (Option.mem_toList.mpr hp)
    | .dequeue (.readItem item tmp), hp => exact Option.mem_toList.mpr hp
    | .dequeue (.delete item tmp), hp => exact Option.mem_toList.mpr hp
  rcases hl.pointers h hin with hmem | howner
  · exact h.alive hmem
  · exact (h.owned p i howner).2

/-- A thread that has unlocked the queue owns the node it has removed. -/
theorem Knows.tmp {l : Local V} (hl : Knows i (s, a) (some l)) (hp : l.tmp = some p) :
  a.owner p = some i ∧ s.mutex ≠ some i
  := by
  match l, hp with
  | .dequeue (.readItem item tmp), hp => exact ⟨(hl.2.1 p).mpr hp, hl.2.2⟩
  | .dequeue (.delete item tmp), hp => exact ⟨(hl.2.1 p).mpr hp, hl.2.2⟩

/-! ### The destructor -/

/-- The destructor deletes the nodes of a chain that starts at the head, in order. -/
theorem destroys_chain {ps : List Pointer} (hhead : s.head = ps.head?) (hnodup : ps.Nodup)
    (hnode : ∀ k p, ps[k]? = some p → ∃ v, s.heap.Has p ⟨v, ps[k + 1]?⟩)
    (hall : ∀ p, s.heap.Alive p → p ∈ ps) :
  ∃ s', Destroys s ps s' ∧ ∀ p, ¬ s'.heap.Alive p
  := by
  induction ps generalizing s with
  | nil => exact ⟨_, .done hhead, fun p hp => by cases hall p hp⟩
  | cons p ps ih =>
      obtain ⟨v, hv⟩ := hnode 0 p rfl
      obtain ⟨hmem, hnodup⟩ := List.nodup_cons.mp hnodup
      have hstep : destroy s = some ({ s with head := ps[0]?, heap := s.heap.delete p }, p) := by
        rw [destroy, hhead]
        simp only [List.head?_cons, Option.bind_eq_bind, Option.bind_some, hv.read]
        rfl
      obtain ⟨s', hrest, hdead⟩ := ih (s := { s with head := ps[0]?, heap := s.heap.delete p })
        List.head?_eq_getElem?.symm hnodup (fun k q hk => by
          obtain ⟨w, hw⟩ := hnode (k + 1) q hk
          have hne : q ≠ p := fun heq => hmem (heq ▸ List.mem_of_getElem? hk)
          exact ⟨w, (Heap.has_delete_iff hv.alive hne).mpr hw⟩) (fun q hq => by
          obtain ⟨hq, hne⟩ := (Heap.alive_delete_iff hv.alive).mp hq
          exact (List.mem_cons.mp (hall q hq)).resolve_left hne)
      exact ⟨s', .delete hv.alive hstep hrest, hdead⟩

/-! ### Runs -/

section run

/-- What each access does to the heap. -/
theorem step_use {x : ℕ} {s s' : Shared ι V} {l l' : Local V} {t : Tag} (h : Inv (s, a))
    (hl : Knows i (s, a) (some l)) (hs : (machine ι V).step i x s l = some (s', l', t)) :
  Heap.Use.Step s.heap (use t) s'.heap
  := by
  have hkeep : s'.heap = s.heap → use t = .keep → Heap.Use.Step s.heap (use t) s'.heap := by
    intro hheap ht
    rw [hheap, ht]
    exact .keep rfl fun _ => Iff.rfl
  rcases step_inv hs with ⟨pc, pc', rfl, rfl, hpc⟩ | ⟨pc, pc', rfl, rfl, hpc⟩
  · cases pc with
    | new item =>
        obtain ⟨⟨heap, node⟩, hnew, heq⟩ := Option.map_eq_some_iff.mp hpc
        cases heq
        exact .new hnew
    | storeNext item node tail =>
        have halive : ∀ p, tail = some p → s.heap.Alive p :=
          fun p hp => hl.alive h hp
        obtain ⟨p, rfl, hpc⟩ := Option.bind_eq_some_iff.mp hpc
        obtain ⟨v, hv, hpc⟩ := Option.bind_eq_some_iff.mp hpc
        cases hpc
        exact .keep rfl fun _ => Heap.alive_write_iff (halive p rfl)
    | lock item node =>
        simp only [enqueue, Option.ite_none_right_eq_some] at hpc
        cases hpc.2
        exact hkeep rfl rfl
    | testHead item node =>
        simp only [enqueue] at hpc
        split at hpc
        · cases hpc
          exact hkeep rfl rfl
        · cases hpc
          exact hkeep rfl rfl
    | done item => cases hpc
    | _ =>
        cases hpc
        exact hkeep rfl rfl
  · cases pc with
    | delete item tmp =>
        have halive : ∀ p, tmp = some p → s.heap.Alive p :=
          fun p hp => hl.alive h hp
        obtain ⟨p, rfl, hpc⟩ := Option.bind_eq_some_iff.mp hpc
        obtain ⟨v, hv, hpc⟩ := Option.bind_eq_some_iff.mp hpc
        cases hpc
        exact .delete (halive p rfl)
    | readNext item tmp head =>
        obtain ⟨p, -, hpc⟩ := Option.bind_eq_some_iff.mp hpc
        obtain ⟨v, -, hpc⟩ := Option.bind_eq_some_iff.mp hpc
        cases hpc
        exact hkeep rfl rfl
    | readItem item tmp =>
        obtain ⟨p, -, hpc⟩ := Option.bind_eq_some_iff.mp hpc
        obtain ⟨v, -, hpc⟩ := Option.bind_eq_some_iff.mp hpc
        cases hpc
        exact hkeep rfl rfl
    | lock item =>
        simp only [dequeue, Option.ite_none_right_eq_some] at hpc
        cases hpc.2
        exact hkeep rfl rfl
    | testHead item | testEmpty item tmp =>
        simp only [dequeue] at hpc
        split at hpc
        · cases hpc
          exact hkeep rfl rfl
        · cases hpc
          exact hkeep rfl rfl
    | refused item => cases hpc
    | done item => cases hpc
    | _ =>
        cases hpc
        exact hkeep rfl rfl

variable [Inhabited V]

/-- What each access of a thread establishes. -/
theorem step_spec {x : ℕ} {s s' : Shared ι V × Chain ι} {l l' : Local V} {t : Tag} (h : Inv s)
    (hl : Knows i s (some l))
    (hs : ((machine ι V).withGhost (ghost ι V)).step i x s l = some (s', l', t)) :
  ChainStep i s s' ∧ Knows i s' (some l') ∧
    Phase.Step (effect t) (items s) (phase s l) (items s') (phase s' l')
  := by
  obtain ⟨hs, ha⟩ := withGhost_step.mp hs
  obtain ⟨s, a⟩ := s
  obtain ⟨s', a'⟩ := s'
  obtain rfl : a' = a.next i t := ha
  rcases step_inv hs with ⟨pc, pc', rfl, rfl, hpc⟩ | ⟨pc, pc', rfl, rfl, hpc⟩
  · exact enqueue_spec h hl hpc
  · exact dequeue_spec h hl hpc

omit [Inhabited V] in
theorem init_inv :
  Inv ((init : Shared ι V), (⟨[], false, fun _ => none⟩ : Chain ι))
  := by
  constructor
  case nodup => exact List.nodup_nil
  case node =>
    intro k p hk
    cases hk
  case head => rfl
  case tail => exact fun _ => rfl
  case stale =>
    intro p hp
    cases hp
  case lag => exact fun _ => rfl
  case owned =>
    intro p i hp
    cases hp
  case placed => exact fun p hp => absurd hp Heap.empty_alive

/-- The invariant and what the threads know form a proof outline. -/
theorem outline (ι V : Type) [Inhabited V] :
  ((machine ι V).withGhost (ghost ι V)).Outline Inv Knows Sees
  := by
  have hnone : ∀ {i : ι} {p : Pointer},
      (none : Option ι) = some i ↔ (none : Option Pointer) = some p :=
    iff_of_false (by rintro ⟨⟩) (by rintro ⟨⟩)
  constructor
  case init => exact init_inv
  case idle => exact fun i p => hnone
  case call =>
    intro i s o _ hidle _
    cases o with
    | enqueue item => exact hidle
    | dequeue out => exact hidle
  case ret =>
    intro i s l v _ hl hv
    rcases result_eq_some ι hv with ⟨item, rfl, rfl⟩ | ⟨item, rfl, rfl⟩ | ⟨item, rfl, rfl⟩
    · exact hl
    · exact hl
    · exact hl
  case step =>
    intro i x s l s' l' t h hl _ _ hs
    obtain ⟨hstep, hl', -⟩ := step_spec h hl hs
    exact ⟨hstep.inv h, hl', fun _ hj => hstep.sees h hj⟩
  case stable =>
    intro j s s' l _ _ hsees hl
    exact hl.keep hsees

/-- The steps of others do not change the item a dequeue is going to return. -/
theorem phase_frame {x x' : Shared ι V × Chain ι} {l : Local V} (hx : Inv x)
    (hl : Knows j x (some l)) (hs : Sees j x x') :
  phase x' l = phase x l
  := by
  have htmp : ∀ {tmp : Option Pointer}, Owns j x tmp →
      (tmp.map x'.1.value).getD default = (tmp.map x.1.value).getD default := by
    intro tmp hown
    cases tmp with
    | none => rfl
    | some p =>
        have howner := (hown p).mpr rfl
        obtain ⟨v, hv⟩ := (hx.owned p j howner).2
        exact value_of_has hv (hs.has p v howner hv)
  cases l with
  | enqueue pc => cases pc <;> rfl
  | dequeue pc =>
      cases pc with
      | testEmpty item tmp => exact congrArg Phase.removed (htmp hl.2.1)
      | clearTail item tmp => exact congrArg Phase.removed (htmp hl.2.1)
      | unlock item tmp => exact congrArg Phase.removed (htmp hl.2.1)
      | readItem item tmp => exact congrArg Phase.removed (htmp hl.2.1)
      | _ => rfl

theorem linearizes (ι V : Type) [Inhabited V] :
  Linearizes ((machine ι V).withGhost (ghost ι V)) effect Inv Knows items fun _ => phase
  := by
  constructor
  case init => rfl
  case enqueue =>
    intros
    rfl
  case dequeue =>
    intros
    rfl
  case frame =>
    intro i x s l s' l' t j l₂ h hl hs hj hl₂
    obtain ⟨hstep, -⟩ := step_spec h hl hs
    exact phase_frame h hl₂ (hstep.sees h hj)
  case step =>
    intro i x s l s' l' t h hl hs
    exact (step_spec h hl hs).2.2
  case result =>
    intro i s l v _ _ hv
    rcases result_eq_some ι hv with ⟨item, rfl, rfl⟩ | ⟨item, rfl, rfl⟩ | ⟨item, rfl, rfl⟩
    · exact Or.inl ⟨item, rfl, rfl⟩
    · exact Or.inr (Or.inr ⟨item, rfl, rfl⟩)
    · exact Or.inr (Or.inl ⟨item, rfl, rfl⟩)

end run

/-! ### Every run refines a FIFO list and reclaims exactly -/

/-- The head leads to the nodes `ps`, and these hold the items `xs`. -/
structure Shared.Represents (s : Shared ι V) (ps : List Pointer) (xs : List V) : Prop where
  links : Links s.next s.head ps
  items : List.Forall₂ (fun p x => ∃ next, s.heap.Has p ⟨x, next⟩) ps xs

/-- What a run of `MutexQueue` does. -/
structure RefinesFifo [DecidableEq ι] {n : ℕ} (r : (machine ι V).Run n) : Prop where
  /-- The queue is a FIFO list, the one that the head leads to. -/
  list : ∃ q, r.Fifo effect q ∧ ∀ k ≤ n, ∃ ps, (r.conf k).shared.Represents ps (q k)
  /-- While the mutex is free, head and tail are the two ends of a chain. -/
  shape : ∀ k ≤ n, (r.conf k).shared.mutex = none →
    ((r.conf k).shared.head = none ↔ (r.conf k).shared.tail = none) ∧
      ∃ ps, ps.Nodup ∧ Links (r.conf k).shared.next (r.conf k).shared.head ps ∧
        (r.conf k).shared.tail = ps.getLast?
  /-- No thread follows a pointer to a node that has been deleted. -/
  alive : ∀ k ≤ n, ∀ i l p, (r.conf k).thread i = some l → l.follows = some p →
    (r.conf k).shared.heap.Alive p
  /-- No other thread can reach the node that a dequeue reads and deletes outside the lock. -/
  unreached : ∀ k ≤ n, ∀ i l p, (r.conf k).thread i = some l → l.tmp = some p →
    ¬ Reached (r.conf k).shared.next (r.conf k).shared.head p ∧
      ¬ Reached (r.conf k).shared.next (r.conf k).shared.tail p ∧
      ∀ j l', j ≠ i → (r.conf k).thread j = some l' → p ∉ l'.pointers
  /-- No node is deleted twice. -/
  once : ∀ i j p k m, r.Acts i (.delete p) k → r.Acts j (.delete p) m → k = m
  /-- When no call is in progress, the destructor deletes exactly the nodes that have been allocated
  and not deleted. -/
  destroyed : (∀ i, (r.conf n).thread i = none) →
    ∃ ds s, Destroys (r.conf n).shared ds s ∧ ds.Nodup ∧ (∀ p, ¬ s.heap.Alive p) ∧
      ∀ p, p ∈ ds ↔ (∃ i k, r.Acts i (.new p) k) ∧ ∀ i k, ¬ r.Acts i (.delete p) k

section run

variable [Inhabited V] [DecidableEq ι] {n : ℕ} (r : (machine ι V).Run n)

/-- What holds at each moment of a run, with the chain at that moment. -/
theorem asserts {k : ℕ} (hk : k ≤ n) :
  Inv ((r.conf k).shared, r.trail (ghost ι V) k) ∧
    ∀ i, Knows i ((r.conf k).shared, r.trail (ghost ι V) k) ((r.conf k).thread i)
  := (outline ι V).sound (r.lift (ghost ι V) fun _ _ => trivial) k hk

/-- The heaps of a run. -/
theorem course :
  Heap.Course n (fun k => (r.conf k).shared.heap) fun k => ((r.tag k).map use).getD .keep
  := by
  constructor
  case start =>
    rw [r.start]
    rfl
  case step =>
    intro k hk
    rcases r.rests_or_acts hk with ⟨htag, hrest⟩ | ⟨t, ht⟩
    · simp only [htag, hrest]
      exact .keep rfl fun _ => Iff.rfl
    · obtain ⟨l, ch, s, l', hl, hs, hc⟩ := ht.step
      obtain ⟨hG, hL⟩ := asserts r (le_of_lt hk)
      have hLi := hL (r.who k)
      rw [hl] at hLi
      simp only [Run.tag_eq_some.mpr ht.2.2, hc, Config.put_shared]
      exact step_use hG hLi hs

omit [Inhabited V] in
/-- The accesses that make or delete a node. -/
theorem use_eq_iff {k : ℕ} (hk : k < n) {p : Pointer} :
  (((r.tag k).map use).getD .keep = .new p ↔ r.Acts (r.who k) (.new p) k) ∧
    (((r.tag k).map use).getD .keep = .delete p ↔ r.Acts (r.who k) (.delete p) k)
  := by
  have hacts : ∀ {t : Tag}, r.Acts (r.who k) t k ↔ r.tag k = some t :=
    fun {t} => ⟨fun h => Run.tag_eq_some.mpr h.2.2, fun h => ⟨hk, rfl, Run.tag_eq_some.mp h⟩⟩
  rw [hacts, hacts]
  cases r.tag k with
  | none => simp
  | some t => cases t <;> simp [use]

/-- `MutexQueue` refines a FIFO list and reclaims its nodes exactly, in every run. -/
theorem mutexQueue_refinesFifo :
  RefinesFifo r
  := by
  have hacts : ∀ {i : ι} {t : Tag} {k : ℕ}, r.Acts i t k → r.Acts (r.who k) t k :=
    fun h => ⟨h.1, rfl, h.2.2⟩
  constructor
  case list =>
    refine ⟨_, ((linearizes ι V).fifo (outline ι V)
      (r.lift (ghost ι V) fun _ _ => trivial)).of_lift, fun k hk => ?_⟩
    obtain ⟨hG, -⟩ := asserts r hk
    refine ⟨_, hG.links, ?_⟩
    apply List.forall₂_map_right_iff.mpr
    apply List.forall₂_same.mpr
    intro p hp
    obtain ⟨v, hv⟩ := hG.alive hp
    have hvalue : (r.conf k).shared.value p = v.item := value_eq hv
    use v.next
    change (r.conf k).shared.heap.Has p ⟨(r.conf k).shared.value p, v.next⟩
    rw [hvalue]
    exact hv
  case shape =>
    intro k hk hfree
    obtain ⟨hG, -⟩ := asserts r hk
    have htail := hG.tail (hG.lag hfree)
    have hhead := hG.head
    refine ⟨?_, _, hG.nodup, hG.links, htail⟩
    simp only at hhead htail
    rw [hhead, htail, List.head?_eq_none_iff, List.getLast?_eq_none_iff]
  case alive =>
    intro k hk i l p hl hp
    obtain ⟨hG, hL⟩ := asserts r hk
    have hLi := hL i
    rw [hl] at hLi
    exact hLi.alive hG hp
  case unreached =>
    intro k hk i l p hl hp
    obtain ⟨hG, hL⟩ := asserts r hk
    have hLi := hL i
    rw [hl] at hLi
    obtain ⟨howner, hlock⟩ := hLi.tmp hp
    refine ⟨hG.not_reached_head howner, hG.not_reached_tail howner hlock, ?_⟩
    intro j l' hj hl' hin
    have hLj := hL j
    rw [hl'] at hLj
    rcases hLj.pointers hG hin with hmem | howner'
    · exact (hG.owned p i howner).1 hmem
    · exact hj (Option.some.inj (howner'.symm.trans howner))
  case once =>
    intro i j p k m hk hm
    exact (course r).delete_unique hk.1 hm.1 ((use_eq_iff r hk.1).2.mpr (hacts hk))
      ((use_eq_iff r hm.1).2.mpr (hacts hm))
  case destroyed =>
    intro hidle
    obtain ⟨hG, hL⟩ := asserts r le_rfl
    have hown : ∀ p i, (r.trail (ghost ι V) n).owner p ≠ some i := by
      intro p i howner
      have hLi := hL i
      rw [hidle i] at hLi
      cases (hLi p).mp howner
    have hall : ∀ p, (r.conf n).shared.heap.Alive p ↔ p ∈ (r.trail (ghost ι V) n).nodes := by
      intro p
      constructor
      · intro halive
        rcases hG.placed p halive with hmem | ⟨i, hi⟩
        · exact hmem
        · exact absurd hi (hown p i)
      · exact fun hmem => hG.alive hmem
    obtain ⟨s, hs, hdead⟩ := destroys_chain hG.head hG.nodup hG.node fun p hp => (hall p).mp hp
    refine ⟨_, s, hs, hG.nodup, hdead, fun p => ?_⟩
    rw [← hall, (course r).alive_iff le_rfl]
    constructor
    · rintro ⟨⟨k, hk, hnew⟩, hdel⟩
      refine ⟨⟨_, k, (use_eq_iff r hk).1.mp hnew⟩, fun i m hm => ?_⟩
      exact hdel m hm.1 ((use_eq_iff r hm.1).2.mpr (hacts hm))
    · rintro ⟨⟨i, k, hk⟩, hdel⟩
      refine ⟨⟨k, hk.1, (use_eq_iff r hk.1).1.mpr (hacts hk)⟩, fun m hm hmp => ?_⟩
      exact hdel _ m ((use_eq_iff r hm).2.mp hmp)

end run

end MutexQueue
