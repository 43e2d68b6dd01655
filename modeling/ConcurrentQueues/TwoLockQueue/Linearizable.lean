import ConcurrentQueues.TwoLockQueue.Model
import Mathlib.Data.List.Nodup

/-!
# TwoLockQueue is linearizable and uses no deleted node

The ghost is the chain of nodes from the head on, together with the owners of the nodes
that are in the hands of one thread: new nodes, and old dummies that wait for being
deleted. Between storing `next` and writing the tail an enqueuer holds the tail lock while
the tail lags behind the chain. Then the tail may be the address of a node that is dead
already, and nothing is said about it.
-/

namespace TwoLockQueue

open Machine

variable {ι V : Type}

/-- The nodes of the queue from the head on, whether the tail lags behind them, and the
owners of nodes in the hands of one thread. -/
structure Chain (ι : Type) where
  nodes : List Pointer
  lag : Bool
  owner : Pointer → Option ι

namespace Chain

/-- The owner of the node `p` becomes `i`. -/
def give (a : Chain ι) (p : Pointer) (i : Option ι) : Chain ι :=
  { a with owner := Function.update a.owner p i }

/-- The node `p` becomes the last one. -/
def append (a : Chain ι) (p : Pointer) : Chain ι :=
  { a.give p none with nodes := a.nodes ++ [p], lag := true }

/-- The tail catches up. -/
def catchUp (a : Chain ι) : Chain ι := { a with lag := false }

/-- The dummy `p` leaves the chain for the hands of thread `i`. -/
def remove (a : Chain ι) (i : ι) (p : Pointer) : Chain ι :=
  { a.give p (some i) with nodes := a.nodes.tail }

/-- What each step of thread `i` does to the chain. -/
def next (i : ι) (a : Chain ι) : Tag → Chain ι
  | .silent | .readNull => a
  | .new node => a.give node (some i)
  | .storeNext node => a.append node
  | .writeTail => a.catchUp
  | .writeHead dummy => a.remove i dummy
  | .delete dummy => a.give dummy none

end Chain

/-- The chain of the queue, from the dummy of the constructor on. -/
def ghost (ι V : Type) [Inhabited V] : (machine ι V).Ghost (Chain ι) where
  init := ⟨[⟨0, 0⟩], false, fun _ => none⟩
  bound _ := True
  next i _ a _ _ _ t := a.next i t

/-- The invariant. Every node of the chain is alive and points to the next one, the head is
the first and, unless it lags, the tail the last of them. -/
structure Inv (s : Shared ι V × Chain ι) : Prop where
  nodup : s.2.nodes.Nodup
  node : ∀ k p, s.2.nodes[k]? = some p →
    ∃ v, s.1.heap p.address = some ⟨p.birth, ⟨v, s.2.nodes[k + 1]?⟩⟩
  head : s.2.nodes.head? = some s.1.head
  tail : s.2.lag = false → s.2.nodes.getLast? = some s.1.tail
  lag : s.1.tailLock = none → s.2.lag = false
  owned : ∀ p i, s.2.owner p = some i → p ∉ s.2.nodes ∧ s.1.Alive p
  births : ∀ x c, s.1.heap x = some c → c.birth < s.1.births

section value

variable [Inhabited V]

/-- The item of the node `p`. -/
def Shared.value (s : Shared ι V) (p : Pointer) : V :=
  ((s.heap p.address).map fun c => c.node.item).getD default

/-- The items in the queue: those of the nodes behind the dummy. -/
def items (s : Shared ι V × Chain ι) : List V := s.2.nodes.tail.map s.1.value

theorem value_eq {s : Shared ι V} {p : Pointer} {c : Cell V} (h : s.heap p.address = some c) :
  s.value p = c.node.item
  := by
  rw [Shared.value, h]
  rfl

end value

/-- Thread `i` owns the new node `node` with item `item`. -/
def Holds (i : ι) (s : Shared ι V × Chain ι) (item : V) (node : Pointer) : Prop :=
  s.2.owner node = some i ∧ s.1.heap node.address = some ⟨node.birth, ⟨item, none⟩⟩

/-- What thread `i` knows at each point of `enqueue`. -/
def Enqueue.Knows (i : ι) (s : Shared ι V × Chain ι) : Enqueue V → Prop
  | .new _ => True
  | .lock item node => Holds i s item node
  | .readTail item node => Holds i s item node ∧ s.1.tailLock = some i ∧ s.2.lag = false
  | .storeNext item node tail =>
      Holds i s item node ∧ s.1.tailLock = some i ∧ s.2.lag = false ∧ s.1.tail = tail
  | .writeTail _ node => s.1.tailLock = some i ∧ s.2.nodes.getLast? = some node
  | .unlock _ => s.1.tailLock = some i ∧ s.2.lag = false
  | .done _ => True

/-- What thread `i` knows at each point of `dequeue`. -/
def Dequeue.Knows [Inhabited V] (i : ι) (s : Shared ι V × Chain ι) : Dequeue V → Prop
  | .readHead _ => s.1.headLock = some i
  | .loadNext _ dummy => s.1.headLock = some i ∧ s.1.head = dummy
  | .unlockEmpty _ => s.1.headLock = some i
  | .readItem _ dummy newHead =>
      s.1.headLock = some i ∧ s.1.head = dummy ∧ s.2.nodes[1]? = some newHead
  | .writeHead item dummy newHead =>
      s.1.headLock = some i ∧ s.1.head = dummy ∧ s.2.nodes[1]? = some newHead ∧
        s.1.value newHead = item
  | .unlock _ dummy => s.1.headLock = some i ∧ s.2.owner dummy = some i
  | .delete _ dummy => s.2.owner dummy = some i
  | _ => True

/-- What thread `i` knows about its own position. -/
def Knows [Inhabited V] (i : ι) (s : Shared ι V × Chain ι) : Option (Local V) → Prop
  | none => True
  | some (.enqueue pc) => pc.Knows i s
  | some (.dequeue pc) => pc.Knows i s

/-- The phase of a call. A dequeue that has read a null successor has seen an empty list. -/
def phase : Local V → Phase V
  | .enqueue (.new item) | .enqueue (.lock item _) | .enqueue (.readTail item _)
  | .enqueue (.storeNext item _ _) => .appending item
  | .enqueue (.writeTail item _) | .enqueue (.unlock item) | .enqueue (.done item) =>
      .appended item
  | .dequeue (.unlockEmpty _) | .dequeue (.refused _) => .removing true
  | .dequeue (.unlock item _) | .dequeue (.delete item _) | .dequeue (.done item) =>
      .removed item
  | .dequeue _ => .removing false

/-! ### The steps of the chain -/

/-- A pointer to a living node is determined by its address. -/
theorem Shared.Alive.eq {s : Shared ι V} {p q : Pointer} (hp : s.Alive p) (hq : s.Alive q)
    (h : p.address = q.address) :
  p = q
  := by
  obtain ⟨v, hv⟩ := hp
  obtain ⟨w, hw⟩ := hq
  rw [h, hw] at hv
  cases p
  cases q
  cases hv
  cases h
  rfl

theorem Inv.alive {s : Shared ι V × Chain ι} (h : Inv s) {p : Pointer} (hp : p ∈ s.2.nodes) :
  s.1.Alive p
  := by
  obtain ⟨k, hk⟩ := List.getElem?_of_mem hp
  obtain ⟨v, hv⟩ := h.node k p hk
  exact ⟨_, hv⟩

/-- The steps of thread `i` on the chain and the memory. -/
inductive ChainStep (i : ι) : Shared ι V × Chain ι → Shared ι V × Chain ι → Prop where
  | stay (x : Shared ι V × Chain ι) : ChainStep i x x
  | new {s : Shared ι V} {a : Chain ι} {x : ℕ} (item : V) : s.heap x = none →
      ChainStep i (s, a)
        ({ s.setHeap x (some ⟨s.births, ⟨item, none⟩⟩) with births := s.births + 1 },
          a.give ⟨x, s.births⟩ (some i))
  | storeNext {s : Shared ι V} {a : Chain ι} {item : V} {node : Pointer} {c : Cell V} :
      Holds i (s, a) item node → s.tailLock = some i → a.lag = false →
      s.heap s.tail.address = some c →
      ChainStep i (s, a)
        (s.setHeap s.tail.address (some { c with node := { c.node with next := some node } }),
          a.append node)
  | writeTail {s : Shared ι V} {a : Chain ι} {node : Pointer} : s.tailLock = some i →
      a.nodes.getLast? = some node → ChainStep i (s, a) ({ s with tail := node }, a.catchUp)
  | lockTail {s : Shared ι V} {a : Chain ι} : s.tailLock = none →
      ChainStep i (s, a) ({ s with tailLock := some i }, a)
  | unlockTail {s : Shared ι V} {a : Chain ι} : s.tailLock = some i → a.lag = false →
      ChainStep i (s, a) ({ s with tailLock := none }, a)
  | lockHead {s : Shared ι V} {a : Chain ι} : s.headLock = none →
      ChainStep i (s, a) ({ s with headLock := some i }, a)
  | unlockHead {s : Shared ι V} {a : Chain ι} : s.headLock = some i →
      ChainStep i (s, a) ({ s with headLock := none }, a)
  | writeHead {s : Shared ι V} {a : Chain ι} {newHead : Pointer} : s.headLock = some i →
      a.nodes[1]? = some newHead →
      ChainStep i (s, a) ({ s with head := newHead }, a.remove i s.head)
  | delete {s : Shared ι V} {a : Chain ι} {p : Pointer} : a.owner p = some i →
      ChainStep i (s, a) (s.setHeap p.address none, a.give p none)

variable {i j : ι} {s : Shared ι V} {a : Chain ι} {p node : Pointer}

theorem setHeap_self (x : ℕ) (c : Option (Cell V)) :
  (s.setHeap x c).heap x = c
  := Function.update_self ..

theorem setHeap_of_ne {x y : ℕ} (h : y ≠ x) (c : Option (Cell V)) :
  (s.setHeap x c).heap y = s.heap y
  := Function.update_of_ne h ..

theorem give_of_ne {p q : Pointer} (h : q ≠ p) (i : Option ι) :
  (a.give p i).owner q = a.owner q
  := Function.update_of_ne h ..

theorem give_self :
  (a.give p (some i)).owner p = some i
  := Function.update_self ..

/-- A node owned after `p` is given away was owned before and is another one. -/
theorem owner_of_give_none {q : Pointer} (h : (a.give p none).owner q = some j) :
  q ≠ p ∧ a.owner q = some j
  := by
  by_cases hq : q = p
  · subst hq
    have hself : (a.give q none).owner q = none := Function.update_self ..
    cases hself.symm.trans h
  · rw [give_of_ne hq] at h
    exact ⟨hq, h⟩

/-- The head, and what is behind it when there is a second node. -/
theorem Inv.nodes_eq (h : Inv (s, a)) (hnode : a.nodes[1]? = some p) :
  ∃ rest, a.nodes = s.head :: p :: rest
  := by
  have hhead := h.head
  cases hn : a.nodes with
  | nil =>
      rw [hn] at hnode
      cases hnode
  | cons x xs =>
      cases xs with
      | nil =>
          rw [hn] at hnode
          cases hnode
      | cons y rest =>
          simp only [hn] at hhead hnode
          cases hhead
          cases hnode
          use rest

/-- The tail, unless it lags, is the last node and has no successor. -/
theorem Inv.tail_node (h : Inv (s, a)) (hlag : a.lag = false) :
  a.nodes[a.nodes.length - 1]? = some s.tail ∧
    ∃ v, s.heap s.tail.address = some ⟨s.tail.birth, ⟨v, none⟩⟩
  := by
  have htail := h.tail hlag
  rw [List.getLast?_eq_getElem?] at htail
  use htail
  obtain ⟨v, hv⟩ := h.node _ _ htail
  obtain ⟨hlt, -⟩ := List.getElem?_eq_some_iff.mp htail
  have hlen : a.nodes.length ≤ a.nodes.length - 1 + 1 := by omega
  rw [List.getElem?_eq_none hlen] at hv
  use v

theorem Inv.new (h : Inv (s, a)) {x : ℕ} (item : V) (hx : s.heap x = none) :
  Inv ({ s.setHeap x (some ⟨s.births, ⟨item, none⟩⟩) with births := s.births + 1 },
    a.give ⟨x, s.births⟩ (some i))
  := by
  have hdead : ∀ {p : Pointer}, s.Alive p → p.address ≠ x := by
    rintro p ⟨v, hv⟩ rfl
    rw [hx] at hv
    cases hv
  have hfresh : ∀ {p : Pointer}, s.Alive p → p ≠ ⟨x, s.births⟩ := by
    rintro p hp rfl
    exact hdead hp rfl
  constructor
  case nodup => apply h.nodup
  case node =>
    intro k p hk
    obtain ⟨v, hv⟩ := h.node k p hk
    use v
    apply Eq.trans (setHeap_of_ne (hdead ⟨_, hv⟩) _) hv
  case head => apply h.head
  case tail => apply h.tail
  case lag => apply h.lag
  case owned =>
    intro p j hp
    by_cases hpx : p = ⟨x, s.births⟩
    · subst hpx
      use fun hmem => hfresh (h.alive hmem) rfl
      exact ⟨_, setHeap_self ..⟩
    · rw [give_of_ne hpx] at hp
      obtain ⟨hmem, v, hv⟩ := h.owned p j hp
      exact ⟨hmem, v, Eq.trans (setHeap_of_ne (hdead ⟨v, hv⟩) _) hv⟩
  case births =>
    intro y c hc
    by_cases hy : y = x
    · subst hy
      obtain rfl := Option.some.inj ((setHeap_self ..).symm.trans hc)
      exact Nat.lt_succ_self _
    · exact Nat.lt_succ_of_lt (h.births y c ((setHeap_of_ne hy _).symm.trans hc))

theorem Inv.storeNext (h : Inv (s, a)) {item : V} {c : Cell V} (hn : Holds i (s, a) item node)
    (hlock : s.tailLock = some i) (hlag : a.lag = false) (hc : s.heap s.tail.address = some c) :
  Inv (s.setHeap s.tail.address (some { c with node := { c.node with next := some node } }),
    a.append node)
  := by
  obtain ⟨hlast, v, hv⟩ := h.tail_node hlag
  obtain rfl := Option.some.inj (hv.symm.trans hc)
  have halive : s.Alive s.tail := ⟨_, hv⟩
  obtain ⟨hmem, hnode⟩ := h.owned node i hn.1
  have hpos : 0 < a.nodes.length := by
    obtain ⟨hlt, -⟩ := List.getElem?_eq_some_iff.mp hlast
    omega
  have htail : s.tail ∈ a.nodes := List.mem_of_getElem? hlast
  have hother : ∀ {p : Pointer}, s.Alive p → p ≠ s.tail → p.address ≠ s.tail.address :=
    fun hp hne heq => hne (hp.eq halive heq)
  constructor
  case nodup =>
    apply List.Nodup.append h.nodup (List.nodup_singleton node)
    intro x hx hx'
    rw [List.mem_singleton] at hx'
    exact hmem (hx' ▸ hx)
  case node =>
    intro k p hk
    rcases lt_trichotomy k a.nodes.length with hlt | rfl | hlt
    · have hkeep : (a.nodes ++ [node])[k]? = a.nodes[k]? := List.getElem?_append_left hlt
      have hk' : a.nodes[k]? = some p := hkeep.symm.trans hk
      by_cases hpt : p = s.tail
      · subst hpt
        obtain rfl : k = a.nodes.length - 1 := by
          apply (List.getElem?_inj hlt h.nodup).mp
          rw [hk', hlast]
        use v
        rw [setHeap_self, Nat.sub_add_cancel hpos]
        simp [Chain.append]
      · obtain ⟨w, hw⟩ := h.node k p hk'
        have hk1 : k + 1 < a.nodes.length := by
          apply lt_of_le_of_ne hlt
          rintro heq
          rw [← heq, Nat.add_sub_cancel, hk'] at hlast
          exact hpt (Option.some.inj hlast)
        use w
        rw [setHeap_of_ne (hother ⟨_, hw⟩ hpt), hw, Chain.append, List.getElem?_append_left hk1]
    · have hk' : (a.nodes ++ [node])[a.nodes.length]? = some p := hk
      rw [List.getElem?_concat_length] at hk'
      obtain rfl := Option.some.inj hk'
      have hne : node ≠ s.tail := fun heq => hmem (heq ▸ htail)
      use item
      rw [setHeap_of_ne (hother hnode hne), hn.2]
      simp [Chain.append]
    · have hnone : (a.nodes ++ [node])[k]? = none := by
        apply List.getElem?_eq_none
        rw [List.length_append, List.length_singleton]
        exact hlt
      cases hnone.symm.trans hk
  case head =>
    have hhead := h.head
    simp only at hhead
    simp only [Chain.append, List.head?_append, hhead]
    rfl
  case tail =>
    intro hlag'
    cases hlag'
  case lag =>
    intro hnone
    cases hlock.symm.trans hnone
  case owned =>
    intro p j hp
    obtain ⟨hne, hp⟩ := owner_of_give_none hp
    obtain ⟨hpmem, w, hw⟩ := h.owned p j hp
    have hpt : p ≠ s.tail := fun heq => hpmem (heq ▸ htail)
    refine ⟨?_, w, (setHeap_of_ne (hother ⟨w, hw⟩ hpt) _).trans hw⟩
    simp only [Chain.append, List.mem_append, List.mem_singleton]
    rintro (hp | hp)
    · exact hpmem hp
    · exact hne hp
  case births =>
    intro x c hc
    by_cases hx : x = s.tail.address
    · subst hx
      obtain rfl := Option.some.inj ((setHeap_self ..).symm.trans hc)
      apply h.births _ _ hv
    · exact h.births x c ((setHeap_of_ne hx _).symm.trans hc)

theorem Inv.writeHead (h : Inv (s, a)) (hnode : a.nodes[1]? = some node) :
  Inv ({ s with head := node }, a.remove i s.head)
  := by
  obtain ⟨rest, hrest⟩ := h.nodes_eq hnode
  have hnodes : (a.remove i s.head).nodes = node :: rest := by
    rw [Chain.remove, hrest]
    rfl
  have hnodup := h.nodup
  simp only [hrest] at hnodup
  obtain ⟨hhead, hnodup⟩ := List.nodup_cons.mp hnodup
  constructor
  case nodup =>
    rw [hnodes]
    apply hnodup
  case node =>
    intro k p hk
    simp only [hnodes] at hk ⊢
    have hnext := h.node (k + 1) p
    simp only [hrest, List.getElem?_cons_succ] at hnext
    apply hnext hk
  case head =>
    rw [hnodes]
    rfl
  case tail =>
    intro hlag
    have htail := h.tail hlag
    simp only [hrest] at htail
    simp only [hnodes]
    rwa [List.getLast?_cons_cons] at htail
  case lag => apply h.lag
  case owned =>
    intro p j hp
    simp only [hnodes]
    by_cases hps : p = s.head
    · subst hps
      use hhead
      apply h.alive
      simp only [hrest]
      apply List.mem_cons_self
    · have hp' : a.owner p = some j := (give_of_ne hps (some i)).symm.trans hp
      obtain ⟨hmem, halive⟩ := h.owned p j hp'
      refine ⟨fun hin => hmem ?_, halive⟩
      simp only [hrest]
      apply List.mem_cons_of_mem _ hin
  case births => apply h.births

theorem Inv.delete (h : Inv (s, a)) (hp : a.owner p = some i) :
  Inv (s.setHeap p.address none, a.give p none)
  := by
  obtain ⟨hmem, halive⟩ := h.owned p i hp
  have hother : ∀ {q : Pointer}, s.Alive q → q ≠ p → q.address ≠ p.address :=
    fun hq hne heq => hne (hq.eq halive heq)
  constructor
  case nodup => apply h.nodup
  case node =>
    intro k q hk
    obtain ⟨v, hv⟩ := h.node k q hk
    have hne : q ≠ p := fun heq => hmem (heq ▸ List.mem_of_getElem? hk)
    exact ⟨v, (setHeap_of_ne (hother ⟨_, hv⟩ hne) _).trans hv⟩
  case head => apply h.head
  case tail => apply h.tail
  case lag => apply h.lag
  case owned =>
    intro q j hq
    obtain ⟨hne, hq⟩ := owner_of_give_none hq
    obtain ⟨hqmem, v, hv⟩ := h.owned q j hq
    exact ⟨hqmem, v, (setHeap_of_ne (hother ⟨v, hv⟩ hne) _).trans hv⟩
  case births =>
    intro x c hc
    by_cases hx : x = p.address
    · subst hx
      cases (setHeap_self ..).symm.trans hc
    · exact h.births x c ((setHeap_of_ne hx _).symm.trans hc)

theorem ChainStep.inv {x x' : Shared ι V × Chain ι} (h : ChainStep i x x') (hx : Inv x) :
  Inv x'
  := by
  cases h with
  | stay => apply hx
  | new item hfree => apply hx.new item hfree
  | storeNext hn hlock hlag hc => apply hx.storeNext hn hlock hlag hc
  | @writeTail s a node hlock hlast =>
      exact ⟨hx.nodup, hx.node, hx.head, fun _ => hlast, fun _ => rfl, hx.owned, hx.births⟩
  | @lockTail s a hfree =>
      exact ⟨hx.nodup, hx.node, hx.head, hx.tail, fun hnone => absurd hnone (Option.some_ne_none i),
        hx.owned, hx.births⟩
  | @unlockTail s a hlock hlag =>
      exact ⟨hx.nodup, hx.node, hx.head, hx.tail, fun _ => hlag, hx.owned, hx.births⟩
  | lockHead =>
      exact ⟨hx.nodup, hx.node, hx.head, hx.tail, hx.lag, hx.owned, hx.births⟩
  | unlockHead =>
      exact ⟨hx.nodup, hx.node, hx.head, hx.tail, hx.lag, hx.owned, hx.births⟩
  | writeHead _ hnode => apply hx.writeHead hnode
  | delete hp => apply hx.delete hp

/-! ### What the other threads see -/

/-- What thread `j` sees of the steps of others. Who holds a mutex finds what it protects
unchanged, except that nodes are added to the chain while `j` holds the head. -/
structure Sees [Inhabited V] (j : ι) (x x' : Shared ι V × Chain ι) : Prop where
  head : x.1.headLock = some j →
    x'.1.headLock = some j ∧ x'.1.head = x.1.head ∧ x.2.nodes <+: x'.2.nodes
  tail : x.1.tailLock = some j → x'.1.tailLock = some j ∧ x'.1.tail = x.1.tail ∧
    x'.2.lag = x.2.lag ∧ x'.2.nodes.getLast? = x.2.nodes.getLast?
  owner : ∀ p, x.2.owner p = some j →
    x'.2.owner p = some j ∧ x'.1.heap p.address = x.1.heap p.address
  value : ∀ p ∈ x.2.nodes, x'.1.value p = x.1.value p

section sees

variable [Inhabited V]

/-- The items of living nodes stay when a new node is made or another one is deleted. -/
theorem value_setHeap_of_ne {x : ℕ} (h : p.address ≠ x) (c : Option (Cell V)) :
  (s.setHeap x c).value p = s.value p
  := by
  rw [Shared.value, setHeap_of_ne h, Shared.value]

/-- Writing the field `next` changes no item. -/
theorem value_setNext {x : ℕ} {c : Cell V} (h : s.heap x = some c) (q : Option Pointer) :
  (s.setHeap x (some { c with node := { c.node with next := q } })).value p = s.value p
  := by
  by_cases hp : p.address = x
  · subst hp
    rw [value_eq (setHeap_self ..), value_eq h]
  · apply value_setHeap_of_ne hp

theorem ChainStep.sees {x x' : Shared ι V × Chain ι} (h : ChainStep i x x') (hx : Inv x)
    (hij : j ≠ i) :
  Sees j x x'
  := by
  have hlock : ∀ {o : Option ι}, o = some i → o ≠ some j :=
    fun hi hj => hij (Option.some.inj (hj.symm.trans hi))
  have hfree : ∀ {o : Option ι}, o = none → o ≠ some j :=
    fun hn hj => Option.some_ne_none j (hj.symm.trans hn)
  cases h with
  | stay =>
      exact ⟨fun h => ⟨h, rfl, List.prefix_rfl⟩, fun h => ⟨h, rfl, rfl, rfl⟩,
        fun _ h => ⟨h, rfl⟩, fun _ _ => rfl⟩
  | @new s a x item hnone =>
      have hne : ∀ {p : Pointer}, s.Alive p → p.address ≠ x := by
        rintro p ⟨v, hv⟩ rfl
        cases hv.symm.trans hnone
      refine ⟨fun h => ⟨h, rfl, List.prefix_rfl⟩, fun h => ⟨h, rfl, rfl, rfl⟩, ?_, ?_⟩
      · intro p hp
        have halive := (hx.owned p j hp).2
        have hpx : p ≠ ⟨x, s.births⟩ := fun heq => hne halive (by rw [heq])
        exact ⟨(give_of_ne hpx _).trans hp, setHeap_of_ne (hne halive) _⟩
      · intro p hp
        apply value_setHeap_of_ne (hne (hx.alive hp))
  | @storeNext s a item node c hn hi hlag hc =>
      refine ⟨fun h => ⟨h, rfl, List.prefix_append _ _⟩, fun h => absurd h (hlock hi), ?_, ?_⟩
      · intro p hp
        obtain ⟨hmem, halive⟩ := hx.owned p j hp
        obtain ⟨hlast, v, hv⟩ := hx.tail_node hlag
        have hpn : p ≠ node := fun heq => hlock hn.1 (heq ▸ hp)
        refine ⟨(give_of_ne hpn none).trans hp, setHeap_of_ne ?_ _⟩
        intro heq
        rw [halive.eq ⟨_, hv⟩ heq] at hmem
        exact hmem (List.mem_of_getElem? hlast)
      · intro p _
        apply value_setNext hc
  | writeTail hi _ =>
      exact ⟨fun h => ⟨h, rfl, List.prefix_rfl⟩, fun h => absurd h (hlock hi),
        fun _ h => ⟨h, rfl⟩, fun _ _ => rfl⟩
  | lockTail hi =>
      exact ⟨fun h => ⟨h, rfl, List.prefix_rfl⟩, fun h => absurd h (hfree hi),
        fun _ h => ⟨h, rfl⟩, fun _ _ => rfl⟩
  | unlockTail hi _ =>
      exact ⟨fun h => ⟨h, rfl, List.prefix_rfl⟩, fun h => absurd h (hlock hi),
        fun _ h => ⟨h, rfl⟩, fun _ _ => rfl⟩
  | lockHead hi =>
      exact ⟨fun h => absurd h (hfree hi), fun h => ⟨h, rfl, rfl, rfl⟩, fun _ h => ⟨h, rfl⟩,
        fun _ _ => rfl⟩
  | unlockHead hi =>
      exact ⟨fun h => absurd h (hlock hi), fun h => ⟨h, rfl, rfl, rfl⟩, fun _ h => ⟨h, rfl⟩,
        fun _ _ => rfl⟩
  | @writeHead s a newHead hi hnode =>
      obtain ⟨rest, hrest⟩ := hx.nodes_eq hnode
      refine ⟨fun h => absurd h (hlock hi), fun h => ⟨h, rfl, rfl, ?_⟩, ?_, fun _ _ => rfl⟩
      · simp only [Chain.remove, hrest, List.tail_cons, List.getLast?_cons_cons]
      · intro p hp
        have hps : p ≠ s.head := by
          rintro rfl
          apply (hx.owned _ j hp).1
          simp only [hrest]
          apply List.mem_cons_self
        exact ⟨(give_of_ne hps (some i)).trans hp, rfl⟩
  | @delete s a p hp =>
      obtain ⟨hmem, halive⟩ := hx.owned p i hp
      refine ⟨fun h => ⟨h, rfl, List.prefix_rfl⟩, fun h => ⟨h, rfl, rfl, rfl⟩, ?_, ?_⟩
      · intro q hq
        have hne : q ≠ p := fun heq => hlock hp (heq ▸ hq)
        refine ⟨(give_of_ne hne none).trans hq, setHeap_of_ne ?_ _⟩
        exact fun heq => hne ((hx.owned q j hq).2.eq halive heq)
      · intro q hq
        apply value_setHeap_of_ne
        intro heq
        rw [(hx.alive hq).eq halive heq] at hq
        exact hmem hq

variable {x x' : Shared ι V × Chain ι}

theorem Holds.keep {item : V} (h : Holds j x item node) (hs : Sees j x x') :
  Holds j x' item node
  := by
  obtain ⟨howner, hheap⟩ := hs.owner node h.1
  exact ⟨howner, hheap.trans h.2⟩

theorem Enqueue.Knows.keep {pc : Enqueue V} (h : pc.Knows j x) (hs : Sees j x x') :
  pc.Knows j x'
  := by
  cases pc with
  | new item => trivial
  | lock item node => apply Holds.keep h hs
  | readTail item node =>
      obtain ⟨hn, hlock, hlag⟩ := h
      obtain ⟨hlock', -, hlag', -⟩ := hs.tail hlock
      exact ⟨hn.keep hs, hlock', hlag'.trans hlag⟩
  | storeNext item node tail =>
      obtain ⟨hn, hlock, hlag, htail⟩ := h
      obtain ⟨hlock', htail', hlag', -⟩ := hs.tail hlock
      exact ⟨hn.keep hs, hlock', hlag'.trans hlag, htail'.trans htail⟩
  | writeTail item node =>
      obtain ⟨hlock, hlast⟩ := h
      obtain ⟨hlock', -, -, hlast'⟩ := hs.tail hlock
      exact ⟨hlock', hlast'.trans hlast⟩
  | unlock item =>
      obtain ⟨hlock, hlag⟩ := h
      obtain ⟨hlock', -, hlag', -⟩ := hs.tail hlock
      exact ⟨hlock', hlag'.trans hlag⟩
  | done item => trivial

/-- The second node of the chain stays the second for who holds the head. -/
theorem Sees.second (hs : Sees j x x') (hlock : x.1.headLock = some j)
    (hnode : x.2.nodes[1]? = some node) :
  x'.2.nodes[1]? = some node
  := by
  obtain ⟨-, -, rest, hrest⟩ := hs.head hlock
  rw [← hrest, List.getElem?_append_left (List.getElem?_eq_some_iff.mp hnode).1, hnode]

theorem Dequeue.Knows.keep {pc : Dequeue V} (h : pc.Knows j x) (hs : Sees j x x') :
  pc.Knows j x'
  := by
  cases pc with
  | lock item => trivial
  | readHead item => exact (hs.head h).1
  | loadNext item dummy =>
      obtain ⟨hlock, hhead⟩ := h
      obtain ⟨hlock', hhead', -⟩ := hs.head hlock
      exact ⟨hlock', hhead'.trans hhead⟩
  | unlockEmpty item => exact (hs.head h).1
  | refused item => trivial
  | readItem item dummy newHead =>
      obtain ⟨hlock, hhead, hnode⟩ := h
      obtain ⟨hlock', hhead', -⟩ := hs.head hlock
      exact ⟨hlock', hhead'.trans hhead, hs.second hlock hnode⟩
  | writeHead item dummy newHead =>
      obtain ⟨hlock, hhead, hnode, hitem⟩ := h
      obtain ⟨hlock', hhead', -⟩ := hs.head hlock
      exact ⟨hlock', hhead'.trans hhead, hs.second hlock hnode,
        (hs.value newHead (List.mem_of_getElem? hnode)).trans hitem⟩
  | unlock item dummy =>
      obtain ⟨hlock, howner⟩ := h
      exact ⟨(hs.head hlock).1, (hs.owner dummy howner).1⟩
  | delete item dummy => exact (hs.owner dummy h).1
  | done item => trivial

end sees

/-! ### The items -/

section items

variable [Inhabited V]

/-- When chain and values stay, so does the list. -/
theorem same_of_value {s' : Shared ι V} {a' : Chain ι} (ha : a'.nodes = a.nodes)
    (h : ∀ p ∈ a.nodes, s'.value p = s.value p) (f : Phase V) :
  Phase.Step .none (items (s, a)) f (items (s', a')) f
  := by
  have hitems : items (s', a') = items (s, a) := by
    simp only [items, ha]
    apply List.map_congr_left
    intro p hp
    apply h p (List.mem_of_mem_tail hp)
  rw [hitems]
  apply Phase.Step.same

theorem items_append {s' : Shared ι V} (h : ∀ p, s'.value p = s.value p) (hpos : a.nodes ≠ []) :
  items (s', a.append node) = items (s, a) ++ [s.value node]
  := by
  simp only [items, Chain.append, List.tail_append_of_ne_nil hpos, List.map_append,
    List.map_cons, List.map_nil, h]
  congr 1
  apply List.map_congr_left
  intro p _
  apply h

theorem items_remove (h : Inv (s, a)) (hnode : a.nodes[1]? = some node) :
  items (s, a) = s.value node :: items ({ s with head := node }, a.remove i s.head)
  := by
  obtain ⟨rest, hrest⟩ := h.nodes_eq hnode
  simp only [items, Chain.remove, hrest, List.tail_cons, List.map_cons]
  rfl

/-- A null successor of the head means that there are no items. -/
theorem items_eq_nil (h : Inv (s, a)) {c : Cell V} (hc : s.heap s.head.address = some c)
    (hnull : c.node.next = none) :
  items (s, a) = []
  := by
  have hhead := h.head
  rw [List.head?_eq_getElem?] at hhead
  obtain ⟨v, hv⟩ := h.node 0 _ hhead
  obtain rfl := Option.some.inj (hc.symm.trans hv)
  have hlen : a.nodes.length ≤ 1 := List.getElem?_eq_none_iff.mp hnull
  rw [items, List.map_eq_nil_iff, ← List.length_eq_zero_iff, List.length_tail]
  simp only
  omega

end items

/-! ### The steps of the two operations -/

section spec

variable [Inhabited V] {s' : Shared ι V} {t : Tag}

/-- The node a thread follows is alive. -/
theorem Knows.alive (h : Inv (s, a)) {l : Local V} (hl : Knows i (s, a) (some l))
    (hp : l.follows = some p) :
  s.Alive p
  := by
  match l, hp with
  | .enqueue (.storeNext item node tail), rfl =>
      obtain ⟨-, -, hlag, rfl⟩ := hl
      obtain ⟨-, v, hv⟩ := h.tail_node hlag
      exact ⟨_, hv⟩
  | .dequeue (.loadNext item dummy), rfl =>
      obtain ⟨-, rfl⟩ := hl
      apply h.alive (List.mem_of_mem_head? h.head)
  | .dequeue (.readItem item dummy newHead), rfl =>
      obtain ⟨-, -, hnode⟩ := hl
      apply h.alive (List.mem_of_getElem? hnode)
  | .dequeue (.delete item dummy), rfl =>
      exact (h.owned _ i hl).2

/-- Each access of `enqueue` keeps the invariant and what the thread knows; the one that
stores `next` appends the item. -/
theorem enqueue_spec {x : ℕ} {pc pc' : Enqueue V} (h : Inv (s, a)) (hpc : pc.Knows i (s, a))
    (hs : enqueue i x s pc = some (s', pc', t)) :
  ChainStep i (s, a) (s', a.next i t) ∧ pc'.Knows i (s', a.next i t) ∧
    Phase.Step (effect t) (items (s, a)) (phase (.enqueue pc)) (items (s', a.next i t))
      (phase (.enqueue pc'))
  := by
  cases pc with
  | new item =>
      simp only [enqueue, Option.ite_none_right_eq_some, Option.isNone_iff_eq_none] at hs
      obtain ⟨hnone, rfl, rfl, rfl⟩ := hs
      refine ⟨.new item hnone, ⟨give_self, setHeap_self ..⟩, same_of_value rfl ?_ _⟩
      intro p hp
      obtain ⟨v, hv⟩ := h.alive hp
      apply value_setHeap_of_ne
      rintro rfl
      cases hv.symm.trans hnone
  | lock item node =>
      simp only [enqueue, Option.ite_none_right_eq_some, Option.isNone_iff_eq_none] at hs
      obtain ⟨hfree, rfl, rfl, rfl⟩ := hs
      exact ⟨.lockTail hfree, ⟨hpc, rfl, h.lag hfree⟩, .same _ _⟩
  | readTail item node =>
      obtain ⟨hn, hlock, hlag⟩ := hpc
      obtain ⟨rfl, rfl, rfl⟩ := hs
      exact ⟨.stay _, ⟨hn, hlock, hlag, rfl⟩, .same _ _⟩
  | storeNext item node tail =>
      obtain ⟨hn, hlock, hlag, rfl⟩ := hpc
      obtain ⟨c, hc, heq⟩ := Option.map_eq_some_iff.mp hs
      cases heq
      have hlast : (a.append node).nodes.getLast? = some node := List.getLast?_concat
      refine ⟨.storeNext hn hlock hlag hc, ⟨hlock, hlast⟩, ?_⟩
      have hpos : a.nodes ≠ [] := by
        intro hnil
        cases (congrArg List.head? hnil).symm.trans h.head
      rw [Chain.next, items_append (fun _ => value_setNext hc _) hpos, value_eq hn.2]
      apply Phase.Step.append
  | writeTail item node =>
      obtain ⟨hlock, hlast⟩ := hpc
      obtain ⟨rfl, rfl, rfl⟩ := hs
      exact ⟨.writeTail hlock hlast, ⟨hlock, rfl⟩, .same _ _⟩
  | unlock item =>
      obtain ⟨hlock, hlag⟩ := hpc
      obtain ⟨rfl, rfl, rfl⟩ := hs
      exact ⟨.unlockTail hlock hlag, trivial, .same _ _⟩
  | done item => cases hs

/-- Each access of `dequeue` keeps the invariant and what the thread knows; the one that
writes the head removes the front, and one that reads a null successor sees the list
empty. -/
theorem dequeue_spec {pc pc' : Dequeue V} (h : Inv (s, a)) (hpc : pc.Knows i (s, a))
    (hs : dequeue i s pc = some (s', pc', t)) :
  ChainStep i (s, a) (s', a.next i t) ∧ pc'.Knows i (s', a.next i t) ∧
    Phase.Step (effect t) (items (s, a)) (phase (.dequeue pc)) (items (s', a.next i t))
      (phase (.dequeue pc')) ∧ (t = .readNull → items (s, a) = [])
  := by
  cases pc with
  | lock item =>
      simp only [dequeue, Option.ite_none_right_eq_some, Option.isNone_iff_eq_none] at hs
      obtain ⟨hfree, rfl, rfl, rfl⟩ := hs
      exact ⟨.lockHead hfree, rfl, .same _ _, nofun⟩
  | readHead item =>
      obtain ⟨rfl, rfl, rfl⟩ := hs
      exact ⟨.stay _, ⟨hpc, rfl⟩, .same _ _, nofun⟩
  | loadNext item dummy =>
      obtain ⟨hlock, rfl⟩ := hpc
      obtain ⟨c, hc, heq⟩ := Option.map_eq_some_iff.mp hs
      have hhead := h.head
      rw [List.head?_eq_getElem?] at hhead
      obtain ⟨v, hv⟩ := h.node 0 _ hhead
      obtain rfl := Option.some.inj (hc.symm.trans hv)
      split at heq
      case h_1 hnull =>
        cases heq
        have hnil := items_eq_nil h hc hnull
        refine ⟨.stay _, hlock, ?_, fun _ => hnil⟩
        simp only [phase, Chain.next, hnil]
        apply Phase.Step.see
      case h_2 newHead hnode =>
        cases heq
        exact ⟨.stay _, ⟨hlock, rfl, hnode⟩, .same _ _, nofun⟩
  | unlockEmpty item =>
      obtain ⟨rfl, rfl, rfl⟩ := hs
      exact ⟨.unlockHead hpc, trivial, .same _ _, nofun⟩
  | refused item => cases hs
  | readItem item dummy newHead =>
      obtain ⟨hlock, hhead, hnode⟩ := hpc
      obtain ⟨c, hc, heq⟩ := Option.map_eq_some_iff.mp hs
      cases heq
      exact ⟨.stay _, ⟨hlock, hhead, hnode, value_eq hc⟩, .same _ _, nofun⟩
  | writeHead item dummy newHead =>
      obtain ⟨hlock, rfl, hnode, hitem⟩ := hpc
      obtain ⟨rfl, rfl, rfl⟩ := hs
      refine ⟨.writeHead hlock hnode, ⟨hlock, give_self⟩, ?_, nofun⟩
      rw [items_remove (i := i) h hnode, hitem]
      apply Phase.Step.remove
  | unlock item dummy =>
      obtain ⟨hlock, howner⟩ := hpc
      obtain ⟨rfl, rfl, rfl⟩ := hs
      exact ⟨.unlockHead hlock, howner, .same _ _, nofun⟩
  | delete item dummy =>
      obtain ⟨c, hc, heq⟩ := Option.map_eq_some_iff.mp hs
      cases heq
      obtain ⟨hmem, halive⟩ := h.owned dummy i hpc
      refine ⟨.delete hpc, trivial, same_of_value rfl ?_ _, nofun⟩
      intro p hp
      apply value_setHeap_of_ne
      intro heq
      rw [(h.alive hp).eq halive heq] at hp
      exact hmem hp
  | done item => cases hs

end spec

/-! ### Every run is linearizable and uses living nodes only -/

section run

variable [Inhabited V]

/-- What each access of a thread establishes. -/
theorem step_spec {x : ℕ} {s s' : Shared ι V × Chain ι} {l l' : Local V} {t : Tag} (h : Inv s)
    (hl : Knows i s (some l))
    (hs : ((machine ι V).withGhost (ghost ι V)).step i x s l = some (s', l', t)) :
  ChainStep i s s' ∧ Knows i s' (some l') ∧
    Phase.Step (effect t) (items s) (phase l) (items s') (phase l') ∧
    (t = .readNull → items s = [])
  := by
  obtain ⟨hs, ha⟩ := withGhost_step.mp hs
  obtain ⟨s, a⟩ := s
  obtain ⟨s', a'⟩ := s'
  obtain rfl : a' = a.next i t := ha
  rcases step_inv hs with ⟨pc, pc', rfl, rfl, hpc⟩ | ⟨pc, pc', rfl, rfl, hpc⟩
  · obtain ⟨hstep, hpc', hphase⟩ := enqueue_spec h hl hpc
    refine ⟨hstep, hpc', hphase, ?_⟩
    rintro rfl
    cases pc <;> simp [enqueue] at hpc
  · apply dequeue_spec h hl hpc

theorem init_heap_zero :
  (init : Shared ι V).heap 0 = some ⟨0, ⟨default, none⟩⟩
  := by
  simp only [init]
  apply Function.update_self

theorem init_births {x : ℕ} {c : Cell V} (hc : (init : Shared ι V).heap x = some c) :
  c.birth = 0
  := by
  by_cases hx : x = 0
  · subst hx
    obtain rfl := Option.some.inj (init_heap_zero.symm.trans hc)
    rfl
  · simp only [init] at hc
    cases (Function.update_of_ne hx ..).symm.trans hc

/-- The invariant and what the threads know form a proof outline. -/
theorem outline (ι V : Type) [Inhabited V] :
  ((machine ι V).withGhost (ghost ι V)).Outline Inv Knows Sees
  := by
  constructor
  case init =>
    constructor
    case node =>
      intro k p hk
      cases k with
      | zero =>
          obtain rfl := Option.some.inj hk
          exact ⟨default, init_heap_zero⟩
      | succ k => cases hk
    case births =>
      intro x c hc
      rw [init_births hc]
      exact Nat.zero_lt_one
    case nodup => apply List.nodup_singleton
    case head => rfl
    case tail => exact fun _ => rfl
    case lag => exact fun _ => rfl
    case owned => exact fun p i hp => nomatch hp
  case idle =>
    intro i
    trivial
  case call =>
    intro i s o _ _ _
    cases o with
    | enqueue item => trivial
    | dequeue out => trivial
  case ret =>
    intros
    trivial
  case step =>
    intro i x s l s' l' t h hl _ _ hs
    obtain ⟨hstep, hl', -⟩ := step_spec h hl hs
    exact ⟨hstep.inv h, hl', fun _ hj => hstep.sees h hj⟩
  case stable =>
    intro j s s' l _ _ hsees hl
    match l with
    | none => trivial
    | some (.enqueue pc) => apply Enqueue.Knows.keep hl hsees
    | some (.dequeue pc) => apply Dequeue.Knows.keep hl hsees

theorem linearizes (ι V : Type) [Inhabited V] :
  Linearizes ((machine ι V).withGhost (ghost ι V)) effect Inv Knows items fun _ _ => phase
  := by
  constructor
  case init => rfl
  case enqueue =>
    intros
    rfl
  case dequeue =>
    intros
    rfl
  case frame =>
    intros
    rfl
  case step =>
    intro i x s l s' l' t h hl hs
    apply (step_spec h hl hs).2.2.1
  case result =>
    intro i s l v _ _ hv
    rcases result_eq_some ι hv with ⟨item, rfl, rfl⟩ | ⟨item, rfl, rfl⟩ | ⟨item, rfl, rfl⟩
    · exact Or.inl ⟨item, rfl, rfl⟩
    · exact Or.inr (Or.inr ⟨item, rfl, rfl⟩)
    · exact Or.inr (Or.inl ⟨item, rfl, rfl⟩)

variable [DecidableEq ι] {n : ℕ}

/-- A dequeue that returns `false` has read a null successor during its call. -/
theorem readNull_of_refused (r : (machine ι V).Run n) {out x : V} {k b : ℕ}
    (h : r.Returns i (.dequeue out) k (.dequeued false x) b) :
  ∃ m, k < m ∧ m < b ∧ r.Acts i .readNull m
  := by
  obtain ⟨l, hl, hv⟩ := h.result
  let Q : Local V → Prop
    | .dequeue (.unlockEmpty _) | .dequeue (.refused _) => True
    | _ => False
  have hQ : Q l := by
    rcases result_eq_some ι hv with ⟨item, -, ⟨⟩⟩ | ⟨item, rfl, -⟩ | ⟨item, -, ⟨⟩⟩
    trivial
  have hstart : ∀ o, ¬ Q ((machine ι V).start o) := by
    intro o
    cases o with
    | enqueue item => exact id
    | dequeue out => exact id
  have hstep : ∀ i x s l s' l' t, (machine ι V).step i x s l = some (s', l', t) → Q l' →
      Q l ∨ t = .readNull := by
    intro i x s l s' l' t hs hQ
    rcases step_inv hs with ⟨pc, pc', rfl, rfl, -⟩ | ⟨pc, pc', rfl, rfl, hpc⟩
    · cases hQ
    · -- only the load of `next` and the unlocking after it lead to a refusal
      cases pc with
      | loadNext item dummy =>
          obtain ⟨c, hc, heq⟩ := Option.map_eq_some_iff.mp hpc
          split at heq
          · cases heq
            exact Or.inr rfl
          · cases heq
            cases hQ
      | unlockEmpty item => exact Or.inl trivial
      | refused item => cases hpc
      | done item => cases hpc
      | lock item =>
          simp only [dequeue, Option.ite_none_right_eq_some] at hpc
          cases hpc.2
          cases hQ
      | readItem item dummy newHead =>
          obtain ⟨c, hc, heq⟩ := Option.map_eq_some_iff.mp hpc
          cases heq
          cases hQ
      | delete item dummy =>
          obtain ⟨c, hc, heq⟩ := Option.map_eq_some_iff.mp hpc
          cases heq
          cases hQ
      | readHead item | writeHead item dummy newHead | unlock item dummy =>
          cases hpc
          cases hQ
  obtain ⟨o, k', m, t, hcalls, hwithin, hkm, hmb, ht, rfl⟩ :=
    r.cause Q (· = .readNull) hstart hstep (le_of_lt h.lt) hl hQ
  obtain ⟨rfl, -⟩ := h.calls.unique hcalls h.within hwithin
  exact ⟨m, hkm, hmb, ht⟩

/-- In every run of `TwoLockQueue`, of any length and with any number of threads, the node
a thread is about to read, write or delete has not been deleted, and the run is
linearizable: storing `next` is the one step at which an enqueue takes effect, writing the
head the one step at which a dequeue does, and a dequeue that returns `false` found the
list empty when it loaded `next`. -/
theorem twoLockQueue_linearizable (r : (machine ι V).Run n) :
  (∀ k ≤ n, ∀ i l p, (r.conf k).thread i = some l → l.follows = some p →
    (r.conf k).shared.Alive p) ∧
  ∃ q, r.Fifo effect q ∧ ∀ i out x a b, r.Returns i (.dequeue out) a (.dequeued false x) b →
    ∃ k, a < k ∧ k < b ∧ r.Acts i .readNull k ∧ q k = []
  := by
  have hM := outline ι V
  let r' := r.lift (ghost ι V) fun _ _ => trivial
  constructor
  · intro k hk i l p hl hp
    obtain ⟨hG, hL⟩ := hM.sound r' k hk
    have hLi := hL i
    rw [show (r'.conf k).thread i = some l from hl] at hLi
    apply Knows.alive hG hLi hp
  · refine ⟨_, ((linearizes ι V).fifo hM r').of_lift, ?_⟩
    intro i out x a b hret
    obtain ⟨k, hak, hkb, ht⟩ := readNull_of_refused r hret
    refine ⟨k, hak, hkb, ht, ?_⟩
    have ht' : r'.Acts i .readNull k := ht
    obtain ⟨l, ch, s, l', hl, hs, hc, hG, hL, -, -⟩ := hM.acts ht'
    exact (step_spec hG hL hs).2.2.2 rfl

end run

end TwoLockQueue
