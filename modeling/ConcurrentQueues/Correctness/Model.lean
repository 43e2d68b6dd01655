import ConcurrentQueues.Library.Atomic
import Mathlib.Algebra.Ring.Nat
import Mathlib.Data.Fintype.Basic

/-!
# The test with several producers and consumers

The test `test_n_producers_n_consumers` of `correctness.cc`, as a client of a queue of pointers to
integers. Each producer enqueues a section of the items. Each consumer dequeues until it receives
the end pointer, and keeps what it has read through the others. When the producers have been joined
the main thread enqueues the end pointer once for each consumer, and when these have been joined it
checks what they have consumed.
-/

namespace Correctness

/-- What the test is called with, and its memory: `item i` is `&items[i]`, `endPtr` is `end_ptr`, and
`load` reads through a pointer. The items are numbered by a variable of type `int`. -/
structure Test (V : Type) where
  nProducers : ℕ
  nConsumers : ℕ
  /-- `ITEMS_PER_PRODUCER` -/
  perProducer : ℕ
  fits : nProducers * perProducer < 2 ^ 31
  item : ℕ → V
  endPtr : V
  load : V → ℤ
  load_item : ∀ i < nProducers * perProducer, load (item i) = i
  item_ne_end : ∀ i < nProducers * perProducer, item i ≠ endPtr

/-- The threads that use the queue. -/
inductive Thread (nProducers nConsumers : ℕ) where
  | main
  | producer (p : Fin nProducers)
  | consumer (c : Fin nConsumers)
  deriving DecidableEq

/-- A loop in which the queue is called in each round: its counter, and whether a call is in
progress. -/
structure Loop where
  i : ℕ
  calling : Bool
  deriving DecidableEq

/-- A consumer: its variable `item`, whether a call is in progress, whether it has left the loop, and
`consumedItems[c]`. -/
structure Consumer (V : Type) where
  item : V
  calling : Bool
  stopped : Bool
  consumed : List ℤ

/-- The threads, where `main` is in the loop that enqueues `end_ptr`. -/
structure State (V : Type) (nProducers nConsumers : ℕ) where
  main : Loop
  producer : Fin nProducers → Loop
  consumer : Fin nConsumers → Consumer V

namespace Test

variable {V : Type} (T : Test V)

/-- The number of items. -/
def count : ℕ := T.nProducers * T.perProducer

/-- The variable `start` of a producer. -/
def start (p : Fin T.nProducers) : ℕ := p * T.perProducer

/-- All producers can be joined. -/
def Produced (s : State V T.nProducers T.nConsumers) : Prop :=
  ∀ p, s.producer p = ⟨T.perProducer, false⟩

/-- All threads can be joined. -/
def Finished (s : State V T.nProducers T.nConsumers) : Prop :=
  T.Produced s ∧ s.main = ⟨T.nConsumers, false⟩ ∧ ∀ c, (s.consumer c).stopped = true

instance : DecidablePred T.Produced := fun _ => inferInstanceAs (Decidable (∀ _, _))

instance : DecidablePred T.Finished := fun _ => inferInstanceAs (Decidable (_ ∧ _))

/-- The state in which the threads are created. The variable `item` of a consumer has not been
initialized. -/
def init (junk : Fin T.nConsumers → V) : State V T.nProducers T.nConsumers where
  main := ⟨0, false⟩
  producer _ := ⟨0, false⟩
  consumer c := ⟨junk c, false, false, []⟩

variable [DecidableEq V]

/-- The calls the threads may make. -/
def call (s : State V T.nProducers T.nConsumers) :
    Thread T.nProducers T.nConsumers → QueueOp V → Option (State V T.nProducers T.nConsumers)
  | .producer p, .enqueue x =>
      let i := (s.producer p).i
      if (s.producer p).calling = false ∧ i < T.perProducer ∧ x = T.item (T.start p + i) then
        some { s with producer := Function.update s.producer p ⟨i, true⟩ }
      else none
  | .consumer c, .dequeue item =>
      let k := s.consumer c
      if k.calling = false ∧ k.stopped = false ∧ item = k.item then
        some { s with consumer := Function.update s.consumer c { k with calling := true } }
      else none
  | .main, .enqueue x =>
      if T.Produced s ∧ s.main.calling = false ∧ s.main.i < T.nConsumers ∧ x = T.endPtr then
        some { s with main := ⟨s.main.i, true⟩ }
      else none
  | _, _ => none

/-- What a consumer does when its dequeue returns. -/
def receive (k : Consumer V) (success : Bool) (item : V) : Consumer V :=
  if success then
    if item = T.endPtr then ⟨item, false, true, k.consumed⟩
    else ⟨item, false, k.stopped, k.consumed ++ [T.load item]⟩
  else ⟨item, false, k.stopped, k.consumed⟩

/-- What the threads do when a call returns. -/
def ret (s : State V T.nProducers T.nConsumers) :
    Thread T.nProducers T.nConsumers → QueueRes V → State V T.nProducers T.nConsumers
  | .producer p, _ =>
      { s with producer := Function.update s.producer p ⟨(s.producer p).i + 1, false⟩ }
  | .consumer c, .dequeued success item =>
      { s with
        consumer := Function.update s.consumer c (T.receive (s.consumer c) success item) }
  | .consumer _, .enqueued => s
  | .main, _ => { s with main := ⟨s.main.i + 1, false⟩ }

/-- The test as a client of a queue. Its threads make no steps that have to do with each other but
the calls. -/
def client (junk : Fin T.nConsumers → V) :
    Client (Thread T.nProducers T.nConsumers) (QueueOp V) (QueueRes V) Empty
      (State V T.nProducers T.nConsumers) where
  init := T.init junk
  call i o s := T.call s i o
  ret i v s := T.ret s i v
  move _ ch _ := ch.elim

end Test

/-! ### What is checked at the end -/

/-- One round of the loop over the values a consumer has read, which have to come in the order of
their producer. When the assertion fails, or the access is not to an entry of `lastSeen`, there is
no next state of `lastSeen`. -/
def look (perProducer : ℕ) (lastSeen : List ℤ) (val : ℤ) : Option (List ℤ) :=
  let producerId := val.tdiv perProducer
  if producerId < 0 then none
  else
    match lastSeen[producerId.toNat]? with
    | none => none
    | some last => if last < val then some (lastSeen.set producerId.toNat val) else none

namespace Test

variable {V : Type} (T : Test V)

/-- The values a consumer has read come in the order of their producers. -/
def ordered (v : List ℤ) : Bool :=
  (v.foldlM (look T.perProducer) (List.replicate T.nProducers (-1))).isSome

/-- `allConsumedItems`, sorted. -/
def allConsumed (s : State V T.nProducers T.nConsumers) : List ℤ :=
  ((List.finRange T.nConsumers).flatMap fun c => (s.consumer c).consumed).mergeSort

/-- The assertions hold. -/
def passes (s : State V T.nProducers T.nConsumers) : Bool :=
  ((List.finRange T.nConsumers).all fun c => T.ordered (s.consumer c).consumed) &&
    decide (T.allConsumed s = (List.range T.count).map fun i : ℕ => (i : ℤ))

end Test

end Correctness
