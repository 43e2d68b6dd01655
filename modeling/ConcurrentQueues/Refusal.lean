import ConcurrentQueues.Library.Output
import ConcurrentQueues.Library.Script
import ConcurrentQueues.LCRQueue.Delivery
import ConcurrentQueues.LPRQueue.Delivery
import ConcurrentQueues.MSQueue.Linearizable
import ConcurrentQueues.MutexQueue.Refines
import ConcurrentQueues.PLJQueue.Model
import ConcurrentQueues.TwoLockQueue.Model
import ConcurrentQueues.ValoisQueue.Linearizable

/-!
# What a refused dequeue leaves in the output variable

Five of the queues write the caller's variable only with an item that is their own. `MSQueue`
and `ValoisQueue` write it before the CAS of the head which decides who gets the item. When
that CAS fails and the queue is then found empty, the variable holds an item that another
dequeue has returned.
-/

open Machine

variable {ι V : Type}

/-! ### MSQueue -/

namespace MSQueue

/-- The content of the output variable while the dequeue may be refused, except between reading an
item and the CAS. -/
def Local.kept : Local V → Option V
  | .dequeue (.d2 pvalue) | .dequeue (.d3 pvalue _) | .dequeue (.d4 pvalue _ _)
  | .dequeue (.d5 pvalue _ _ _) | .dequeue (.d8 pvalue) | .dequeue (.d10 pvalue _ _)
  | .dequeue (.d12 pvalue _ _) => some pvalue
  | _ => none

/-- The item of the node that the next access fails to take: the CAS of `Head` at D13 is about to
fail. -/
def loses (s : Shared V) : Local V → Option V
  | .dequeue (.d13 _ head next) =>
      if s.head = head then none else next.ptr.map fun p => (s.node p).value
  | _ => none

variable [Inhabited V]

/-- An access keeps the content of the output variable, or loses the item in it. -/
theorem kept_step {i : ι} {s s' : Shared V} {a : Spine ι} {l l' : Local V} {t : Tag} {y : V}
    (hl : Knows i (s, a) (some l)) (hs : (machine ι V).step i () s l = some (s', l', t))
    (hy : l'.kept = some y) :
  loses s l = some y ∨ loses s l = none ∧ l.kept = some y
  := by
  rcases step_inv hs with ⟨pc, pc', rfl, rfl, -⟩ | ⟨pc, pc', rfl, rfl, hpc⟩
  · cases hy
  · cases pc with
    | d2 pvalue | d3 pvalue head =>
        cases hpc
        exact Or.inr ⟨rfl, hy⟩
    | d4 pvalue head tail =>
        obtain ⟨p, -, heq⟩ := Option.map_eq_some_iff.mp hpc
        cases heq
        exact Or.inr ⟨rfl, hy⟩
    | d5 pvalue head tail next =>
        refine Or.inr ⟨rfl, ?_⟩
        simp only [dequeue] at hpc
        split at hpc
        · split at hpc
          · split at hpc
            · cases hpc
              exact hy
            · cases hpc
              exact hy
          · cases hpc
            exact hy
        · cases hpc
          exact hy
    | d10 pvalue tail next =>
        refine Or.inr ⟨rfl, ?_⟩
        simp only [dequeue] at hpc
        split at hpc
        · cases hpc
          exact hy
        · cases hpc
          exact hy
    | d12 pvalue head next =>
        obtain ⟨p, -, heq⟩ := Option.map_eq_some_iff.mp hpc
        cases heq
        cases hy
    | d13 pvalue head next =>
        obtain ⟨_, _, _, p, hp, -, hvalue⟩ := hl
        simp only [dequeue] at hpc
        split at hpc
        case isTrue =>
          cases hpc
          cases hy
        case isFalse hne =>
          cases hpc
          cases hy
          apply Or.inl
          rw [loses, if_neg hne, hp]
          exact congrArg some hvalue
    | d8 pvalue => cases hpc
    | d20 pvalue => cases hpc

theorem keepsOutputUnlessLost [DecidableEq ι] {n : ℕ} (r : (machine ι V).Run n) :
  r.KeepsOutputUnlessLost loses
  := by
  apply r.keepsOutputUnlessLost loses Local.kept
  · exact fun _ => rfl
  · intro l v hv
    rcases result_eq_some ι hv with ⟨item, -, ⟨⟩⟩ | ⟨item, rfl, ⟨⟩⟩ | ⟨item, -, ⟨⟩⟩
    rfl
  · intro k hk l ch s l' t y hl hs hy
    obtain ⟨-, hL⟩ := (outline ι V).sound (r.lift (ghost ι V) fun _ _ => trivial) k (le_of_lt hk)
    have hself : Knows (r.who k) ((r.conf k).shared, r.trail (ghost ι V) k)
        ((r.conf k).thread (r.who k)) := hL (r.who k)
    rw [hl] at hself
    exact kept_step hself hs hy

end MSQueue

/-! ### ValoisQueue -/

namespace ValoisQueue

/-- The content of the output variable while the dequeue may be refused, except between reading an
item and the CAS. -/
def Local.kept : Local V → Option V
  | .dequeue (.loadHead item) | .dequeue (.loadTail item _) | .dequeue (.loadNext item _ _)
  | .dequeue (.checkHead item _ _ _) | .dequeue (.refused item) | .dequeue (.help item _ _)
  | .dequeue (.readItem item _ _) => some item
  | _ => none

/-- The item of the node that the next access fails to take: the CAS of `head_` is about to fail. -/
def loses (s : Shared V) : Local V → Option V
  | .dequeue (.swing _ head next) =>
      if s.head = head then none else next.map fun p => (s.node p).item
  | _ => none

variable [Inhabited V]

/-- An access keeps the content of the output variable, or loses the item in it. -/
theorem kept_step {i : ι} {weak : Bool} {s s' : Shared V} {a : Spine ι} {l l' : Local V} {t : Tag}
    {y : V} (hl : Knows i (s, a) (some l))
    (hs : (machine ι V).step i weak s l = some (s', l', t)) (hy : l'.kept = some y) :
  loses s l = some y ∨ loses s l = none ∧ l.kept = some y
  := by
  rcases step_inv hs with ⟨pc, pc', rfl, rfl, -⟩ | ⟨pc, pc', rfl, rfl, hpc⟩
  · cases hy
  · cases pc with
    | loadHead item | loadTail item head =>
        cases hpc
        exact Or.inr ⟨rfl, hy⟩
    | loadNext item head tail =>
        obtain ⟨p, -, heq⟩ := Option.map_eq_some_iff.mp hpc
        cases heq
        exact Or.inr ⟨rfl, hy⟩
    | checkHead item head tail next =>
        refine Or.inr ⟨rfl, ?_⟩
        simp only [dequeue] at hpc
        split at hpc
        · cases hpc
          exact hy
        · split at hpc
          · cases hpc
            exact hy
          · split at hpc
            · cases hpc
              exact hy
            · cases hpc
              exact hy
    | help item tail next =>
        refine Or.inr ⟨rfl, ?_⟩
        simp only [dequeue] at hpc
        split at hpc
        · cases hpc
          exact hy
        · cases hpc
          exact hy
    | readItem item head next =>
        obtain ⟨p, -, heq⟩ := Option.map_eq_some_iff.mp hpc
        cases heq
        cases hy
    | swing item head next =>
        obtain ⟨_, _, _, p, hp, -, hvalue⟩ := hl
        simp only [dequeue] at hpc
        split at hpc
        case isTrue =>
          cases hpc
          cases hy
        case isFalse hne =>
          cases hpc
          cases hy
          apply Or.inl
          rw [loses, if_neg hne, hp]
          exact congrArg some hvalue
    | loadRetired item node =>
        cases hpc
        cases hy
    | storeRetiredNext item node oldRetired =>
        obtain ⟨p, -, heq⟩ := Option.map_eq_some_iff.mp hpc
        cases heq
        cases hy
    | casRetired item node oldRetired =>
        obtain ⟨p, -, heq⟩ := Option.map_eq_some_iff.mp hpc
        split at heq
        · cases heq
          cases hy
        · cases heq
          cases hy
    | refused item => cases hpc
    | done item => cases hpc

theorem keepsOutputUnlessLost [DecidableEq ι] {n : ℕ} (r : (machine ι V).Run n) :
  r.KeepsOutputUnlessLost loses
  := by
  apply r.keepsOutputUnlessLost loses Local.kept
  · exact fun _ => rfl
  · intro l v hv
    rcases result_eq_some ι hv with ⟨item, -, ⟨⟩⟩ | ⟨item, rfl, ⟨⟩⟩ | ⟨item, -, ⟨⟩⟩
    rfl
  · intro k hk l ch s l' t y hl hs hy
    obtain ⟨-, hL⟩ := (outline ι V).sound (r.lift (ghost ι V) fun _ _ => trivial) k (le_of_lt hk)
    have hself : Knows (r.who k) ((r.conf k).shared, r.trail (ghost ι V) k)
        ((r.conf k).thread (r.who k)) := hL (r.who k)
    rw [hl] at hself
    exact kept_step hself hs hy

end ValoisQueue

/-! ### The other queues -/

namespace MutexQueue

/-- The content of the output variable before it is written. -/
def Local.kept : Local V → Option V
  | .dequeue (.delete _ _) | .dequeue (.done _) => none
  | .dequeue (.lock item) | .dequeue (.testHead item) | .dequeue (.unlockEmpty item)
  | .dequeue (.refused item) | .dequeue (.readHead item) | .dequeue (.rereadHead item _)
  | .dequeue (.readNext item _ _) | .dequeue (.writeHead item _ _) | .dequeue (.testEmpty item _)
  | .dequeue (.clearTail item _) | .dequeue (.unlock item _) | .dequeue (.readItem item _) =>
      some item
  | .enqueue _ => none

theorem keepsOutput [DecidableEq ι] {n : ℕ} (r : (machine ι V).Run n) :
  r.KeepsOutput
  := by
  apply r.keepsOutput Local.kept
  · exact fun _ => rfl
  · intro l v hv
    rcases result_eq_some ι hv with ⟨item, -, ⟨⟩⟩ | ⟨item, rfl, ⟨⟩⟩ | ⟨item, -, ⟨⟩⟩
    rfl
  · intro i ch s l s' l' t y hs hy
    rcases step_inv hs with ⟨pc, pc', rfl, rfl, -⟩ | ⟨pc, pc', rfl, rfl, hpc⟩
    · cases hy
    · cases pc with
      | lock item =>
          simp only [dequeue, Option.ite_none_right_eq_some] at hpc
          cases hpc.2
          exact hy
      | testHead item | testEmpty item tmp =>
          simp only [dequeue] at hpc
          split at hpc
          · cases hpc
            exact hy
          · cases hpc
            exact hy
      | readNext item tmp head =>
          obtain ⟨p, -, hpc⟩ := Option.bind_eq_some_iff.mp hpc
          obtain ⟨v, -, hpc⟩ := Option.bind_eq_some_iff.mp hpc
          cases hpc
          exact hy
      | readItem item tmp =>
          obtain ⟨p, -, hpc⟩ := Option.bind_eq_some_iff.mp hpc
          obtain ⟨v, -, hpc⟩ := Option.bind_eq_some_iff.mp hpc
          cases hpc
          cases hy
      | delete item tmp =>
          obtain ⟨p, -, hpc⟩ := Option.bind_eq_some_iff.mp hpc
          obtain ⟨v, -, hpc⟩ := Option.bind_eq_some_iff.mp hpc
          cases hpc
          cases hy
      | refused item => cases hpc
      | done item => cases hpc
      | _ =>
          cases hpc
          exact hy

end MutexQueue

namespace TwoLockQueue

/-- The content of the output variable before it is written. -/
def Local.kept : Local V → Option V
  | .dequeue (.lock item) | .dequeue (.readHead item) | .dequeue (.loadNext item _)
  | .dequeue (.unlockEmpty item) | .dequeue (.refused item) | .dequeue (.readItem item _ _) =>
      some item
  | _ => none

theorem keepsOutput [Inhabited V] [DecidableEq ι] {n : ℕ} (r : (machine ι V).Run n) :
  r.KeepsOutput
  := by
  apply r.keepsOutput Local.kept
  · exact fun _ => rfl
  · intro l v hv
    rcases result_eq_some ι hv with ⟨item, -, ⟨⟩⟩ | ⟨item, rfl, ⟨⟩⟩ | ⟨item, -, ⟨⟩⟩
    rfl
  · intro i ch s l s' l' t y hs hy
    rcases step_inv hs with ⟨pc, pc', rfl, rfl, -⟩ | ⟨pc, pc', rfl, rfl, hpc⟩
    · cases hy
    · cases pc with
      | lock item =>
          simp only [dequeue, Option.ite_none_right_eq_some] at hpc
          cases hpc.2
          exact hy
      | loadNext item dummy =>
          obtain ⟨c, -, heq⟩ := Option.map_eq_some_iff.mp hpc
          split at heq
          · cases heq
            exact hy
          · cases heq
            exact hy
      | readItem item dummy newHead =>
          obtain ⟨c, -, heq⟩ := Option.map_eq_some_iff.mp hpc
          cases heq
          cases hy
      | delete item dummy =>
          obtain ⟨c, -, heq⟩ := Option.map_eq_some_iff.mp hpc
          cases heq
          cases hy
      | refused item => cases hpc
      | done item => cases hpc
      | _ =>
          cases hpc
          exact hy

end TwoLockQueue

namespace PLJQueue

/-- The content of the output variable before it is written. -/
def Local.kept : Local V → Option V
  | .dequeue (.snapshot item _) | .dequeue (.loadHeadNext item _) | .dequeue (.shiftHead item _ _)
  | .dequeue (.mark item _ _ _) | .dequeue (.markTail item _ _ _) | .dequeue (.markHead item _ _)
  | .dequeue (.drainTail item _ _) | .dequeue (.drainHead item _) | .dequeue (.loadTailNext item _)
  | .dequeue (.shiftTail item _ _) | .dequeue (.fillHead item _ _) | .dequeue (.delinkLoad item _)
  | .dequeue (.delinkStore item _ _) | .dequeue (.readData item _) | .dequeue (.refused item) =>
      some item
  | _ => none

theorem kept_switch {item : V} {head tail next : Pointer} :
  Local.kept (.dequeue (.switch item head tail next)) = some item
  := by
  rw [Dequeue.switch]
  split <;> rfl

theorem kept_extract {item : V} {object : Option ℕ} :
  Local.kept (.dequeue (.extract item object)) = some item
  := by
  cases object with
  | none => rfl
  | some p => rfl

theorem kept_afterSnapshot {item : V} {pc : Snapshot} :
  Local.kept (.dequeue (.afterSnapshot item pc)) = some item
  := by
  cases pc with
  | done head tail next => exact kept_switch
  | _ => rfl

theorem keepsOutput [Inhabited V] [DecidableEq ι] {n : ℕ} (r : (machine ι V).Run n) :
  r.KeepsOutput
  := by
  apply r.keepsOutput Local.kept
  · exact fun _ => rfl
  · intro l v hv
    rcases result_eq_some ι hv with ⟨item, -, ⟨⟩⟩ | ⟨item, rfl, ⟨⟩⟩ | ⟨item, -, ⟨⟩⟩
    rfl
  · intro i ch s l s' l' t y hs hy
    rcases step_inv hs with ⟨pc, pc', rfl, rfl, -⟩ | ⟨pc, pc', rfl, rfl, hpc⟩
    · cases hy
    · cases pc with
      | snapshot item pc =>
          obtain ⟨⟨pc₁, _⟩, -, heq⟩ := Option.map_eq_some_iff.mp hpc
          cases heq
          exact kept_afterSnapshot.symm.trans hy
      | loadHeadNext item head | loadTailNext item tail =>
          obtain ⟨p, -, heq⟩ := Option.map_eq_some_iff.mp hpc
          cases heq
          exact hy
      | mark item head tail next =>
          obtain ⟨p, -, heq⟩ := Option.map_eq_some_iff.mp hpc
          split at heq
          · cases heq
            exact hy
          · cases heq
            exact hy
      | shiftHead item head next =>
          simp only [dequeue] at hpc
          split at hpc
          · cases hpc
            exact kept_extract.symm.trans hy
          · cases hpc
            exact hy
      | markHead item object head =>
          simp only [dequeue] at hpc
          split at hpc
          · cases hpc
            exact kept_extract.symm.trans hy
          · cases hpc
            exact kept_extract.symm.trans hy
      | readData item object =>
          cases hpc
          cases hy
      | refused item => cases hpc
      | done item => cases hpc
      | delinkLoad item object | delinkStore item object oldNext =>
          cases hpc
          exact hy
      | _ =>
          simp only [dequeue] at hpc
          split at hpc
          · cases hpc
            exact hy
          · cases hpc
            exact hy

end PLJQueue

namespace RingQueue

variable {ρ ℓ A : Type} {M : Machine ι ρ ℓ (RingOp ℕ) (RingRes ℕ) (RingTag ℕ) Unit}
  {T : M.TicketRing A} {twice : Bool}
  {dequeue : ι → Shared ρ → Dequeue ℓ → Option (Shared ρ × Dequeue ℓ × Tag)}

/-- The content of the output variable before it is written. -/
def Local.kept : Local ℓ → Option ℕ
  | .dequeue (.done _) => none
  | .dequeue (.loadHead item) | .dequeue (.ring item _ _) | .dequeue (.loadNext item _)
  | .dequeue (.retry item _ _ _) | .dequeue (.casHead item _ _) | .dequeue (.refused item) =>
      some item
  | .enqueue _ => none

theorem keepsOutput [DecidableEq ι] (hD : Dequeues M T.null twice dequeue) {n : ℕ}
    (r : (machine M dequeue).Run n) :
  r.KeepsOutput
  := by
  apply r.keepsOutput Local.kept
  · exact fun _ => rfl
  · intro l v hv
    match l, hv with
    | .dequeue (.refused item), rfl => rfl
  · intro i ch s l s' l' t y hs hy
    rcases step_inv hD hs with ⟨pc, pc', rfl, rfl, -⟩ | ⟨pc, pc', rfl, rfl, hpc⟩
    · cases hy
    · cases hpc with
      | give => cases hy
      | retryGive => cases hy
      | _ => exact hy

end RingQueue

/-! ### All queues -/

section all

variable [DecidableEq ι] [Inhabited V]

/-- A refused dequeue of `MSQueue` and of `ValoisQueue` leaves the output variable as it was exactly
when it has lost no item to another dequeue, or only what the variable held. Those of the
other queues always do. -/
theorem queues_keepOutput :
  (∀ n (r : (MSQueue.machine ι V).Run n), r.KeepsOutputUnlessLost MSQueue.loses) ∧
    (∀ n (r : (ValoisQueue.machine ι V).Run n), r.KeepsOutputUnlessLost ValoisQueue.loses) ∧
    (∀ n (r : (MutexQueue.machine ι V).Run n), r.KeepsOutput) ∧
    (∀ n (r : (TwoLockQueue.machine ι V).Run n), r.KeepsOutput) ∧
    (∀ n (r : (PLJQueue.machine ι V).Run n), r.KeepsOutput) ∧
    (∀ n (r : (LCRQueue.machine ι).Run n), r.KeepsOutput) ∧
    ∀ (tokens : PRQ.Tokens ι) n (r : (LPRQueue.machine tokens).Run n), r.KeepsOutput
  := by
  refine ⟨?_, ?_, ?_, ?_, ?_, ?_, ?_⟩
  · exact fun _ => MSQueue.keepsOutputUnlessLost
  · exact fun _ => ValoisQueue.keepsOutputUnlessLost
  · exact fun _ => MutexQueue.keepsOutput
  · exact fun _ => TwoLockQueue.keepsOutput
  · exact fun _ => PLJQueue.keepsOutput
  · exact fun _ => RingQueue.keepsOutput LCRQueue.dequeue_step
  · exact fun _ _ => RingQueue.keepsOutput LPRQueue.dequeue_step

end all

/-! ### The race for the last item -/

/-- Thread 0 enqueues 7. Thread 1 reads the item for a dequeue and rests before the CAS of the head.
Thread 0 dequeues the item, with `k` accesses. Thread 1 loses the CAS and finds the queue empty. -/
def race {Ch : Type} (ch : Ch) (k : ℕ) : List (ℕ × Move (QueueOp ℕ) Ch) :=
  (0, .call (.enqueue 7)) :: List.replicate 6 (0, .act ch) ++ (0, .ret) ::
    (1, .call (.dequeue 0)) :: List.replicate 5 (1, .act ch) ++
    (0, .call (.dequeue 0)) :: List.replicate k (0, .act ch) ++ (0, .ret) ::
    List.replicate 5 (1, .act ch) ++ [(1, .ret)]

namespace MSQueue

instance : DecidablePred (machine ℕ ℕ).valid := fun _ => inferInstanceAs (Decidable True)

instance : DecidablePred (machine ℕ ℕ).legal := fun _ => inferInstanceAs (Decidable True)

theorem race_plays :
  ((machine ℕ ℕ).play ⟨(machine ℕ ℕ).init, fun _ => none⟩ (race () 6)).isSome
  := by decide +kernel

/-- The run in which thread 1 is refused with the item of thread 0. -/
@[irreducible]
def raced : (machine ℕ ℕ).Run (race () 6).length := Run.ofScript (race () 6) trivial race_plays

theorem raced_returns :
  raced.Returns 0 (.dequeue 0) 14 (.dequeued true 7) 21 ∧
    raced.Returns 1 (.dequeue 0) 8 (.dequeued false 7) 27
  := by
  constructor
  · apply Run.returns_of_events
    · decide
    · decide
    · decide +kernel
    · decide +kernel
    · decide +kernel
  · apply Run.returns_of_events
    · decide
    · decide
    · decide +kernel
    · decide +kernel
    · decide +kernel

end MSQueue

namespace ValoisQueue

instance : DecidablePred (machine ℕ ℕ).valid := fun _ => inferInstanceAs (Decidable True)

instance : DecidablePred (machine ℕ ℕ).legal := fun _ => inferInstanceAs (Decidable True)

theorem race_plays :
  ((machine ℕ ℕ).play ⟨(machine ℕ ℕ).init, fun _ => none⟩ (race false 9)).isSome
  := by decide +kernel

/-- The run in which thread 1 is refused with the item of thread 0. -/
@[irreducible]
def raced : (machine ℕ ℕ).Run (race false 9).length :=
  Run.ofScript (race false 9) trivial race_plays

theorem raced_returns :
  raced.Returns 0 (.dequeue 0) 14 (.dequeued true 7) 24 ∧
    raced.Returns 1 (.dequeue 0) 8 (.dequeued false 7) 30
  := by
  constructor
  · apply Run.returns_of_events
    · decide
    · decide
    · decide +kernel
    · decide +kernel
    · decide +kernel
  · apply Run.returns_of_events
    · decide
    · decide
    · decide +kernel
    · decide +kernel
    · decide +kernel

end ValoisQueue

/-- In both queues the refused dequeue leaves the item 7, which the other dequeue returns, in a
variable that held 0. -/
theorem raced_leavesItem :
  (MSQueue.raced.Returns 0 (.dequeue 0) 14 (.dequeued true 7) 21 ∧ ¬ MSQueue.raced.KeepsOutput) ∧
    ValoisQueue.raced.Returns 0 (.dequeue 0) 14 (.dequeued true 7) 24 ∧
    ¬ ValoisQueue.raced.KeepsOutput
  := by
  refine ⟨⟨MSQueue.raced_returns.1, ?_⟩, ValoisQueue.raced_returns.1, ?_⟩
  · intro h
    cases h 1 0 8 7 27 MSQueue.raced_returns.2
  · intro h
    cases h 1 0 8 7 30 ValoisQueue.raced_returns.2
