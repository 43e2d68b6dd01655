import ConcurrentQueues.LCRQueue.Model
import ConcurrentQueues.CRQ.Ring
import ConcurrentQueues.Library.Script
import ConcurrentQueues.RingQueue.Items

/-!
# Delivery in LCRQueue

`LCRQueue` delivers items in order, but it loses an item when the head leaves a ring into
which the item has come since the dequeuer saw the ring empty. Unlike `LPRQueue` it does not
look at the ring again after it has read `next`.
-/

namespace LCRQueue

open Machine RingQueue

variable {ι : Type}

/-- The accesses of `dequeue` are those of a dequeue that looks once. -/
theorem dequeue_step :
  Dequeues (CRQ.machine ι) (CRQ.ring ι).null false dequeue
  := by
  intro i s pc s' pc' t hs
  cases pc with
  | loadHead item =>
      cases hs
      exact .loadHead item
  | ring item p l =>
      obtain ⟨⟨s₁, l₁, t₁⟩, hcall, heq⟩ := Option.map_eq_some_iff.mp hs
      cases hv : (CRQ.machine ι).result l₁ with
      | none =>
          simp only [hv] at heq
          cases heq
          exact .ring hcall hv
      | some v =>
          cases v with
          | value v =>
              simp only [hv] at heq
              split at heq
              case isTrue hne =>
                cases heq
                exact .give hcall hv hne
              case isFalse hnull =>
                cases heq
                exact .empty hcall hv fun x hx => by cases hx; exact not_not.mp hnull
          | ok | closed =>
              simp only [hv] at heq
              cases heq
              exact .empty hcall hv nofun
  | loadNext item p =>
      rw [dequeue] at hs
      split at hs
      case h_1 hnext =>
        cases hs
        exact .refuse hnext
      case h_2 q hnext =>
        cases hs
        exact .once hnext rfl
  | retry item p q l => cases hs
  | casHead item p q =>
      rw [dequeue] at hs
      split at hs
      case isTrue hhead =>
        cases hs
        exact .shift hhead
      case isFalse hhead =>
        cases hs
        exact .lose hhead
  | refused item => cases hs
  | done item => cases hs

variable [DecidableEq ι] {n : ℕ}

/-- In the run `r` no item is left behind by the head: when the head leaves a ring, there are only
items in it whose tickets are below the head of the ring, and so it is with the items that
come to the ring later. -/
structure LeavesEmpty (r : (machine ι).Run n) : Prop where
  shift : ∀ i p k, r.Acts i (.shiftHead p) k → ∀ t x, x ≠ CRQ.EMPTY →
    CRQ.Holds ((r.conf k).shared.ring p) t x → t < ((r.conf k).shared.ring p).head
  install : ∀ i p t x k, r.Acts i (.ring p (.install t x)) k → (r.conf k).shared.Left p →
    t < ((r.conf k).shared.ring p).head

/-- The head leaves only empty rings. -/
theorem leftEmpty (r : (machine ι).Run n) (h : LeavesEmpty r) :
  ∀ k ≤ n, LeftEmpty (CRQ.ring ι) (trail (CRQ.ring ι) r k)
  := by
  intro k
  induction k with
  | zero => exact fun _ e he => absurd he (Nat.not_lt_zero e)
  | succ k ih =>
      intro hk e he p hp t x hfull
      have hgrows := grows dequeue_step r (Nat.le_succ k) hk
      obtain ⟨hinv, -⟩ := asserts dequeue_step r (le_of_lt hk)
      have hle : e ≤ (trail (CRQ.ring ι) r k).2.head :=
        Nat.le_of_lt_succ (lt_of_lt_of_le he (head_succ r hk))
      have hlt := (List.getElem?_eq_some_iff.mp hinv.head).1
      have hold := List.getElem?_eq_getElem (lt_of_le_of_lt hle hlt)
      have heq := Option.some.inj ((hgrows.getElem? hold).symm.trans hp)
      rw [heq] at hold
      have hhead : (tickets (CRQ.ring ι) (trail (CRQ.ring ι) r k) p).head
          = ((r.conf k).shared.ring p).head := (hinv.ring p).head
      apply lt_of_lt_of_le _ (hgrows.later p).head
      by_cases hfull' : (tickets (CRQ.ring ι) (trail (CRQ.ring ι) r k) p).enq t = .full x
      · rcases Nat.lt_or_eq_of_le hle with hlt | rfl
        · exact ih (le_of_lt hk) e hlt p hold t x hfull'
        · -- the head leaves the ring at this step
          have hact := shift_of_head dequeue_step r hk le_rfl he hold
          by_contra hge
          have hdeq := (hinv.sane p).deq t (not_lt.mp hge)
          have hholds := (CRQ.ring ι).sound.holds (hinv.ring p) hfull' (by
            rw [show ((CRQ.ring ι).tickets ((trail (CRQ.ring ι) r k).at p).2).deq t = .free from hdeq]
            exact nofun)
          rw [hhead] at hge
          exact hge (h.shift _ p k ⟨hk, rfl, hact⟩ t x ((hinv.ring p).items t x (Or.inr hfull'))
            hholds)
      · -- the item comes to the ring at this step
        have hact := install_of_full dequeue_step r hk hfull' hfull
        rcases Nat.lt_or_eq_of_le hle with hlt | rfl
        · rw [hhead]
          exact h.install _ p t x k ⟨hk, rfl, hact⟩ (left dequeue_step r (le_of_lt hk) hlt hold)
        · cases hact.symm.trans (shift_of_head dequeue_step r hk le_rfl he hold)

/-- `LCRQueue` delivers every item at most once, and in the order of the enqueues. -/
theorem lcrQueue_deliversInOrder (r : (machine ι).Run n) :
  DeliversInOrder r
  := deliversInOrder dequeue_step r

instance : DecidablePred (machine ι).valid
  | .enqueue x => inferInstanceAs (Decidable (x ≠ 0))
  | .dequeue _ => inferInstanceAs (Decidable True)

instance : DecidablePred (machine ι).legal := fun s =>
  inferInstanceAs (Decidable (∀ p < s.fresh, CRQ.Legal (s.ring p)))

theorem init_legal (ι : Type) :
  (machine ι).legal (machine ι).init
  := fun _ _ => CRQ.init_legal

/-- The moves by which thread `i` performs `k` accesses. -/
def accesses (i k : ℕ) : List (ℕ × Move (QueueOp ℕ) Unit) := List.replicate k (i, .act ())

/-- Thread 0 draws ticket 0, and thread 1 burns it with an empty dequeue. Thread 0 finds its cell
burnt, closes the ring and links another one with its item. Thread 1 sees that the first
ring is empty, moves the head, and takes the item. -/
def advance : List (ℕ × Move (QueueOp ℕ) Unit) :=
  (0, .call (.enqueue 8)) :: accesses 0 3 ++ (1, .call (.dequeue 0)) :: accesses 1 10 ++
    (1, .ret) :: accesses 0 10 ++ (0, .ret) :: (1, .call (.dequeue 0)) :: accesses 1 16 ++
    [(1, .ret)]

theorem advance_plays :
  ((machine ℕ).play ⟨(machine ℕ).init, fun _ => none⟩ advance).isSome
  := by decide +kernel

/-- The run in which thread 1 moves the head from an empty ring. -/
@[irreducible]
def advanced : (machine ℕ).Run advance.length :=
  Run.ofScript advance (init_legal ℕ) advance_plays

/-- Whether an access leaves no item behind: the head leaves a ring which holds only items with
tickets below its head, and items come only to rings behind which none is linked. -/
def Leaves (s : Shared) : Option Tag → Bool
  | some (.shiftHead p) => decide (∀ c < CRQ.R, ((s.ring p).array c).val ≠ CRQ.EMPTY →
      CRQ.decodeNodeIdx ((s.ring p).array c).safeAndIdx < (s.ring p).head)
  | some (.ring p (.install _ _)) => decide (s.next p = none)
  | _ => true

theorem advanced_leaves :
  ∀ k < advance.length, Leaves (advanced.conf k).shared (advanced.tag k) = true
  := by decide +kernel

example :
  (advanced.conf advance.length).shared.head = 1
  := by decide +kernel

theorem advanced_leavesEmpty :
  LeavesEmpty advanced
  := by
  have htag : ∀ {i t k}, advanced.Acts i t k → Leaves (advanced.conf k).shared (some t) = true := by
    intro i t k hact
    have hleaves := advanced_leaves k hact.1
    rwa [Run.tag_eq_some.mpr hact.2.2] at hleaves
  constructor
  case shift =>
    rintro i p k hact t x hx ⟨hidx, hval⟩
    have hclear := htag hact
    rw [Leaves, decide_eq_true_eq] at hclear
    have hcell := hclear (t % CRQ.R) (Nat.mod_lt _ CRQ.R_pos)
    rw [hidx, hval] at hcell
    exact hcell hx
  case install =>
    intro i p t x k hact hleft
    have hnext := htag hact
    rw [Leaves, decide_eq_true_eq] at hnext
    obtain ⟨q, hq, -⟩ := Relation.TransGen.head'_iff.mp hleft
    cases hnext.symm.trans hq

/-- Thread 0 sees the first ring empty and rests before it reads `next`. Thread 1 draws ticket 1,
thread 2 burns it with an empty dequeue and then enqueues 7 with ticket 2. Thread 1 finds
its cell burnt, closes the ring and links another one. Now thread 0 moves the head. -/
def strand : List (ℕ × Move (QueueOp ℕ) Unit) :=
  (0, .call (.dequeue 0)) :: accesses 0 10 ++ (1, .call (.enqueue 8)) :: accesses 1 3 ++
    (2, .call (.dequeue 0)) :: accesses 2 10 ++ (2, .ret) ::
    (2, .call (.enqueue 7)) :: accesses 2 6 ++ (2, .ret) :: accesses 1 10 ++ accesses 0 2

theorem strand_plays :
  ((machine ℕ).play ⟨(machine ℕ).init, fun _ => none⟩ strand).isSome
  := by decide +kernel

/-- The run in which thread 0 leaves the item 7 behind. -/
@[irreducible]
def stranded : (machine ℕ).Run strand.length := Run.ofScript strand (init_legal ℕ) strand_plays

theorem stranded_returns :
  stranded.Returns 2 (.enqueue 7) 27 .enqueued 34
  := by
  apply Run.returns_of_events
  · decide
  · decide
  · decide +kernel
  · decide +kernel
  · decide +kernel

/-- Whether an access fits an item that thread 2 has put into the first ring with ticket 2, that
is not removed, and whose ticket no dequeue draws. -/
def Strands (i : ℕ) : Option Tag → Bool
  | some (.ring p (.install t _)) => decide (i = 2 → p = 0 ∧ t = 2)
  | some (.ring _ (.take _ _)) => false
  | some (.ring p (.drawHead t)) => decide (p = 0 → t ≠ 2)
  | _ => true

theorem stranded_strands :
  ∀ k < strand.length, Strands (stranded.who k) (stranded.tag k) = true
  := by decide +kernel

theorem stranded_head :
  (stranded.conf strand.length).shared.head ≠ 0 ∧
    (stranded.conf strand.length).shared.next (stranded.conf strand.length).shared.head = none
  := by decide +kernel

example :
  (((stranded.conf strand.length).shared.ring 0).array 2).val = 7
  := by decide +kernel

end LCRQueue
