import ConcurrentQueues.Library.ListProgress
import ConcurrentQueues.MSQueue.Linearizable

/-!
# MSQueue is lock-free

In each iteration of the loops at `E4` and `D1` that does not end the operation some thread
links a node or swings tail or head: what the iteration has read stays as it is until then,
and an iteration for which nothing has changed ends the operation.
-/

namespace MSQueue

open Machine Spine

variable {ι V : Type}

/-- What each step does to the list. -/
def change : Tag → ListChange
  | .silent => .none
  | .alloc node => .alloc node
  | .link node => .link node
  | .swingTail => .swingTail
  | .swingHead => .swingHead

/-- The tops of the loops of `enqueue` and `dequeue`. -/
def Top : Option (Local V) → Local V → Prop
  | _, .enqueue (.e5 _ _) => True
  | _, .dequeue (.d2 _) => True
  | _, _ => False

/-- Head, tail and the node to which the tail points are as the thread has read them in the
present iteration. -/
def Enqueue.Fresh (s : Shared V) : Enqueue V → Prop
  | .e1 _ => False
  | .e6 _ _ tail | .e13 _ _ tail _ => s.tail = tail
  | .e7 _ _ tail next | .e9 _ _ tail next =>
      s.tail = tail ∧ ∀ t, tail.ptr = some t → (s.node t).next = next
  | .e5 _ _ | .e17 _ _ _ | .done _ => True

def Dequeue.Fresh (s : Shared V) : Dequeue V → Prop
  | .d3 _ head | .d12 _ head _ | .d13 _ head _ => s.head = head
  | .d4 _ head tail | .d5 _ head tail _ => s.head = head ∧ s.tail = tail
  | .d10 _ tail _ => s.tail = tail
  | .d2 _ | .d8 _ | .d20 _ => True

def Fresh (s : Shared V × Spine ι) : Local V → Prop
  | .enqueue pc => pc.Fresh s.1
  | .dequeue pc => pc.Fresh s.1

/-- A step that keeps head, tail and the nodes allocated so far. -/
structure Kept (s s' : Shared V) : Prop where
  head : s'.head = s.head
  tail : s'.tail = s.tail
  node : ∀ p < s.fresh, s'.node p = s.node p

section step

variable {s s' : Shared V} {t : Tag}

theorem enqueue_kept {pc pc' : Enqueue V} (hs : enqueue s pc = some (s', pc', t))
    (ht : (change t).isChange = false) :
  Kept s s'
  := by
  cases pc with
  | e1 value =>
      cases hs
      exact ⟨rfl, rfl, fun p hp => Function.update_of_ne (ne_of_lt hp) ..⟩
  | e5 value node =>
      cases hs
      exact ⟨rfl, rfl, fun _ _ => rfl⟩
  | e6 value node tail =>
      obtain ⟨p, -, heq⟩ := Option.map_eq_some_iff.mp hs
      cases heq
      exact ⟨rfl, rfl, fun _ _ => rfl⟩
  | e7 value node tail next =>
      simp only [enqueue] at hs
      split at hs
      · split at hs
        · cases hs
          exact ⟨rfl, rfl, fun _ _ => rfl⟩
        · cases hs
          exact ⟨rfl, rfl, fun _ _ => rfl⟩
      · cases hs
        exact ⟨rfl, rfl, fun _ _ => rfl⟩
  | e9 value node tail next =>
      obtain ⟨p, -, heq⟩ := Option.map_eq_some_iff.mp hs
      split at heq
      · cases heq
        cases ht
      · cases heq
        exact ⟨rfl, rfl, fun _ _ => rfl⟩
  | e13 value node tail next =>
      simp only [enqueue] at hs
      split at hs
      · cases hs
        cases ht
      · cases hs
        exact ⟨rfl, rfl, fun _ _ => rfl⟩
  | e17 value node tail =>
      simp only [enqueue] at hs
      split at hs
      · cases hs
        cases ht
      · cases hs
        exact ⟨rfl, rfl, fun _ _ => rfl⟩
  | done value => cases hs

theorem dequeue_kept {pc pc' : Dequeue V} (hs : dequeue s pc = some (s', pc', t))
    (ht : (change t).isChange = false) :
  s' = s
  := by
  cases pc with
  | d2 pvalue | d3 pvalue head =>
      cases hs
      rfl
  | d4 pvalue head tail | d12 pvalue head next =>
      obtain ⟨p, -, heq⟩ := Option.map_eq_some_iff.mp hs
      cases heq
      rfl
  | d5 pvalue head tail next =>
      simp only [dequeue] at hs
      split at hs
      · split at hs
        · split at hs
          · cases hs
            rfl
          · cases hs
            rfl
        · cases hs
          rfl
      · cases hs
        rfl
  | d10 pvalue tail next | d13 pvalue head next =>
      simp only [dequeue] at hs
      split at hs
      · cases hs
        cases ht
      · cases hs
        rfl
  | d8 pvalue | d20 pvalue => cases hs

/-- A step of `enqueue` that changes nothing keeps what has been read fresh, and does not lead
back to the top of the loop. -/
theorem enqueue_fresh {pc pc' : Enqueue V} (hpc : pc.Fresh s)
    (hs : enqueue s pc = some (s', pc', t)) (ht : (change t).isChange = false) :
  pc'.Fresh s' ∧ ¬ Top (some (.enqueue pc)) (.enqueue pc')
  := by
  cases pc with
  | e1 value => cases hpc
  | e5 value node =>
      cases hs
      exact ⟨rfl, not_false⟩
  | e6 value node tail =>
      obtain ⟨p, hp, heq⟩ := Option.map_eq_some_iff.mp hs
      cases heq
      refine ⟨⟨hpc, ?_⟩, not_false⟩
      intro q hq
      cases hp.symm.trans hq
      rfl
  | e7 value node tail next =>
      simp only [enqueue, if_pos hpc.1.symm] at hs
      split at hs
      · cases hs
        exact ⟨hpc, not_false⟩
      · cases hs
        exact ⟨hpc.1, not_false⟩
  | e9 value node tail next =>
      obtain ⟨p, hp, heq⟩ := Option.map_eq_some_iff.mp hs
      rw [if_pos (hpc.2 p hp)] at heq
      cases heq
      cases ht
  | e13 value node tail next =>
      simp only [enqueue, if_pos (show s.tail = tail from hpc)] at hs
      cases hs
      cases ht
  | e17 value node tail =>
      simp only [enqueue] at hs
      split at hs
      · cases hs
        cases ht
      · cases hs
        exact ⟨trivial, not_false⟩
  | done value => cases hs

theorem dequeue_fresh {pc pc' : Dequeue V} (hpc : pc.Fresh s)
    (hs : dequeue s pc = some (s', pc', t)) (ht : (change t).isChange = false) :
  pc'.Fresh s' ∧ ¬ Top (some (.dequeue pc)) (.dequeue pc')
  := by
  cases pc with
  | d2 pvalue =>
      cases hs
      exact ⟨rfl, not_false⟩
  | d3 pvalue head =>
      cases hs
      exact ⟨⟨hpc, rfl⟩, not_false⟩
  | d4 pvalue head tail =>
      obtain ⟨p, hp, heq⟩ := Option.map_eq_some_iff.mp hs
      cases heq
      exact ⟨hpc, not_false⟩
  | d5 pvalue head tail next =>
      simp only [dequeue, if_pos hpc.1.symm] at hs
      split at hs
      · split at hs
        · cases hs
          exact ⟨trivial, not_false⟩
        · cases hs
          exact ⟨hpc.2, not_false⟩
      · cases hs
        exact ⟨hpc.1, not_false⟩
  | d10 pvalue tail next =>
      simp only [dequeue, if_pos (show s.tail = tail from hpc)] at hs
      cases hs
      cases ht
  | d12 pvalue head next =>
      obtain ⟨p, hp, heq⟩ := Option.map_eq_some_iff.mp hs
      cases heq
      exact ⟨hpc, not_false⟩
  | d13 pvalue head next =>
      simp only [dequeue, if_pos (show s.head = head from hpc)] at hs
      cases hs
      cases ht
  | d8 pvalue | d20 pvalue => cases hs

/-- What has been read stays fresh when nothing changes. -/
theorem Enqueue.Fresh.keep {i : ι} {a : Spine ι} {pc : Enqueue V} (h : pc.Fresh s)
    (hinv : Inv (s, a)) (hpc : pc.Knows i (s, a)) (hk : Kept s s') :
  pc.Fresh s'
  := by
  -- the node to which the tail points has been allocated
  have hnext : ∀ {tail next : Pointer} {k : ℕ}, a.PointsTo tail.ptr k →
      (∀ t, tail.ptr = some t → (s.node t).next = next) →
      ∀ t, tail.ptr = some t → (s'.node t).next = next := by
    rintro tail next k ⟨q, hq, hmem⟩ hnext t ht
    cases hq.symm.trans ht
    rw [hk.node q (hinv.below q (List.mem_of_getElem? hmem))]
    apply hnext q hq
  cases pc with
  | e1 value => cases h
  | e6 value node tail | e13 value node tail next => exact hk.tail.trans h
  | e7 value node tail next | e9 value node tail next =>
      obtain ⟨-, k, -, htail, -⟩ := hpc
      exact ⟨hk.tail.trans h.1, hnext htail h.2⟩
  | e5 value node | e17 value node tail | done value => trivial

theorem Dequeue.Fresh.keep {pc : Dequeue V} (h : pc.Fresh s) (hk : Kept s s') :
  pc.Fresh s'
  := by
  cases pc with
  | d3 pvalue head | d12 pvalue head next | d13 pvalue head next => exact hk.head.trans h
  | d4 pvalue head tail | d5 pvalue head tail next =>
      exact ⟨hk.head.trans h.1, hk.tail.trans h.2⟩
  | d10 pvalue tail next => exact hk.tail.trans h
  | d2 pvalue | d8 pvalue | d20 pvalue => trivial

end step

variable [Inhabited V]

theorem retries (ι V : Type) [Inhabited V] :
  ((machine ι V).withGhost (ghost ι V)).Retries Inv Knows Top (fun t => (change t).isChange) Fresh
  := by
  constructor
  case top =>
    intro s l₀ l h
    match l, h with
    | .enqueue (.e5 _ _), _ => trivial
    | .dequeue (.d2 _), _ => trivial
  case own =>
    intro i ch s l s' l' t _ _ hl hs ht
    obtain ⟨hs, -⟩ := withGhost_step.mp hs
    rcases step_inv hs with ⟨pc, pc', rfl, rfl, hpc⟩ | ⟨pc, pc', rfl, rfl, hpc⟩
    · apply enqueue_fresh hl hpc ht
    · apply dequeue_fresh hl hpc ht
  case other =>
    intro i j ch s l l₂ s' l₂' t hinv hknows _ _ hl hs ht
    obtain ⟨hs, -⟩ := withGhost_step.mp hs
    have hkept : Kept s.1 s'.1 := by
      rcases step_inv hs with ⟨pc, pc', rfl, rfl, hpc⟩ | ⟨pc, pc', rfl, rfl, hpc⟩
      · apply enqueue_kept hpc ht
      · rw [dequeue_kept hpc ht]
        exact ⟨rfl, rfl, fun _ _ => rfl⟩
    cases l with
    | enqueue pc => exact Enqueue.Fresh.keep hl hinv hknows hkept
    | dequeue pc => exact Dequeue.Fresh.keep hl hkept

/-- Every run of `MSQueue` is lock-free. -/
theorem lockFree [DecidableEq ι] {n : ℕ} (r : (machine ι V).Run n) :
  r.LockFree Top (fun s => s.view.tail) change
  := by
  apply Run.lockFree (outline ι V) (retries ι V) (fun _ => trivial) ⟨rfl, rfl⟩
  intro i s a l s' l' t
  cases t with
  | _ => rfl

end MSQueue
