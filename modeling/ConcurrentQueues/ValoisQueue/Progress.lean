import ConcurrentQueues.Library.ListProgress
import ConcurrentQueues.ValoisQueue.Linearizable

/-!
# ValoisQueue is lock-free

As for `MSQueue`, what an iteration of the loops of `enqueue` and `dequeue` has read stays as
it is until some thread links a node or swings tail or head. The loop of `retire` is not
counted: its weak CAS may fail without a change.
-/

namespace ValoisQueue

open Machine Spine

variable {ι V : Type}

/-- What each step does to the list. -/
def change : Tag → ListChange
  | .silent | .retire _ => .none
  | .alloc node => .alloc node
  | .link node => .link node
  | .swingTail => .swingTail
  | .swingHead => .swingHead

/-- The tops of the loops of `enqueue` and `dequeue`. -/
def Top : Option (Local V) → Local V → Prop
  | _, .enqueue (.loadTail _ _) => True
  | _, .dequeue (.loadHead _) => True
  | _, _ => False

/-- Head, tail and the successor of the tail are as the thread has read them in the present
iteration. -/
def Enqueue.Fresh (s : Shared V) : Enqueue V → Prop
  | .new _ => False
  | .loadNext _ _ tail | .help _ _ tail _ => s.tail = tail
  | .checkTail _ _ tail next => s.tail = tail ∧ ∀ t, tail = some t → (s.node t).next = next
  | .link _ _ tail => s.tail = tail ∧ ∀ t, tail = some t → (s.node t).next = none
  | .loadTail _ _ | .swing _ _ _ | .done _ => True

def Dequeue.Fresh (s : Shared V) : Dequeue V → Prop
  | .loadTail _ head | .readItem _ head _ | .swing _ head _ => s.head = head
  | .loadNext _ head tail | .checkHead _ head tail _ => s.head = head ∧ s.tail = tail
  | .help _ tail _ => s.tail = tail
  | .loadHead _ | .refused _ | .loadRetired _ _ | .storeRetiredNext _ _ _ | .casRetired _ _ _
  | .done _ => True

def Fresh (s : Shared V × Spine ι) : Local V → Prop
  | .enqueue pc => pc.Fresh s.1
  | .dequeue pc => pc.Fresh s.1

/-- A step that keeps head, tail and the successors of the nodes allocated so far. -/
structure Kept (s s' : Shared V) : Prop where
  head : s'.head = s.head
  tail : s'.tail = s.tail
  next : ∀ p < s.fresh, (s'.node p).next = (s.node p).next

section step

variable {s s' : Shared V} {t : Tag}

theorem Kept.refl (s : Shared V) :
  Kept s s
  := ⟨rfl, rfl, fun _ _ => rfl⟩

theorem enqueue_kept {pc pc' : Enqueue V} (hs : enqueue s pc = some (s', pc', t))
    (ht : (change t).isChange = false) :
  Kept s s'
  := by
  cases pc with
  | new item =>
      cases hs
      refine ⟨rfl, rfl, fun p hp => ?_⟩
      apply congrArg Node.next
      exact Function.update_of_ne (ne_of_lt hp) ..
  | loadTail item node =>
      cases hs
      apply Kept.refl
  | loadNext item node tail =>
      obtain ⟨p, -, heq⟩ := Option.map_eq_some_iff.mp hs
      cases heq
      apply Kept.refl
  | checkTail item node tail next =>
      simp only [enqueue] at hs
      split at hs
      · cases hs
        apply Kept.refl
      · split at hs
        · cases hs
          apply Kept.refl
        · cases hs
          apply Kept.refl
  | link item node tail =>
      obtain ⟨p, -, heq⟩ := Option.map_eq_some_iff.mp hs
      split at heq
      · cases heq
        cases ht
      · cases heq
        apply Kept.refl
  | swing item node tail | help item node tail next =>
      simp only [enqueue] at hs
      split at hs
      · cases hs
        cases ht
      · cases hs
        apply Kept.refl
  | done item => cases hs

theorem dequeue_kept {weak : Bool} {pc pc' : Dequeue V}
    (hs : dequeue weak s pc = some (s', pc', t)) (ht : (change t).isChange = false) :
  Kept s s'
  := by
  cases pc with
  | loadHead item | loadTail item head | loadRetired item node =>
      cases hs
      apply Kept.refl
  | loadNext item head tail | readItem item head next =>
      obtain ⟨p, -, heq⟩ := Option.map_eq_some_iff.mp hs
      cases heq
      apply Kept.refl
  | checkHead item head tail next =>
      simp only [dequeue] at hs
      split at hs
      · cases hs
        apply Kept.refl
      · split at hs
        · cases hs
          apply Kept.refl
        · split at hs
          · cases hs
            apply Kept.refl
          · cases hs
            apply Kept.refl
  | help item tail next | swing item head next =>
      simp only [dequeue] at hs
      split at hs
      · cases hs
        cases ht
      · cases hs
        apply Kept.refl
  | storeRetiredNext item node oldRetired =>
      obtain ⟨p, -, heq⟩ := Option.map_eq_some_iff.mp hs
      cases heq
      refine ⟨rfl, rfl, fun q _ => ?_⟩
      by_cases hq : q = p
      · subst hq
        have hself : (s.setNode q { s.node q with retiredNext := oldRetired }).node q
            = { s.node q with retiredNext := oldRetired } := Function.update_self ..
        rw [hself]
      · exact congrArg Node.next (Function.update_of_ne hq ..)
  | casRetired item node oldRetired =>
      obtain ⟨p, -, heq⟩ := Option.map_eq_some_iff.mp hs
      split at heq
      · cases heq
        exact ⟨rfl, rfl, fun _ _ => rfl⟩
      · cases heq
        apply Kept.refl
  | refused item | done item => cases hs

/-- A step of `enqueue` that changes nothing keeps what has been read fresh, and does not lead
back to the top of the loop. -/
theorem enqueue_fresh {pc pc' : Enqueue V} (hpc : pc.Fresh s)
    (hs : enqueue s pc = some (s', pc', t)) (ht : (change t).isChange = false) :
  pc'.Fresh s' ∧ ¬ Top (some (.enqueue pc)) (.enqueue pc')
  := by
  cases pc with
  | new item => cases hpc
  | loadTail item node =>
      cases hs
      exact ⟨rfl, not_false⟩
  | loadNext item node tail =>
      obtain ⟨p, hp, heq⟩ := Option.map_eq_some_iff.mp hs
      cases heq
      refine ⟨⟨hpc, ?_⟩, not_false⟩
      intro q hq
      cases hp.symm.trans hq
      rfl
  | checkTail item node tail next =>
      simp only [enqueue, if_neg (not_not.mpr hpc.1.symm)] at hs
      split at hs
      case isTrue hnull =>
        cases hs
        exact ⟨⟨hpc.1, hnull ▸ hpc.2⟩, not_false⟩
      case isFalse =>
        cases hs
        exact ⟨hpc.1, not_false⟩
  | link item node tail =>
      obtain ⟨p, hp, heq⟩ := Option.map_eq_some_iff.mp hs
      rw [if_pos (hpc.2 p hp)] at heq
      cases heq
      cases ht
  | swing item node tail =>
      simp only [enqueue] at hs
      split at hs
      · cases hs
        cases ht
      · cases hs
        exact ⟨trivial, not_false⟩
  | help item node tail next =>
      simp only [enqueue, if_pos (show s.tail = tail from hpc)] at hs
      cases hs
      cases ht
  | done item => cases hs

theorem dequeue_fresh {weak : Bool} {pc pc' : Dequeue V} (hpc : pc.Fresh s)
    (hs : dequeue weak s pc = some (s', pc', t)) (ht : (change t).isChange = false) :
  pc'.Fresh s' ∧ ¬ Top (some (.dequeue pc)) (.dequeue pc')
  := by
  cases pc with
  | loadHead item =>
      cases hs
      exact ⟨rfl, not_false⟩
  | loadTail item head =>
      cases hs
      exact ⟨⟨hpc, rfl⟩, not_false⟩
  | loadNext item head tail =>
      obtain ⟨p, hp, heq⟩ := Option.map_eq_some_iff.mp hs
      cases heq
      exact ⟨hpc, not_false⟩
  | checkHead item head tail next =>
      simp only [dequeue, if_neg (not_not.mpr hpc.1.symm)] at hs
      split at hs
      · cases hs
        exact ⟨trivial, not_false⟩
      · split at hs
        · cases hs
          exact ⟨hpc.2, not_false⟩
        · cases hs
          exact ⟨hpc.1, not_false⟩
  | help item tail next =>
      simp only [dequeue, if_pos (show s.tail = tail from hpc)] at hs
      cases hs
      cases ht
  | readItem item head next =>
      obtain ⟨p, hp, heq⟩ := Option.map_eq_some_iff.mp hs
      cases heq
      exact ⟨hpc, not_false⟩
  | swing item head next =>
      simp only [dequeue, if_pos (show s.head = head from hpc)] at hs
      cases hs
      cases ht
  | loadRetired item node =>
      cases hs
      exact ⟨trivial, not_false⟩
  | storeRetiredNext item node oldRetired =>
      obtain ⟨p, hp, heq⟩ := Option.map_eq_some_iff.mp hs
      cases heq
      exact ⟨trivial, not_false⟩
  | casRetired item node oldRetired =>
      obtain ⟨p, hp, heq⟩ := Option.map_eq_some_iff.mp hs
      split at heq
      · cases heq
        exact ⟨trivial, not_false⟩
      · cases heq
        exact ⟨trivial, not_false⟩
  | refused item | done item => cases hs

/-- What has been read stays fresh when nothing changes. -/
theorem Enqueue.Fresh.keep {i : ι} {a : Spine ι} {pc : Enqueue V} (h : pc.Fresh s)
    (hinv : Inv (s, a)) (hpc : pc.Knows i (s, a)) (hk : Kept s s') :
  pc.Fresh s'
  := by
  -- the node to which the tail points has been allocated
  have hnext : ∀ {tail next : Option ℕ} {k : ℕ}, a.PointsTo tail k →
      (∀ t, tail = some t → (s.node t).next = next) →
      ∀ t, tail = some t → (s'.node t).next = next := by
    rintro tail next k ⟨q, hq, hmem⟩ hnext t ht
    cases hq.symm.trans ht
    rw [hk.next q (hinv.below q (List.mem_of_getElem? hmem))]
    apply hnext q hq
  cases pc with
  | new item => cases h
  | loadNext item node tail | help item node tail next => exact hk.tail.trans h
  | checkTail item node tail next =>
      obtain ⟨-, k, -, htail, -⟩ := hpc
      exact ⟨hk.tail.trans h.1, hnext htail h.2⟩
  | link item node tail =>
      obtain ⟨-, k, -, htail⟩ := hpc
      exact ⟨hk.tail.trans h.1, hnext htail h.2⟩
  | loadTail item node | swing item node tail | done item => trivial

theorem Dequeue.Fresh.keep {pc : Dequeue V} (h : pc.Fresh s) (hk : Kept s s') :
  pc.Fresh s'
  := by
  cases pc with
  | loadTail item head | readItem item head next | swing item head next => exact hk.head.trans h
  | loadNext item head tail | checkHead item head tail next =>
      exact ⟨hk.head.trans h.1, hk.tail.trans h.2⟩
  | help item tail next => exact hk.tail.trans h
  | _ => trivial

end step

variable [Inhabited V]

theorem retries (ι V : Type) [Inhabited V] :
  ((machine ι V).withGhost (ghost ι V)).Retries Inv Knows Top (fun t => (change t).isChange) Fresh
  := by
  constructor
  case top =>
    intro s l₀ l h
    match l, h with
    | .enqueue (.loadTail _ _), _ => trivial
    | .dequeue (.loadHead _), _ => trivial
  case own =>
    intro i ch s l s' l' t _ _ hl hs ht
    obtain ⟨hs, -⟩ := withGhost_step.mp hs
    rcases step_inv hs with ⟨pc, pc', rfl, rfl, hpc⟩ | ⟨pc, pc', rfl, rfl, hpc⟩
    · apply enqueue_fresh hl hpc ht
    · apply dequeue_fresh hl hpc ht
  case other =>
    intro i j ch s l l₂ s' l₂' t hinv hknows _ _ hl hs ht
    obtain ⟨hs, -⟩ := withGhost_step.mp hs
    have hkept : Kept s.1 s'.1 := by
      rcases step_inv hs with ⟨pc, pc', rfl, rfl, hpc⟩ | ⟨pc, pc', rfl, rfl, hpc⟩
      · apply enqueue_kept hpc ht
      · apply dequeue_kept hpc ht
    cases l with
    | enqueue pc => exact Enqueue.Fresh.keep hl hinv hknows hkept
    | dequeue pc => exact Dequeue.Fresh.keep hl hkept

/-- Every run of `ValoisQueue` is lock-free. -/
theorem lockFree [DecidableEq ι] {n : ℕ} (r : (machine ι V).Run n) :
  r.LockFree Top (fun s => s.view.tail) change
  := by
  apply Run.lockFree (outline ι V) (retries ι V) (fun _ => trivial) ⟨rfl, rfl⟩
  intro i s a l s' l' t
  cases t with
  | _ => rfl

end ValoisQueue
