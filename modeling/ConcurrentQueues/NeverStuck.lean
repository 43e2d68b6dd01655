import ConcurrentQueues.Histories
import ConcurrentQueues.LCRQueue.Delivery
import ConcurrentQueues.Library.Stuck

/-!
# No thread is stuck

The models of the queues have no step where the source would follow a null pointer, or read a node
that has been deleted. No run comes to such a point: a thread in a call can always go on, but for one
that waits at a lock, and then the thread that holds the lock can go on.
-/

open Machine

namespace MSQueue

variable {ι V : Type} [Inhabited V] {i : ι} {s : Shared V × Spine ι}

theorem goesOn_of_enqueue (i : ι) {s : Shared V} {pc : Enqueue V} (h : (enqueue s pc).isSome) :
  (machine ι V).GoesOn i s (.enqueue pc)
  := by
  obtain ⟨⟨s', pc', t⟩, hs⟩ := Option.isSome_iff_exists.mp h
  exact Or.inr ⟨(), s', .enqueue pc', t, Option.map_eq_some_iff.mpr ⟨_, hs, rfl⟩⟩

theorem goesOn_of_dequeue (i : ι) {s : Shared V} {pc : Dequeue V} (h : (dequeue s pc).isSome) :
  (machine ι V).GoesOn i s (.dequeue pc)
  := by
  obtain ⟨⟨s', pc', t⟩, hs⟩ := Option.isSome_iff_exists.mp h
  exact Or.inr ⟨(), s', .dequeue pc', t, Option.map_eq_some_iff.mpr ⟨_, hs, rfl⟩⟩

/-- What a thread knows about `tail` at E6 and at E9 is that it is not null. -/
theorem Enqueue.Knows.goesOn {pc : Enqueue V} (h : pc.Knows i s) :
  (machine ι V).GoesOn i s.1 (.enqueue pc)
  := by
  cases pc with
  | done value => exact Or.inl ⟨_, rfl⟩
  | e6 value node tail =>
      obtain ⟨-, k, -, p, hp, -⟩ := h
      apply goesOn_of_enqueue
      simp [enqueue, hp]
  | e9 value node tail next =>
      obtain ⟨-, k, -, ⟨p, hp, -⟩, -⟩ := h
      apply goesOn_of_enqueue
      simp [enqueue, hp]
  | _ =>
      apply goesOn_of_enqueue
      simp only [enqueue]
      repeat' split
      all_goals rfl

theorem Dequeue.Knows.goesOn {pc : Dequeue V} (h : pc.Knows s) :
  (machine ι V).GoesOn i s.1 (.dequeue pc)
  := by
  cases pc with
  | d8 pvalue => exact Or.inl ⟨_, rfl⟩
  | d20 pvalue => exact Or.inl ⟨_, rfl⟩
  | d4 pvalue head tail =>
      obtain ⟨k, -, m, -, -, ⟨p, hp, -⟩, -⟩ := h
      apply goesOn_of_dequeue
      simp [dequeue, hp]
  | d12 pvalue head next =>
      obtain ⟨k, -, -, p, hp, -⟩ := h
      apply goesOn_of_dequeue
      simp [dequeue, hp]
  | _ =>
      apply goesOn_of_dequeue
      simp only [dequeue]
      repeat' split
      all_goals rfl

theorem neverStuck (ι V : Type) [DecidableEq ι] [Inhabited V] :
  (machine ι V).NeverStuck fun _ _ _ _ => False
  := by
  apply (outline ι V).neverStuck fun _ => trivial
  rintro i s l - hl
  cases l with
  | enqueue pc => apply Enqueue.Knows.goesOn hl
  | dequeue pc => apply Dequeue.Knows.goesOn hl

end MSQueue

namespace ValoisQueue

variable {ι V : Type} [Inhabited V] {i : ι} {s : Shared V × Spine ι}

theorem goesOn_of_enqueue (i : ι) {s : Shared V} {pc : Enqueue V} (h : (enqueue s pc).isSome) :
  (machine ι V).GoesOn i s (.enqueue pc)
  := by
  obtain ⟨⟨s', pc', t⟩, hs⟩ := Option.isSome_iff_exists.mp h
  exact Or.inr ⟨false, s', .enqueue pc', t, Option.map_eq_some_iff.mpr ⟨_, hs, rfl⟩⟩

theorem goesOn_of_dequeue (i : ι) {s : Shared V} {pc : Dequeue V}
    (h : (dequeue false s pc).isSome) :
  (machine ι V).GoesOn i s (.dequeue pc)
  := by
  obtain ⟨⟨s', pc', t⟩, hs⟩ := Option.isSome_iff_exists.mp h
  exact Or.inr ⟨false, s', .dequeue pc', t, Option.map_eq_some_iff.mpr ⟨_, hs, rfl⟩⟩

theorem Enqueue.Knows.goesOn {pc : Enqueue V} (h : pc.Knows i s) :
  (machine ι V).GoesOn i s.1 (.enqueue pc)
  := by
  cases pc with
  | done item => exact Or.inl ⟨_, rfl⟩
  | loadNext item node tail =>
      obtain ⟨-, k, -, p, rfl, -⟩ := h
      apply goesOn_of_enqueue
      rfl
  | link item node tail =>
      obtain ⟨-, k, -, p, rfl, -⟩ := h
      apply goesOn_of_enqueue
      rfl
  | _ =>
      apply goesOn_of_enqueue
      simp only [enqueue]
      repeat' split
      all_goals rfl

/-- The node that `retire` is called with was the head, so it is not null either. -/
theorem Dequeue.Knows.goesOn {pc : Dequeue V} (h : pc.Knows s) :
  (machine ι V).GoesOn i s.1 (.dequeue pc)
  := by
  cases pc with
  | refused item => exact Or.inl ⟨_, rfl⟩
  | done item => exact Or.inl ⟨_, rfl⟩
  | loadNext item head tail =>
      obtain ⟨k, -, m, -, -, ⟨p, rfl, -⟩, -⟩ := h
      apply goesOn_of_dequeue
      rfl
  | readItem item head next =>
      obtain ⟨k, -, -, p, rfl, -⟩ := h
      apply goesOn_of_dequeue
      rfl
  | storeRetiredNext item node oldRetired =>
      obtain ⟨p, rfl⟩ := Option.ne_none_iff_exists'.mp h
      apply goesOn_of_dequeue
      rfl
  | casRetired item node oldRetired =>
      obtain ⟨p, rfl⟩ := Option.ne_none_iff_exists'.mp h
      apply goesOn_of_dequeue
      rfl
  | _ =>
      apply goesOn_of_dequeue
      simp only [dequeue]
      repeat' split
      all_goals rfl

theorem neverStuck (ι V : Type) [DecidableEq ι] [Inhabited V] :
  (machine ι V).NeverStuck fun _ _ _ _ => False
  := by
  apply (outline ι V).neverStuck fun _ => trivial
  rintro i s l - hl
  cases l with
  | enqueue pc => apply Enqueue.Knows.goesOn hl
  | dequeue pc => apply Dequeue.Knows.goesOn hl

end ValoisQueue

namespace PLJQueue

variable {ι V : Type}

/-- At the points of a snapshot before it is done, the pointer that is followed is not null. -/
def Snapshot.Ready : Snapshot → Prop
  | .loadNext _ firsttail _ => firsttail.ptr ≠ none
  | .done _ _ _ => False
  | _ => True

/-- The pointers that `enqueue` follows are not null. -/
def Enqueue.Ready : Enqueue V → Prop
  | .snapshot _ _ pc => pc.Ready
  | .link _ _ tail _ => tail.ptr ≠ none
  | _ => True

/-- The pointers that `dequeue` follows are not null. -/
def Dequeue.Ready : Dequeue V → Prop
  | .snapshot _ pc => pc.Ready
  | .loadHeadNext _ head => head.ptr ≠ none
  | .mark _ _ tail _ => tail.ptr ≠ none
  | .loadTailNext _ tail => tail.ptr ≠ none
  | _ => True

/-- In the states 1 to 5 neither the head nor the tail is null. -/
theorem determineState_ptr {head tail next : Pointer} {n : ℕ}
    (h : determineState head tail next = n) (hn : 1 ≤ n ∧ n ≤ 5) :
  head.ptr ≠ none ∧ tail.ptr ≠ none
  := by
  unfold determineState at h
  split at h
  case isTrue hsame => exact ⟨hsame.1, hsame.2 ▸ hsame.1⟩
  case isFalse =>
    split at h
    case isTrue hne => exact ⟨hne.1, hne.2.1⟩
    case isFalse =>
      exfalso
      split_ifs at h <;> omega

theorem Enqueue.switch_ready (item : V) (object : ℕ) (head tail next : Pointer) :
  (Enqueue.switch item object head tail next).Ready
  := by
  unfold Enqueue.switch
  split
  case h_1 hstate => exact (determineState_ptr hstate (by omega)).2
  case h_2 hstate => exact (determineState_ptr hstate (by omega)).2
  all_goals trivial

theorem Dequeue.switch_ready (item : V) (head tail next : Pointer) :
  (Dequeue.switch item head tail next).Ready
  := by
  unfold Dequeue.switch
  split
  case h_1 hstate => exact (determineState_ptr hstate (by omega)).1
  case h_2 hstate => exact (determineState_ptr hstate (by omega)).1
  case h_3 hstate => exact (determineState_ptr hstate (by omega)).2
  case h_5 hstate => exact (determineState_ptr hstate (by omega)).2
  all_goals trivial

theorem Enqueue.afterSnapshot_ready {item : V} {object : ℕ} {pc : Snapshot}
    (h : pc.Ready ∨ ∃ head tail next, pc = .done head tail next) :
  (Enqueue.afterSnapshot item object pc).Ready
  := by
  rcases h with h | ⟨head, tail, next, rfl⟩
  · cases pc with
    | done head tail next => exact h.elim
    | _ => exact h
  · apply Enqueue.switch_ready

theorem Dequeue.afterSnapshot_ready {item : V} {pc : Snapshot}
    (h : pc.Ready ∨ ∃ head tail next, pc = .done head tail next) :
  (Dequeue.afterSnapshot item pc).Ready
  := by
  rcases h with h | ⟨head, tail, next, rfl⟩
  · cases pc with
    | done head tail next => exact h.elim
    | _ => exact h
  · apply Dequeue.switch_ready

/-- `Snapshot` reads the field `nextobject` of the tail only if the tail is not null. -/
theorem snapshot_ready {s : Shared V} {pc : Snapshot} (h : pc.Ready) :
  ∃ pc' t, snapshot s pc = some (pc', t) ∧
    (pc'.Ready ∨ ∃ head tail next, pc' = .done head tail next)
  := by
  cases pc with
  | loadHead next => exact ⟨_, _, rfl, Or.inl trivial⟩
  | loadTail firsthead next =>
      by_cases htail : s.tail.ptr = none
      · exact ⟨_, _, if_neg (not_not.mpr htail), Or.inl trivial⟩
      · exact ⟨_, _, if_pos htail, Or.inl htail⟩
  | loadNext firsthead firsttail next =>
      obtain ⟨p, hp⟩ := Option.ne_none_iff_exists'.mp h
      refine ⟨.checkTail firsthead firsttail (s.object p).nextobject, .silent, ?_, Or.inl trivial⟩
      simp [snapshot, hp]
  | checkTail firsthead firsttail next =>
      by_cases htail : s.tail = firsttail
      · exact ⟨_, _, if_pos htail, Or.inl trivial⟩
      · exact ⟨_, _, if_neg htail, Or.inl trivial⟩
  | checkHead firsthead tail next =>
      by_cases hhead : s.head = firsthead
      · exact ⟨_, _, if_pos hhead, Or.inr ⟨_, _, _, rfl⟩⟩
      · exact ⟨_, _, if_neg hhead, Or.inl trivial⟩
  | done head tail next => exact h.elim

/-- An enqueue that is ready makes an access, after which it is ready again. -/
theorem enqueue_ready {s : Shared V} {pc : Enqueue V} (h : pc.Ready) :
  (∃ item, pc = .done item) ∨ ∃ s' pc' t, enqueue s pc = some (s', pc', t) ∧ pc'.Ready
  := by
  cases pc with
  | done item => exact Or.inl ⟨item, rfl⟩
  | snapshot item object pc =>
      obtain ⟨pc', t, hs, hready⟩ := snapshot_ready (s := s) h
      right
      refine ⟨s, .afterSnapshot item object pc', t, ?_, Enqueue.afterSnapshot_ready hready⟩
      simp [enqueue, hs]
  | link item object tail next =>
      obtain ⟨p, hp⟩ := Option.ne_none_iff_exists'.mp h
      right
      simp only [enqueue, hp, Option.map_some]
      split
      all_goals exact ⟨_, _, _, rfl, trivial⟩
  | _ =>
      right
      simp only [enqueue]
      try split
      all_goals exact ⟨_, _, _, rfl, trivial⟩

/-- A dequeue that is ready has a result, or it makes an access after which it is ready again. -/
theorem dequeue_ready {s : Shared V} {pc : Dequeue V} (h : pc.Ready) :
  (∃ item, pc = .refused item ∨ pc = .done item) ∨
    ∃ s' pc' t, dequeue s pc = some (s', pc', t) ∧ pc'.Ready
  := by
  have hextract : ∀ (item : V) (object : Option ℕ), (Dequeue.extract item object).Ready := by
    intro item object
    cases object <;> trivial
  cases pc with
  | refused item => exact Or.inl ⟨item, Or.inl rfl⟩
  | done item => exact Or.inl ⟨item, Or.inr rfl⟩
  | snapshot item pc =>
      obtain ⟨pc', t, hs, hready⟩ := snapshot_ready (s := s) h
      right
      refine ⟨s, .afterSnapshot item pc', t, ?_, Dequeue.afterSnapshot_ready hready⟩
      simp [dequeue, hs]
  | loadHeadNext item head =>
      obtain ⟨p, hp⟩ := Option.ne_none_iff_exists'.mp h
      right
      simp only [dequeue, hp, Option.map_some]
      exact ⟨_, _, _, rfl, trivial⟩
  | mark item head tail next =>
      obtain ⟨p, hp⟩ := Option.ne_none_iff_exists'.mp h
      right
      simp only [dequeue, hp, Option.map_some]
      split
      all_goals exact ⟨_, _, _, rfl, trivial⟩
  | loadTailNext item tail =>
      obtain ⟨p, hp⟩ := Option.ne_none_iff_exists'.mp h
      right
      simp only [dequeue, hp, Option.map_some]
      exact ⟨_, _, _, rfl, trivial⟩
  | _ =>
      right
      simp only [dequeue]
      try split
      all_goals first
        | exact ⟨_, _, _, rfl, trivial⟩
        | exact ⟨_, _, _, rfl, hextract _ _⟩

variable [Inhabited V]

/-- A thread in a call is ready. -/
def Local.Ready : Local V → Prop
  | .enqueue pc => pc.Ready
  | .dequeue pc => pc.Ready

theorem step_ready {i : ι} {ch : Unit} {s s' : Shared V} {l l' : Local V} {t : Tag} (h : l.Ready)
    (hs : (machine ι V).step i ch s l = some (s', l', t)) :
  l'.Ready
  := by
  obtain ⟨pc, pc', rfl, rfl, hpc⟩ | ⟨pc, pc', rfl, rfl, hpc⟩ := step_inv hs
  · rcases enqueue_ready (s := s) h with ⟨item, rfl⟩ | ⟨_, _, _, hpc', hready⟩
    · cases hpc
    · rw [hpc] at hpc'
      cases hpc'
      exact hready
  · rcases dequeue_ready (s := s) h with ⟨item, rfl | rfl⟩ | ⟨_, _, _, hpc', hready⟩
    · cases hpc
    · cases hpc
    · rw [hpc] at hpc'
      cases hpc'
      exact hready

theorem ready_goesOn (i : ι) (s : Shared V) {l : Local V} (h : l.Ready) :
  (machine ι V).GoesOn i s l
  := by
  cases l with
  | enqueue pc =>
      rcases enqueue_ready (s := s) h with ⟨item, rfl⟩ | ⟨s', pc', t, hs, -⟩
      · exact Or.inl ⟨_, rfl⟩
      · exact Or.inr ⟨(), s', .enqueue pc', t, Option.map_eq_some_iff.mpr ⟨_, hs, rfl⟩⟩
  | dequeue pc =>
      rcases dequeue_ready (s := s) h with ⟨item, rfl | rfl⟩ | ⟨s', pc', t, hs, -⟩
      · exact Or.inl ⟨_, rfl⟩
      · exact Or.inl ⟨_, rfl⟩
      · exact Or.inr ⟨(), s', .dequeue pc', t, Option.map_eq_some_iff.mpr ⟨_, hs, rfl⟩⟩

theorem neverStuck (ι V : Type) [DecidableEq ι] [Inhabited V] :
  (machine ι V).NeverStuck fun _ _ _ _ => False
  := by
  apply neverStuck_of_local (K := Local.Ready)
  · intro o
    cases o <;> trivial
  · exact fun i ch s l s' l' t h hs => step_ready h hs
  · exact fun i s l h => ready_goesOn i s h

end PLJQueue

namespace TwoLockQueue

variable {ι V : Type}

/-- The points of `enqueue` between taking the tail lock and letting it go. -/
def Local.InTail : Local V → Prop
  | .enqueue (.readTail _ _) | .enqueue (.storeNext _ _ _) | .enqueue (.writeTail _ _)
  | .enqueue (.unlock _) => True
  | _ => False

/-- The points of `dequeue` between taking the head lock and letting it go. -/
def Local.InHead : Local V → Prop
  | .dequeue (.readHead _) | .dequeue (.loadNext _ _) | .dequeue (.unlockEmpty _)
  | .dequeue (.readItem _ _ _) | .dequeue (.writeHead _ _ _) | .dequeue (.unlock _ _) => True
  | _ => False

/-- The lock that is taken at the tail, and that at the head when not `tail`. -/
def held (tail : Bool) (s : Shared ι V) : Option ι := if tail then s.tailLock else s.headLock

/-- The points at which a thread holds it. -/
def Local.Inside (tail : Bool) (l : Local V) : Prop := if tail then l.InTail else l.InHead

/-- Thread `i`, at `l`, waits for the thread `j` that holds the lock it is about to take. -/
def Waits (_ j : ι) (s : Shared ι V) : Local V → Prop
  | .enqueue (.lock _ _) => s.tailLock = some j
  | .dequeue (.lock _) => s.headLock = some j
  | _ => False

variable [Inhabited V] {i : ι}

theorem lock (tail : Bool) :
  (machine ι V).Lock (held tail) (Local.Inside tail)
  := by
  constructor
  case init => cases tail <;> rfl
  case start =>
    intro o
    cases tail <;> cases o <;> exact id
  case result =>
    intro l v hv
    obtain ⟨item, rfl, -⟩ | ⟨item, rfl, -⟩ | ⟨item, rfl, -⟩ := result_eq_some ι hv
    all_goals cases tail <;> exact id
  case step =>
    intro i x s l s' l' t hs
    obtain ⟨pc, pc', rfl, rfl, hpc⟩ | ⟨pc, pc', rfl, rfl, hpc⟩ := step_inv hs
    · cases pc with
      | done item => cases hpc
      | new item =>
          simp only [enqueue, Option.ite_none_right_eq_some] at hpc
          cases hpc.2
          cases tail <;> exact Or.inl ⟨rfl, Iff.rfl⟩
      | lock item node =>
          simp only [enqueue, Option.ite_none_right_eq_some, Option.isNone_iff_eq_none] at hpc
          obtain ⟨hfree, heq⟩ := hpc
          cases heq
          cases tail
          · exact Or.inl ⟨rfl, Iff.rfl⟩
          · exact Or.inr (Or.inl ⟨hfree, rfl, id, trivial⟩)
      | storeNext item node tl =>
          obtain ⟨c, -, heq⟩ := Option.map_eq_some_iff.mp hpc
          cases heq
          cases tail <;> exact Or.inl ⟨rfl, Iff.rfl⟩
      | unlock item =>
          cases hpc
          cases tail
          · exact Or.inl ⟨rfl, Iff.rfl⟩
          · exact Or.inr (Or.inr ⟨trivial, rfl, id⟩)
      | _ =>
          cases hpc
          cases tail <;> exact Or.inl ⟨rfl, Iff.rfl⟩
    · cases pc with
      | refused item => cases hpc
      | done item => cases hpc
      | lock item =>
          simp only [dequeue, Option.ite_none_right_eq_some, Option.isNone_iff_eq_none] at hpc
          obtain ⟨hfree, heq⟩ := hpc
          cases heq
          cases tail
          · exact Or.inr (Or.inl ⟨hfree, rfl, id, trivial⟩)
          · exact Or.inl ⟨rfl, Iff.rfl⟩
      | loadNext item dummy =>
          obtain ⟨c, -, heq⟩ := Option.map_eq_some_iff.mp hpc
          split at heq
          all_goals
            cases heq
            cases tail <;> exact Or.inl ⟨rfl, Iff.rfl⟩
      | readItem item dummy newHead =>
          obtain ⟨c, -, heq⟩ := Option.map_eq_some_iff.mp hpc
          cases heq
          cases tail <;> exact Or.inl ⟨rfl, Iff.rfl⟩
      | delete item dummy =>
          obtain ⟨c, -, heq⟩ := Option.map_eq_some_iff.mp hpc
          cases heq
          cases tail <;> exact Or.inl ⟨rfl, Iff.rfl⟩
      | unlockEmpty item =>
          cases hpc
          cases tail
          · exact Or.inr (Or.inr ⟨trivial, rfl, id⟩)
          · exact Or.inl ⟨rfl, Iff.rfl⟩
      | unlock item dummy =>
          cases hpc
          cases tail
          · exact Or.inr (Or.inr ⟨trivial, rfl, id⟩)
          · exact Or.inl ⟨rfl, Iff.rfl⟩
      | _ =>
          cases hpc
          cases tail <;> exact Or.inl ⟨rfl, Iff.rfl⟩

/-- No node is alive at the address `x`. -/
def Shared.Free (s : Shared ι V) (x : ℕ) : Prop := s.heap x = none

/-- Only `new` occupies an address, the one it has chosen. -/
theorem step_free {x y : ℕ} {s s' : Shared ι V} {l l' : Local V} {t : Tag}
    (hs : (machine ι V).step i x s l = some (s', l', t)) (hy : y ≠ x) (hfree : s.Free y) :
  s'.Free y
  := by
  obtain ⟨pc, pc', rfl, rfl, hpc⟩ | ⟨pc, pc', rfl, rfl, hpc⟩ := step_inv hs
  · cases pc with
    | done item => cases hpc
    | new item =>
        simp only [enqueue, Option.ite_none_right_eq_some] at hpc
        cases hpc.2
        exact (setHeap_of_ne hy _).trans hfree
    | lock item node =>
        simp only [enqueue, Option.ite_none_right_eq_some] at hpc
        cases hpc.2
        exact hfree
    | storeNext item node tl =>
        obtain ⟨c, hc, heq⟩ := Option.map_eq_some_iff.mp hpc
        cases heq
        refine (setHeap_of_ne ?_ _).trans hfree
        rintro rfl
        cases hfree.symm.trans hc
    | _ =>
        cases hpc
        exact hfree
  · cases pc with
    | refused item => cases hpc
    | done item => cases hpc
    | lock item =>
        simp only [dequeue, Option.ite_none_right_eq_some] at hpc
        cases hpc.2
        exact hfree
    | loadNext item dummy =>
        obtain ⟨c, -, heq⟩ := Option.map_eq_some_iff.mp hpc
        split at heq
        all_goals
          cases heq
          exact hfree
    | readItem item dummy newHead =>
        obtain ⟨c, -, heq⟩ := Option.map_eq_some_iff.mp hpc
        cases heq
        exact hfree
    | delete item dummy =>
        obtain ⟨c, hc, heq⟩ := Option.map_eq_some_iff.mp hpc
        cases heq
        refine (setHeap_of_ne ?_ _).trans hfree
        rintro rfl
        cases hfree.symm.trans hc
    | _ =>
        cases hpc
        exact hfree

theorem goesOn_of_enqueue (i : ι) (x : ℕ) {s : Shared ι V} {pc : Enqueue V}
    (h : (enqueue i x s pc).isSome) :
  (machine ι V).GoesOn i s (.enqueue pc)
  := by
  obtain ⟨⟨s', pc', t⟩, hs⟩ := Option.isSome_iff_exists.mp h
  exact Or.inr ⟨x, s', .enqueue pc', t, Option.map_eq_some_iff.mpr ⟨_, hs, rfl⟩⟩

theorem goesOn_of_dequeue (i : ι) {s : Shared ι V} {pc : Dequeue V}
    (h : (dequeue i s pc).isSome) :
  (machine ι V).GoesOn i s (.dequeue pc)
  := by
  obtain ⟨⟨s', pc', t⟩, hs⟩ := Option.isSome_iff_exists.mp h
  exact Or.inr ⟨0, s', .dequeue pc', t, Option.map_eq_some_iff.mpr ⟨_, hs, rfl⟩⟩

/-- A thread that is not at a lock that is taken goes on: the node it follows is alive. -/
theorem goesOn_or_waits {s : Shared ι V} {a : Chain ι} {l : Local V} (h : Inv (s, a))
    (hl : Knows i (s, a) (some l)) (hfree : ∃ x, s.Free x) :
  (machine ι V).GoesOn i s l ∨ ∃ tail j, held tail s = some j ∧ Waits i j s l
  := by
  have halive : ∀ p, l.follows = some p → (s.heap p.address).isSome := by
    intro p hp
    obtain ⟨v, hv⟩ := hl.alive h hp
    rw [hv]
    rfl
  cases l with
  | enqueue pc =>
      cases pc with
      | done item => exact Or.inl (Or.inl ⟨_, rfl⟩)
      | new item =>
          obtain ⟨x, hx⟩ := hfree
          rw [Shared.Free] at hx
          left
          apply goesOn_of_enqueue i x
          simp [enqueue, hx]
      | lock item node =>
          cases hlock : s.tailLock with
          | none =>
              left
              apply goesOn_of_enqueue i 0
              simp [enqueue, hlock]
          | some j => exact Or.inr ⟨true, j, hlock, hlock⟩
      | storeNext item node tl =>
          left
          apply goesOn_of_enqueue i 0
          simpa [enqueue] using halive tl rfl
      | _ =>
          left
          apply goesOn_of_enqueue i 0
          rfl
  | dequeue pc =>
      cases pc with
      | refused item => exact Or.inl (Or.inl ⟨_, rfl⟩)
      | done item => exact Or.inl (Or.inl ⟨_, rfl⟩)
      | lock item =>
          cases hlock : s.headLock with
          | none =>
              left
              apply goesOn_of_dequeue
              simp [dequeue, hlock]
          | some j => exact Or.inr ⟨false, j, hlock, hlock⟩
      | loadNext item dummy =>
          left
          apply goesOn_of_dequeue
          simpa [dequeue] using halive dummy rfl
      | readItem item dummy newHead =>
          left
          apply goesOn_of_dequeue
          simpa [dequeue] using halive newHead rfl
      | delete item dummy =>
          left
          apply goesOn_of_dequeue
          simpa [dequeue] using halive dummy rfl
      | _ =>
          left
          apply goesOn_of_dequeue
          rfl

omit [Inhabited V] in
/-- A thread that holds a lock is not about to take one. -/
theorem not_waits_of_inside {tail : Bool} {s : Shared ι V} {l : Local V} (hl : l.Inside tail)
    (j : ι) :
  ¬ Waits i j s l
  := by
  cases tail
  all_goals
    cases l with
    | enqueue pc => cases pc <;> first | exact id | exact hl.elim
    | dequeue pc => cases pc <;> first | exact id | exact hl.elim

theorem neverStuck (ι V : Type) [DecidableEq ι] [Inhabited V] :
  (machine ι V).NeverStuck Waits
  := by
  have hfree : ∀ n (r : (machine ι V).Run n), ∀ k ≤ n, ∃ x, (r.conf k).shared.Free x := by
    apply exists_free
    · use 1
      intro x hx
      have hne : x ≠ 0 := by omega
      simp [machine, init, Shared.Free, hne]
    · exact fun i x s l s' l' t y hs hy hfree => step_free hs hy hfree
  apply neverStuck_of_locks (F := fun s : Shared ι V => ∃ x, s.Free x) (outline ι V)
    (fun _ => trivial) lock hfree
  · exact fun i s l hG hL hF => goesOn_or_waits hG hL hF
  · intro tail i s l hG hL hF hin
    rcases goesOn_or_waits hG hL hF with hgoes | ⟨_, j, -, hwaits⟩
    · exact hgoes
    · exact absurd hwaits (not_waits_of_inside hin j)

end TwoLockQueue

namespace MutexQueue

variable {ι V : Type}

/-- The points between taking the mutex and letting it go. -/
def Local.Inside : Local V → Prop
  | .enqueue (.testHead _ _) | .enqueue (.writeHead _ _) | .enqueue (.readTail _ _)
  | .enqueue (.storeNext _ _ _) | .enqueue (.writeTail _ _) | .enqueue (.unlock _) => True
  | .dequeue (.testHead _) | .dequeue (.unlockEmpty _) | .dequeue (.readHead _)
  | .dequeue (.rereadHead _ _) | .dequeue (.readNext _ _ _) | .dequeue (.writeHead _ _ _)
  | .dequeue (.testEmpty _ _) | .dequeue (.clearTail _ _) | .dequeue (.unlock _ _) => True
  | _ => False

/-- Thread `i`, at `l`, waits for the thread `j` that holds the mutex. -/
def Waits (_ j : ι) (s : Shared ι V) : Local V → Prop
  | .enqueue (.lock _ _) => s.mutex = some j
  | .dequeue (.lock _) => s.mutex = some j
  | _ => False

variable {i : ι}

theorem lock :
  (machine ι V).Lock Shared.mutex Local.Inside
  := by
  constructor
  case init => rfl
  case start =>
    intro o
    cases o <;> exact id
  case result =>
    intro l v hv
    obtain ⟨item, rfl, -⟩ | ⟨item, rfl, -⟩ | ⟨item, rfl, -⟩ := result_eq_some ι hv
    all_goals exact id
  case step =>
    intro i x s l s' l' t hs
    obtain ⟨pc, pc', rfl, rfl, hpc⟩ | ⟨pc, pc', rfl, rfl, hpc⟩ := step_inv hs
    · cases pc with
      | done item => cases hpc
      | new item =>
          obtain ⟨b, -, heq⟩ := Option.map_eq_some_iff.mp hpc
          cases heq
          exact Or.inl ⟨rfl, Iff.rfl⟩
      | lock item node =>
          simp only [enqueue, Option.ite_none_right_eq_some, Option.isNone_iff_eq_none] at hpc
          obtain ⟨hfree, heq⟩ := hpc
          cases heq
          exact Or.inr (Or.inl ⟨hfree, rfl, id, trivial⟩)
      | testHead item node =>
          simp only [enqueue] at hpc
          split at hpc
          all_goals
            cases hpc
            exact Or.inl ⟨rfl, Iff.rfl⟩
      | storeNext item node tail =>
          obtain ⟨p, rfl, hpc⟩ := Option.bind_eq_some_iff.mp hpc
          obtain ⟨v, hv, hpc⟩ := Option.bind_eq_some_iff.mp hpc
          cases hpc
          exact Or.inl ⟨rfl, Iff.rfl⟩
      | unlock item =>
          cases hpc
          exact Or.inr (Or.inr ⟨trivial, rfl, id⟩)
      | _ =>
          cases hpc
          exact Or.inl ⟨rfl, Iff.rfl⟩
    · cases pc with
      | refused item => cases hpc
      | done item => cases hpc
      | lock item =>
          simp only [dequeue, Option.ite_none_right_eq_some, Option.isNone_iff_eq_none] at hpc
          obtain ⟨hfree, heq⟩ := hpc
          cases heq
          exact Or.inr (Or.inl ⟨hfree, rfl, id, trivial⟩)
      | testHead item | testEmpty item tmp =>
          simp only [dequeue] at hpc
          split at hpc
          all_goals
            cases hpc
            exact Or.inl ⟨rfl, Iff.rfl⟩
      | readNext item tmp head =>
          obtain ⟨p, rfl, hpc⟩ := Option.bind_eq_some_iff.mp hpc
          obtain ⟨v, hv, hpc⟩ := Option.bind_eq_some_iff.mp hpc
          cases hpc
          exact Or.inl ⟨rfl, Iff.rfl⟩
      | readItem item tmp | delete item tmp =>
          obtain ⟨p, rfl, hpc⟩ := Option.bind_eq_some_iff.mp hpc
          obtain ⟨v, hv, hpc⟩ := Option.bind_eq_some_iff.mp hpc
          cases hpc
          exact Or.inl ⟨rfl, Iff.rfl⟩
      | unlockEmpty item | unlock item tmp =>
          cases hpc
          exact Or.inr (Or.inr ⟨trivial, rfl, id⟩)
      | _ =>
          cases hpc
          exact Or.inl ⟨rfl, Iff.rfl⟩

/-- No node is alive at the address `x`. -/
def Shared.Free (s : Shared ι V) (x : ℕ) : Prop := s.heap.block x = none

/-- Only `new` occupies an address, the one it has chosen. -/
theorem step_free {x y : ℕ} {s s' : Shared ι V} {l l' : Local V} {t : Tag}
    (hs : (machine ι V).step i x s l = some (s', l', t)) (hy : y ≠ x) (hfree : s.Free y) :
  s'.Free y
  := by
  obtain ⟨pc, pc', rfl, rfl, hpc⟩ | ⟨pc, pc', rfl, rfl, hpc⟩ := step_inv hs
  · cases pc with
    | done item => cases hpc
    | new item =>
        obtain ⟨⟨heap, node⟩, hnew, heq⟩ := Option.map_eq_some_iff.mp hpc
        cases heq
        rw [Heap.new, Option.ite_none_right_eq_some] at hnew
        obtain ⟨-, heq⟩ := hnew
        cases heq
        exact (Function.update_of_ne hy _ _).trans hfree
    | lock item node =>
        simp only [enqueue, Option.ite_none_right_eq_some] at hpc
        cases hpc.2
        exact hfree
    | testHead item node =>
        simp only [enqueue] at hpc
        split at hpc
        all_goals
          cases hpc
          exact hfree
    | storeNext item node tail =>
        obtain ⟨p, rfl, hpc⟩ := Option.bind_eq_some_iff.mp hpc
        obtain ⟨v, hv, hpc⟩ := Option.bind_eq_some_iff.mp hpc
        cases hpc
        refine (Function.update_of_ne ?_ _ _).trans hfree
        rintro rfl
        obtain ⟨c, hc, -⟩ := Option.map_eq_some_iff.mp hv
        cases hfree.symm.trans hc
    | _ =>
        cases hpc
        exact hfree
  · cases pc with
    | refused item => cases hpc
    | done item => cases hpc
    | lock item =>
        simp only [dequeue, Option.ite_none_right_eq_some] at hpc
        cases hpc.2
        exact hfree
    | testHead item | testEmpty item tmp =>
        simp only [dequeue] at hpc
        split at hpc
        all_goals
          cases hpc
          exact hfree
    | readNext item tmp head =>
        obtain ⟨p, rfl, hpc⟩ := Option.bind_eq_some_iff.mp hpc
        obtain ⟨v, hv, hpc⟩ := Option.bind_eq_some_iff.mp hpc
        cases hpc
        exact hfree
    | readItem item tmp =>
        obtain ⟨p, rfl, hpc⟩ := Option.bind_eq_some_iff.mp hpc
        obtain ⟨v, hv, hpc⟩ := Option.bind_eq_some_iff.mp hpc
        cases hpc
        exact hfree
    | delete item tmp =>
        obtain ⟨p, rfl, hpc⟩ := Option.bind_eq_some_iff.mp hpc
        obtain ⟨v, hv, hpc⟩ := Option.bind_eq_some_iff.mp hpc
        cases hpc
        refine (Function.update_of_ne ?_ _ _).trans hfree
        rintro rfl
        obtain ⟨c, hc, -⟩ := Option.map_eq_some_iff.mp hv
        cases hfree.symm.trans hc
    | _ =>
        cases hpc
        exact hfree

theorem goesOn_of_enqueue (i : ι) (x : ℕ) {s : Shared ι V} {pc : Enqueue V}
    (h : (enqueue i x s pc).isSome) :
  (machine ι V).GoesOn i s (.enqueue pc)
  := by
  obtain ⟨⟨s', pc', t⟩, hs⟩ := Option.isSome_iff_exists.mp h
  exact Or.inr ⟨x, s', .enqueue pc', t, Option.map_eq_some_iff.mpr ⟨_, hs, rfl⟩⟩

theorem goesOn_of_dequeue (i : ι) {s : Shared ι V} {pc : Dequeue V}
    (h : (dequeue i s pc).isSome) :
  (machine ι V).GoesOn i s (.dequeue pc)
  := by
  obtain ⟨⟨s', pc', t⟩, hs⟩ := Option.isSome_iff_exists.mp h
  exact Or.inr ⟨0, s', .dequeue pc', t, Option.map_eq_some_iff.mpr ⟨_, hs, rfl⟩⟩

/-- In the critical section the tail of a queue that is not empty is not null. -/
theorem Inv.tail_ne_none {s : Shared ι V} {a : Chain ι} (h : Inv (s, a))
    (hsection : Section i (s, a)) (hne : a.nodes ≠ []) :
  s.tail ≠ none
  := by
  rw [h.tail hsection.2]
  simpa using hne

/-- A thread that is not at the lock when it is taken goes on: the node it follows is alive. -/
theorem goesOn_or_waits {s : Shared ι V} {a : Chain ι} {l : Local V} (h : Inv (s, a))
    (hl : Knows i (s, a) (some l)) (hfree : ∃ x, s.Free x) :
  (machine ι V).GoesOn i s l ∨ ∃ j, s.mutex = some j ∧ Waits i j s l
  := by
  have hread : ∀ o, l.follows = o → o ≠ none → ∃ p v, o = some p ∧ s.heap.read p = some v := by
    intro o ho hne
    obtain ⟨p, rfl⟩ := Option.ne_none_iff_exists'.mp hne
    obtain ⟨v, hv⟩ := hl.alive h ho
    exact ⟨p, v, rfl, hv.read⟩
  cases l with
  | enqueue pc =>
      cases pc with
      | done item => exact Or.inl (Or.inl ⟨_, rfl⟩)
      | new item =>
          obtain ⟨x, hx⟩ := hfree
          rw [Shared.Free] at hx
          left
          apply goesOn_of_enqueue i x
          simp [enqueue, Heap.new, hx]
      | lock item node =>
          cases hlock : s.mutex with
          | none =>
              left
              apply goesOn_of_enqueue i 0
              simp [enqueue, hlock]
          | some j => exact Or.inr ⟨j, rfl, hlock⟩
      | testHead item node =>
          left
          apply goesOn_of_enqueue i 0
          simp only [enqueue]
          split <;> rfl
      | storeNext item node tail =>
          obtain ⟨-, hsection, hne, htail⟩ := hl
          obtain ⟨p, v, rfl, hv⟩ := hread tail rfl (htail ▸ h.tail_ne_none hsection hne)
          left
          apply goesOn_of_enqueue i 0
          simp [enqueue, hv]
      | _ =>
          left
          apply goesOn_of_enqueue i 0
          rfl
  | dequeue pc =>
      cases pc with
      | refused item => exact Or.inl (Or.inl ⟨_, rfl⟩)
      | done item => exact Or.inl (Or.inl ⟨_, rfl⟩)
      | lock item =>
          cases hlock : s.mutex with
          | none =>
              left
              apply goesOn_of_dequeue
              simp [dequeue, hlock]
          | some j => exact Or.inr ⟨j, rfl, hlock⟩
      | testHead item | testEmpty item tmp =>
          left
          apply goesOn_of_dequeue
          simp only [dequeue]
          split <;> rfl
      | readNext item tmp head =>
          obtain ⟨-, -, hne, -, hhead⟩ := hl
          have hsome : a.nodes.head? ≠ none := by simpa using hne
          obtain ⟨p, v, rfl, hv⟩ := hread head rfl (hhead ▸ hsome)
          left
          apply goesOn_of_dequeue
          simp [dequeue, hv]
      | readItem item tmp | delete item tmp =>
          obtain ⟨p, v, rfl, hv⟩ := hread _ rfl hl.1
          left
          apply goesOn_of_dequeue
          simp [dequeue, hv]
      | _ =>
          left
          apply goesOn_of_dequeue
          rfl

/-- A thread that holds the mutex is not about to take it. -/
theorem not_waits_of_inside {s : Shared ι V} {l : Local V} (hl : l.Inside) (j : ι) :
  ¬ Waits i j s l
  := by
  cases l with
  | enqueue pc => cases pc <;> first | exact id | exact hl.elim
  | dequeue pc => cases pc <;> first | exact id | exact hl.elim

theorem neverStuck (ι V : Type) [DecidableEq ι] [Inhabited V] :
  (machine ι V).NeverStuck Waits
  := by
  have hfree : ∀ n (r : (machine ι V).Run n), ∀ k ≤ n, ∃ x, (r.conf k).shared.Free x := by
    apply exists_free
    · exact ⟨0, fun x _ => rfl⟩
    · exact fun i x s l s' l' t y hs hy hfree => step_free hs hy hfree
  apply neverStuck_of_locks (F := fun s : Shared ι V => ∃ x, s.Free x) (outline ι V)
    (fun _ => trivial) (fun _ : Unit => lock) hfree
  · intro i s l hG hL hF
    rcases goesOn_or_waits hG hL hF with hgoes | ⟨j, hheld, hwaits⟩
    · exact Or.inl hgoes
    · exact Or.inr ⟨(), j, hheld, hwaits⟩
  · intro _ i s l hG hL hF hin
    rcases goesOn_or_waits hG hL hF with hgoes | ⟨j, -, hwaits⟩
    · exact hgoes
    · exact absurd hwaits (not_waits_of_inside hin j)

end MutexQueue

namespace RingQueue

variable {ι ρ ℓ : Type} {M : Machine ι ρ ℓ (RingOp ℕ) (RingRes ℕ) (RingTag ℕ) Unit} {null : ℕ}
  {twice : Bool} {dequeue : ι → Shared ρ → Dequeue ℓ → Option (Shared ρ × Dequeue ℓ × Tag)}
  {i : ι}

/-- At the points of `enqueue` the `next` that is read once more is not null, and the call of a ring
has not ended. -/
def Enqueue.Ready (M : Machine ι ρ ℓ (RingOp ℕ) (RingRes ℕ) (RingTag ℕ) Unit) (s : Shared ρ) :
    Enqueue ℓ → Prop
  | .reloadNext _ crq => s.next crq ≠ none
  | .ring _ _ l | .newRing _ _ _ l => M.result l = none
  | _ => True

/-- At the points of `dequeue` the call of a ring has not ended, and it is the only one unless
`twice`. -/
def Dequeue.Ready (M : Machine ι ρ ℓ (RingOp ℕ) (RingRes ℕ) (RingTag ℕ) Unit) (twice : Bool) :
    Dequeue ℓ → Prop
  | .ring _ _ l => M.result l = none
  | .retry _ _ _ l => twice = true ∧ M.result l = none
  | _ => True

/-- A thread in a call is ready. -/
def Local.Ready (M : Machine ι ρ ℓ (RingOp ℕ) (RingRes ℕ) (RingTag ℕ) Unit) (twice : Bool)
    (s : Shared ρ) : Local ℓ → Prop
  | .enqueue pc => pc.Ready M s
  | .dequeue pc => pc.Ready M twice

/-- The field `next` of a ring, once it has been set, is not null again. -/
def Keeps (s s' : Shared ρ) : Prop := ∀ p, s.next p ≠ none → s'.next p ≠ none

theorem call_next {s s' : Shared ρ} {p : ℕ} {l l' : ℓ} {t : Tag}
    (hs : call M i s p l = some (s', l', t)) :
  s'.next = s.next
  := by
  obtain ⟨⟨x, l', τ⟩, -, heq⟩ := Option.map_eq_some_iff.mp hs
  cases heq
  rfl

theorem enqueue_ready (hstart : ∀ o, M.result (M.start o) = none) {s s' : Shared ρ}
    {pc pc' : Enqueue ℓ} {t : Tag} (hs : enqueue M i s pc = some (s', pc', t)) :
  pc'.Ready M s' ∧ Keeps s s'
  := by
  have hcall : ∀ {p : ℕ} {l l' : ℓ} {s' : Shared ρ} {t : Tag},
      call M i s p l = some (s', l', t) → Keeps s s' := by
    intro p l l' s' t hs q hq
    rwa [call_next hs]
  cases enqueue_step hs with
  | loadTail x => exact ⟨trivial, fun _ => id⟩
  | follow =>
      simp only [enqueue] at hs
      split at hs
      case isTrue hne => exact ⟨hne, fun _ => id⟩
      case isFalse => cases hs
  | enter => exact ⟨hstart _, fun _ => id⟩
  | reloadNext hnext => exact ⟨trivial, fun _ => id⟩
  | swing => exact ⟨trivial, fun _ => id⟩
  | late => exact ⟨trivial, fun _ => id⟩
  | ring hs hres => exact ⟨hres, hcall hs⟩
  | ok hs hres hv => exact ⟨trivial, hcall hs⟩
  | closed hs hres => exact ⟨hstart _, fun q hq => hcall hs q hq⟩
  | newRing hs hres => exact ⟨hres, hcall hs⟩
  | filled hs hres => exact ⟨trivial, hcall hs⟩
  | @link x p q hnull =>
      refine ⟨trivial, fun r hr => ?_⟩
      have hrp : r ≠ p := by
        rintro rfl
        exact hr hnull
      simpa [Function.update_of_ne hrp] using hr
  | discard => exact ⟨trivial, fun _ => id⟩
  | swingTail => exact ⟨trivial, fun _ => id⟩
  | skip => exact ⟨trivial, fun _ => id⟩

theorem dequeue_ready (hstart : ∀ o, M.result (M.start o) = none) {s s' : Shared ρ}
    {pc pc' : Dequeue ℓ} {t : Tag} (hs : DequeueStep M null twice i s pc s' pc' t)
    (h : pc.Ready M twice) :
  pc'.Ready M twice ∧ Keeps s s'
  := by
  have hcall : ∀ {p : ℕ} {l l' : ℓ} {s' : Shared ρ} {t : Tag},
      call M i s p l = some (s', l', t) → Keeps s s' := by
    intro p l l' s' t hs q hq
    rwa [call_next hs]
  cases hs with
  | loadHead item => exact ⟨hstart _, fun _ => id⟩
  | ring hs hres => exact ⟨hres, hcall hs⟩
  | give hs hres hv => exact ⟨trivial, hcall hs⟩
  | empty hs hres hv => exact ⟨trivial, hcall hs⟩
  | refuse hnext => exact ⟨trivial, fun _ => id⟩
  | once hnext htwice => exact ⟨trivial, fun _ => id⟩
  | again hnext htwice => exact ⟨⟨htwice, hstart _⟩, fun _ => id⟩
  | retry hs hres => exact ⟨⟨h.1, hres⟩, hcall hs⟩
  | retryGive hs hres hv => exact ⟨trivial, hcall hs⟩
  | retryEmpty hs hres hv => exact ⟨trivial, hcall hs⟩
  | shift hhead => exact ⟨trivial, fun _ => id⟩
  | lose hhead => exact ⟨trivial, fun _ => id⟩

theorem Local.Ready.keep {s s' : Shared ρ} {l : Local ℓ} (h : l.Ready M twice s)
    (hs : Keeps s s') :
  l.Ready M twice s'
  := by
  cases l with
  | enqueue pc =>
      cases pc with
      | reloadNext x crq => exact hs crq h
      | _ => exact h
  | dequeue pc => exact h

/-- Threads are ready at every moment. -/
theorem ready_outline (hD : Dequeues M null twice dequeue)
    (hstart : ∀ o, M.result (M.start o) = none) :
  (machine M dequeue).Outline (fun _ => True) (fun _ s l => ∀ x, l = some x → x.Ready M twice s)
    fun _ => Keeps
  := by
  constructor
  case init => trivial
  case idle =>
    rintro i x ⟨⟩
  case call =>
    rintro i s o - - - x ⟨⟩
    cases o <;> trivial
  case ret =>
    rintro i s l v - - - x ⟨⟩
  case stable => exact fun _ _ hs hl x hx => (hl x hx).keep hs
  case step =>
    intro i ch s l s' l' t _ hl _ _ hs
    suffices hready : l'.Ready M twice s' ∧ Keeps s s' by
      refine ⟨trivial, ?_, fun _ _ => hready.2⟩
      rintro x ⟨⟩
      exact hready.1
    have hl := hl l rfl
    cases l with
    | enqueue pc =>
        obtain ⟨⟨_, pc', _⟩, hs, heq⟩ := Option.map_eq_some_iff.mp hs
        cases heq
        exact enqueue_ready hstart hs
    | dequeue pc =>
        obtain ⟨⟨_, pc', _⟩, hs, heq⟩ := Option.map_eq_some_iff.mp hs
        cases heq
        exact dequeue_ready hstart (hD hs) hl

theorem call_isSome (hring : ∀ i x l, M.GoesOn i x l) {s : Shared ρ} {p : ℕ} {l : ℓ}
    (hl : M.result l = none) :
  (call M i s p l).isSome
  := by
  rcases hring i (s.ring p) l with ⟨v, hv⟩ | ⟨⟨⟩, x, l', τ, hs⟩
  · cases hl.symm.trans hv
  · rw [call, hs]
    rfl

theorem Enqueue.Ready.goesOn (hring : ∀ i x l, M.GoesOn i x l) {s : Shared ρ} {pc : Enqueue ℓ}
    (h : pc.Ready M s) :
  (machine M dequeue).GoesOn i s (.enqueue pc)
  := by
  have hgoes : (enqueue M i s pc).isSome → (machine M dequeue).GoesOn i s (.enqueue pc) := by
    intro hsome
    obtain ⟨⟨s', pc', t⟩, hs⟩ := Option.isSome_iff_exists.mp hsome
    exact Or.inr ⟨(), s', .enqueue pc', t, Option.map_eq_some_iff.mpr ⟨_, hs, rfl⟩⟩
  cases pc with
  | done x => exact Or.inl ⟨_, rfl⟩
  | reloadNext x crq =>
      obtain ⟨q, hq⟩ := Option.ne_none_iff_exists'.mp h
      apply hgoes
      simp [enqueue, hq]
  | ring x crq l =>
      apply hgoes
      simpa [enqueue] using call_isSome hring h
  | newRing x crq newcrq l =>
      apply hgoes
      simpa [enqueue] using call_isSome hring h
  | _ =>
      apply hgoes
      simp only [enqueue]
      try split
      all_goals rfl

/-- A queue of rings is never stuck if its rings are not, and its `dequeue` is not. -/
theorem neverStuck [DecidableEq ι] (hD : Dequeues M null twice dequeue)
    (hstart : ∀ o, M.result (M.start o) = none) (hring : ∀ i x l, M.GoesOn i x l)
    (hdequeue : ∀ i s pc, pc.Ready M twice → (∃ item, pc = .refused item ∨ pc = .done item) ∨
      (dequeue i s pc).isSome) :
  (machine M dequeue).NeverStuck fun _ _ _ _ => False
  := by
  intro n r k hk i l hl
  have hready := ((ready_outline hD hstart).sound r k hk).2 i l hl
  left
  cases l with
  | enqueue pc => exact hready.goesOn hring
  | dequeue pc =>
      rcases hdequeue i (r.conf k).shared pc hready with ⟨item, rfl | rfl⟩ | hsome
      · exact Or.inl ⟨_, rfl⟩
      · exact Or.inl ⟨_, rfl⟩
      · obtain ⟨⟨s', pc', t⟩, hs⟩ := Option.isSome_iff_exists.mp hsome
        exact Or.inr ⟨(), s', .dequeue pc', t, Option.map_eq_some_iff.mpr ⟨_, hs, rfl⟩⟩

end RingQueue

namespace LCRQueue

open RingQueue

variable {ι : Type}

/-- The rings follow no pointers. -/
theorem ring_goesOn (i : ι) (s : CRQ.Shared) (l : CRQ.Local) :
  (CRQ.machine ι).GoesOn i s l
  := by
  cases l with
  | enqueue pc =>
      have hgoes : (CRQ.enqueue s pc).isSome → (CRQ.machine ι).GoesOn i s (.enqueue pc) := by
        intro hsome
        obtain ⟨⟨s', pc', t⟩, hs⟩ := Option.isSome_iff_exists.mp hsome
        exact Or.inr ⟨(), s', .enqueue pc', t, Option.map_eq_some_iff.mpr ⟨_, hs, rfl⟩⟩
      cases pc with
      | ok => exact Or.inl ⟨_, rfl⟩
      | closed => exact Or.inl ⟨_, rfl⟩
      | _ =>
          apply hgoes
          simp only [CRQ.enqueue]
          repeat' split
          all_goals rfl
  | dequeue pc =>
      have hgoes : (CRQ.dequeue s pc).isSome → (CRQ.machine ι).GoesOn i s (.dequeue pc) := by
        intro hsome
        obtain ⟨⟨s', pc', t⟩, hs⟩ := Option.isSome_iff_exists.mp hsome
        exact Or.inr ⟨(), s', .dequeue pc', t, Option.map_eq_some_iff.mpr ⟨_, hs, rfl⟩⟩
      cases pc with
      | gave val => exact Or.inl ⟨_, rfl⟩
      | empty => exact Or.inl ⟨_, rfl⟩
      | _ =>
          apply hgoes
          simp only [CRQ.dequeue]
          repeat' split
          all_goals rfl

theorem neverStuck (ι : Type) [DecidableEq ι] :
  (machine ι).NeverStuck fun _ _ _ _ => False
  := by
  apply RingQueue.neverStuck dequeue_step _ ring_goesOn
  · intro i s pc h
    cases pc with
    | refused item => exact Or.inl ⟨item, Or.inl rfl⟩
    | done item => exact Or.inl ⟨item, Or.inr rfl⟩
    | retry item crq next l => cases h.1
    | ring item crq l => exact Or.inr (by simpa [dequeue] using call_isSome ring_goesOn h)
    | _ =>
        right
        simp only [dequeue]
        try split
        all_goals rfl
  · intro o
    cases o <;> rfl

end LCRQueue

namespace LPRQueue

open RingQueue

variable {ι : Type} (tokens : PRQ.Tokens ι)

theorem ring_goesOn (i : ι) (s : PRQ.Shared) (l : PRQ.Local) :
  (PRQ.machine tokens).GoesOn i s l
  := by
  cases l with
  | enqueue pc =>
      have hgoes : (PRQ.enqueue (tokens.threadToken i) s pc).isSome →
          (PRQ.machine tokens).GoesOn i s (.enqueue pc) := by
        intro hsome
        obtain ⟨⟨s', pc', t⟩, hs⟩ := Option.isSome_iff_exists.mp hsome
        exact Or.inr ⟨(), s', .enqueue pc', t, Option.map_eq_some_iff.mpr ⟨_, hs, rfl⟩⟩
      cases pc with
      | ok => exact Or.inl ⟨_, rfl⟩
      | closed => exact Or.inl ⟨_, rfl⟩
      | _ =>
          apply hgoes
          simp only [PRQ.enqueue]
          repeat' split
          all_goals rfl
  | dequeue pc =>
      have hgoes : (PRQ.dequeue s pc).isSome → (PRQ.machine tokens).GoesOn i s (.dequeue pc) := by
        intro hsome
        obtain ⟨⟨s', pc', t⟩, hs⟩ := Option.isSome_iff_exists.mp hsome
        exact Or.inr ⟨(), s', .dequeue pc', t, Option.map_eq_some_iff.mpr ⟨_, hs, rfl⟩⟩
      cases pc with
      | gave value => exact Or.inl ⟨_, rfl⟩
      | empty => exact Or.inl ⟨_, rfl⟩
      | _ =>
          apply hgoes
          simp only [PRQ.dequeue]
          repeat' split
          all_goals rfl

theorem neverStuck [DecidableEq ι] :
  (machine tokens).NeverStuck fun _ _ _ _ => False
  := by
  apply RingQueue.neverStuck dequeue_step _ (ring_goesOn tokens)
  · intro i s pc h
    cases pc with
    | refused item => exact Or.inl ⟨item, Or.inl rfl⟩
    | done item => exact Or.inl ⟨item, Or.inr rfl⟩
    | ring item prq l => exact Or.inr (by simpa [dequeue] using call_isSome (ring_goesOn tokens) h)
    | retry item prq next l =>
        exact Or.inr (by simpa [dequeue] using call_isSome (ring_goesOn tokens) h.2)
    | _ =>
        right
        simp only [dequeue]
        try split
        all_goals rfl
  · intro o
    cases o <;> rfl

end LPRQueue

/-- In every run of every queue, a thread in a call is never at a point where it would follow a null
pointer or a pointer to a deleted node: it can go on. In the queues with locks it may wait for
another thread that holds the lock, and that thread can go on. -/
theorem queues_neverStuck (ι V : Type) [DecidableEq ι] [Inhabited V] (tokens : PRQ.Tokens ι) :
  (MutexQueue.machine ι V).NeverStuck MutexQueue.Waits ∧
    (TwoLockQueue.machine ι V).NeverStuck TwoLockQueue.Waits ∧
    (MSQueue.machine ι V).NeverStuck (fun _ _ _ _ => False) ∧
    (ValoisQueue.machine ι V).NeverStuck (fun _ _ _ _ => False) ∧
    (PLJQueue.machine ι V).NeverStuck (fun _ _ _ _ => False) ∧
    (LCRQueue.machine ι).NeverStuck (fun _ _ _ _ => False) ∧
    (LPRQueue.machine tokens).NeverStuck (fun _ _ _ _ => False)
  := by
  refine ⟨MutexQueue.neverStuck ι V, TwoLockQueue.neverStuck ι V, MSQueue.neverStuck ι V,
    ValoisQueue.neverStuck ι V, PLJQueue.neverStuck ι V, LCRQueue.neverStuck ι, ?_⟩
  apply LPRQueue.neverStuck
