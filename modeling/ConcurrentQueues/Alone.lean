import ConcurrentQueues.Library.Alone
import ConcurrentQueues.LockFree
import ConcurrentQueues.Histories
import ConcurrentQueues.PLJQueue.Progress

/-!
# A thread that is left alone returns

A call of a queue with locks makes a fixed number of accesses, once it has its lock. A thread of
another linked queue that is left alone returns from its call within a fixed number of accesses,
whatever the others have been doing and wherever they rest.
-/

open Machine

/-! ### The queues with locks -/

namespace MutexQueue

variable {ι V : Type} {i : ι} {s s' : Shared ι V} {t : Tag}

/-- The number of accesses to the end of the call. -/
def Enqueue.left : Enqueue V → ℕ
  | .new _ => 7
  | .lock _ _ => 6
  | .testHead _ _ => 5
  | .readTail _ _ => 4
  | .writeHead _ _ | .storeNext _ _ _ => 3
  | .writeTail _ _ => 2
  | .unlock _ => 1
  | .done _ => 0

def Dequeue.left : Dequeue V → ℕ
  | .lock _ => 11
  | .testHead _ => 10
  | .readHead _ => 9
  | .rereadHead _ _ => 8
  | .readNext _ _ _ => 7
  | .writeHead _ _ _ => 6
  | .testEmpty _ _ => 5
  | .clearTail _ _ => 4
  | .unlock _ _ => 3
  | .readItem _ _ => 2
  | .unlockEmpty _ | .delete _ _ => 1
  | .refused _ | .done _ => 0

def left : Local V → ℕ
  | .enqueue pc => pc.left
  | .dequeue pc => pc.left

theorem left_le (l : Local V) :
  left l ≤ 11
  := by
  cases l with
  | enqueue pc => cases pc <;> simp [left, Enqueue.left]
  | dequeue pc => cases pc <;> simp [left, Dequeue.left]

theorem enqueue_left {address : ℕ} {pc pc' : Enqueue V}
    (hs : enqueue i address s pc = some (s', pc', t)) :
  pc'.left < pc.left
  := by
  cases pc with
  | new item =>
      obtain ⟨⟨heap, node⟩, -, heq⟩ := Option.map_eq_some_iff.mp hs
      cases heq
      exact Nat.lt_succ_self _
  | lock item node | testHead item node =>
      simp only [enqueue] at hs
      split at hs
      all_goals
        cases hs
        try simp [Enqueue.left]
  | storeNext item node tail =>
      simp only [enqueue, bind, Option.bind_eq_some_iff] at hs
      obtain ⟨p, -, v, -, heq⟩ := hs
      cases heq
      exact Nat.lt_succ_self _
  | done item => cases hs
  | _ =>
      cases hs
      exact Nat.lt_succ_self _

theorem dequeue_left {pc pc' : Dequeue V} (hs : dequeue i s pc = some (s', pc', t)) :
  pc'.left < pc.left
  := by
  cases pc with
  | lock item | testHead item | testEmpty item tmp =>
      simp only [dequeue] at hs
      split at hs
      all_goals
        cases hs
        try simp [Dequeue.left]
  | readNext item tmp head | readItem item tmp | delete item tmp =>
      simp only [dequeue, bind, Option.bind_eq_some_iff] at hs
      obtain ⟨p, -, v, -, heq⟩ := hs
      cases heq
      exact Nat.lt_succ_self _
  | refused item | done item => cases hs
  | _ =>
      cases hs
      exact Nat.lt_succ_self _

theorem returnsWithin [DecidableEq ι] {n : ℕ} (r : (machine ι V).Run n) :
  r.ReturnsWithin 13
  := by
  apply Run.returnsWithin_of_left left_le
  intro i address s l s' l' t hs
  rcases step_inv hs with ⟨pc, pc', rfl, rfl, hpc⟩ | ⟨pc, pc', rfl, rfl, hpc⟩
  · exact enqueue_left hpc
  · exact dequeue_left hpc

end MutexQueue

namespace TwoLockQueue

variable {ι V : Type} {i : ι} {s s' : Shared ι V} {t : Tag}

/-- The number of accesses to the end of the call. -/
def Enqueue.left : Enqueue V → ℕ
  | .new _ => 6
  | .lock _ _ => 5
  | .readTail _ _ => 4
  | .storeNext _ _ _ => 3
  | .writeTail _ _ => 2
  | .unlock _ => 1
  | .done _ => 0

def Dequeue.left : Dequeue V → ℕ
  | .lock _ => 7
  | .readHead _ => 6
  | .loadNext _ _ => 5
  | .readItem _ _ _ => 4
  | .writeHead _ _ _ => 3
  | .unlock _ _ => 2
  | .unlockEmpty _ | .delete _ _ => 1
  | .refused _ | .done _ => 0

def left : Local V → ℕ
  | .enqueue pc => pc.left
  | .dequeue pc => pc.left

theorem left_le (l : Local V) :
  left l ≤ 7
  := by
  cases l with
  | enqueue pc => cases pc <;> simp [left, Enqueue.left]
  | dequeue pc => cases pc <;> simp [left, Dequeue.left]

theorem enqueue_left {address : ℕ} {pc pc' : Enqueue V}
    (hs : enqueue i address s pc = some (s', pc', t)) :
  pc'.left < pc.left
  := by
  cases pc with
  | new item | lock item node =>
      simp only [enqueue] at hs
      split at hs
      · cases hs
        exact Nat.lt_succ_self _
      · cases hs
  | storeNext item node tail =>
      obtain ⟨c, -, heq⟩ := Option.map_eq_some_iff.mp hs
      cases heq
      exact Nat.lt_succ_self _
  | done item => cases hs
  | _ =>
      cases hs
      exact Nat.lt_succ_self _

theorem dequeue_left {pc pc' : Dequeue V} (hs : dequeue i s pc = some (s', pc', t)) :
  pc'.left < pc.left
  := by
  cases pc with
  | lock item =>
      simp only [dequeue] at hs
      split at hs
      · cases hs
        exact Nat.lt_succ_self _
      · cases hs
  | loadNext item dummy =>
      obtain ⟨c, -, heq⟩ := Option.map_eq_some_iff.mp hs
      split at heq
      all_goals
        cases heq
        simp [Dequeue.left]
  | readItem item dummy newHead | delete item dummy =>
      obtain ⟨c, -, heq⟩ := Option.map_eq_some_iff.mp hs
      cases heq
      exact Nat.lt_succ_self _
  | refused item | done item => cases hs
  | _ =>
      cases hs
      exact Nat.lt_succ_self _

theorem returnsWithin [DecidableEq ι] [Inhabited V] {n : ℕ} (r : (machine ι V).Run n) :
  r.ReturnsWithin 9
  := by
  apply Run.returnsWithin_of_left left_le
  intro i address s l s' l' t hs
  rcases step_inv hs with ⟨pc, pc', rfl, rfl, hpc⟩ | ⟨pc, pc', rfl, rfl, hpc⟩
  · exact enqueue_left hpc
  · exact dequeue_left hpc

end TwoLockQueue

/-! ### The lock-free queues -/

namespace MSQueue

variable {ι V : Type} {s s' : Shared V} {t : Tag}

/-- The points at which an operation has taken effect. -/
def Settled : Local V → Prop
  | .enqueue (.e17 _ _ _) | .enqueue (.done _) | .dequeue (.d20 _) => True
  | _ => False

/-- The number of accesses to the end of the round or of the call. -/
def Enqueue.left : Enqueue V → ℕ
  | .e1 _ => 6
  | .e5 _ _ => 5
  | .e6 _ _ _ => 4
  | .e7 _ _ _ _ => 3
  | .e9 _ _ _ _ | .e13 _ _ _ _ => 2
  | .e17 _ _ _ => 1
  | .done _ => 0

def Dequeue.left : Dequeue V → ℕ
  | .d2 _ => 6
  | .d3 _ _ => 5
  | .d4 _ _ _ => 4
  | .d5 _ _ _ _ => 3
  | .d10 _ _ _ | .d12 _ _ _ => 2
  | .d13 _ _ _ => 1
  | .d8 _ | .d20 _ => 0

def left (_ : Shared V) : Local V → ℕ
  | .enqueue pc => pc.left
  | .dequeue pc => pc.left

theorem left_lt (s : Shared V) (l : Local V) :
  left s l < 7
  := by
  cases l with
  | enqueue pc => cases pc <;> simp [left, Enqueue.left]
  | dequeue pc => cases pc <;> simp [left, Dequeue.left]

/-- What an access does for the thread that makes it. -/
abbrev Move (s : Shared V) (l : Local V) (s' : Shared V) (l' : Local V) (t : Tag) : Prop :=
  ListMove Settled Top left (change t) s l s' l'

theorem enqueue_move {pc pc' : Enqueue V} (hs : enqueue s pc = some (s', pc', t)) :
  Move s (.enqueue pc) s' (.enqueue pc') t
  := by
  cases pc with
  | e1 value | e5 value node =>
      cases hs
      exact .forward id rfl (.inr (by simp [left, Enqueue.left]))
  | e6 value node tail =>
      obtain ⟨p, -, heq⟩ := Option.map_eq_some_iff.mp hs
      cases heq
      exact .forward id rfl (.inr (by simp [left, Enqueue.left]))
  | e7 value node tail next =>
      simp only [enqueue] at hs
      split at hs
      · split at hs
        all_goals
          cases hs
          exact .forward id rfl (.inr (by simp [left, Enqueue.left]))
      · cases hs
        exact .forward id rfl (.inl trivial)
  | e9 value node tail next =>
      obtain ⟨p, -, heq⟩ := Option.map_eq_some_iff.mp hs
      split at heq
      · cases heq
        exact .settle trivial (by simp [left, Enqueue.left])
      · cases heq
        exact .forward id rfl (.inl trivial)
  | e13 value node tail next =>
      simp only [enqueue] at hs
      split at hs
      · cases hs
        exact .help id rfl trivial
      · cases hs
        exact .forward id rfl (.inl trivial)
  | e17 value node tail =>
      simp only [enqueue] at hs
      split at hs
      all_goals
        cases hs
        exact .settle trivial (by simp [left, Enqueue.left])
  | done value => cases hs

theorem dequeue_move {pc pc' : Dequeue V} (hs : dequeue s pc = some (s', pc', t)) :
  Move s (.dequeue pc) s' (.dequeue pc') t
  := by
  cases pc with
  | d2 pvalue | d3 pvalue head =>
      cases hs
      exact .forward id rfl (.inr (by simp [left, Dequeue.left]))
  | d4 pvalue head tail | d12 pvalue head next =>
      obtain ⟨p, -, heq⟩ := Option.map_eq_some_iff.mp hs
      cases heq
      exact .forward id rfl (.inr (by simp [left, Dequeue.left]))
  | d5 pvalue head tail next =>
      simp only [dequeue] at hs
      split at hs
      · split at hs
        · split at hs
          all_goals
            cases hs
            exact .forward id rfl (.inr (by simp [left, Dequeue.left]))
        · cases hs
          exact .forward id rfl (.inr (by simp [left, Dequeue.left]))
      · cases hs
        exact .forward id rfl (.inl trivial)
  | d10 pvalue tail next =>
      simp only [dequeue] at hs
      split at hs
      · cases hs
        exact .help id rfl trivial
      · cases hs
        exact .forward id rfl (.inl trivial)
  | d13 pvalue head next =>
      simp only [dequeue] at hs
      split at hs
      · cases hs
        exact .settle trivial (by simp [left, Dequeue.left])
      · cases hs
        exact .forward id rfl (.inl trivial)
  | d8 pvalue | d20 pvalue => cases hs

theorem next_eq [Inhabited V] (i : ι) (s : Shared V) (a : Spine ι) (l : Local V) (s' : Shared V)
    (l' : Local V) (t : Tag) :
  (ghost ι V).next i s a l s' l' t = a.next i (change t)
  := by cases t <;> rfl

theorem step_move [Inhabited V] {i : ι} {ch : Unit} {l l' : Local V}
    (hs : (machine ι V).step i ch s l = some (s', l', t)) (_ : ¬ never s l l') :
  Move s l s' l' t
  := by
  rcases step_inv hs with ⟨pc, pc', rfl, rfl, hpc⟩ | ⟨pc, pc', rfl, rfl, hpc⟩
  · exact enqueue_move hpc
  · exact dequeue_move hpc

theorem returnsAlone [DecidableEq ι] [Inhabited V] {n : ℕ} (r : (machine ι V).Run n) :
  r.ReturnsAlone never 23
  := by
  have hdescends := descends_of_listMove (retries ι V) next_eq left_lt step_move
  exact hdescends.returnsAlone (outline ι V) r fun _ _ => trivial

end MSQueue

namespace ValoisQueue

variable {ι V : Type} {s s' : Shared V} {t : Tag}

/-- The weak CAS of `retire` fails although `retired_` is what the thread expects. -/
def Spurious (s : Shared V) : Local V → Local V → Prop
  | .dequeue (.casRetired _ _ oldRetired), .dequeue (.storeRetiredNext _ _ _) =>
      s.retired = oldRetired
  | _, _ => False

/-- The points at which an operation has taken effect. -/
def Settled : Local V → Prop
  | .enqueue (.swing _ _ _) | .enqueue (.done _) | .dequeue (.loadRetired _ _)
  | .dequeue (.storeRetiredNext _ _ _) | .dequeue (.casRetired _ _ _) | .dequeue (.done _) => True
  | _ => False

/-- The number of accesses to the end of the round or of the call. -/
def Enqueue.left : Enqueue V → ℕ
  | .new _ => 6
  | .loadTail _ _ => 5
  | .loadNext _ _ _ => 4
  | .checkTail _ _ _ _ => 3
  | .link _ _ _ | .help _ _ _ _ => 2
  | .swing _ _ _ => 1
  | .done _ => 0

/-- The CAS of `retire` fails once when another node has been retired. -/
def Dequeue.left (s : Shared V) : Dequeue V → ℕ
  | .loadHead _ => 9
  | .loadTail _ _ => 8
  | .loadNext _ _ _ => 7
  | .checkHead _ _ _ _ => 6
  | .help _ _ _ | .readItem _ _ _ => 5
  | .swing _ _ _ => 4
  | .loadRetired _ _ => 3
  | .storeRetiredNext _ _ oldRetired => if s.retired = oldRetired then 2 else 4
  | .casRetired _ _ oldRetired => if s.retired = oldRetired then 1 else 3
  | .refused _ | .done _ => 0

def left (s : Shared V) : Local V → ℕ
  | .enqueue pc => pc.left
  | .dequeue pc => pc.left s

theorem left_lt (s : Shared V) (l : Local V) :
  left s l < 10
  := by
  cases l with
  | enqueue pc => cases pc <;> simp [left, Enqueue.left]
  | dequeue pc =>
      cases pc with
      | storeRetiredNext item node oldRetired | casRetired item node oldRetired =>
          simp only [left, Dequeue.left]
          split <;> omega
      | _ => simp [left, Dequeue.left]

/-- What an access does for the thread that makes it. -/
abbrev Move (s : Shared V) (l : Local V) (s' : Shared V) (l' : Local V) (t : Tag) : Prop :=
  ListMove Settled Top left (change t) s l s' l'

theorem enqueue_move {pc pc' : Enqueue V} (hs : enqueue s pc = some (s', pc', t)) :
  Move s (.enqueue pc) s' (.enqueue pc') t
  := by
  cases pc with
  | new item | loadTail item node =>
      cases hs
      exact .forward id rfl (.inr (by simp [left, Enqueue.left]))
  | loadNext item node tail =>
      obtain ⟨p, -, heq⟩ := Option.map_eq_some_iff.mp hs
      cases heq
      exact .forward id rfl (.inr (by simp [left, Enqueue.left]))
  | checkTail item node tail next =>
      simp only [enqueue] at hs
      split at hs
      · cases hs
        exact .forward id rfl (.inl trivial)
      · split at hs
        all_goals
          cases hs
          exact .forward id rfl (.inr (by simp [left, Enqueue.left]))
  | link item node tail =>
      obtain ⟨p, -, heq⟩ := Option.map_eq_some_iff.mp hs
      split at heq
      · cases heq
        exact .settle trivial (by simp [left, Enqueue.left])
      · cases heq
        exact .forward id rfl (.inl trivial)
  | swing item node tail =>
      simp only [enqueue] at hs
      split at hs
      all_goals
        cases hs
        exact .settle trivial (by simp [left, Enqueue.left])
  | help item node tail next =>
      simp only [enqueue] at hs
      split at hs
      · cases hs
        exact .help id rfl trivial
      · cases hs
        exact .forward id rfl (.inl trivial)
  | done item => cases hs

theorem dequeue_move {weak : Bool} {pc pc' : Dequeue V}
    (hs : dequeue weak s pc = some (s', pc', t))
    (hspurious : ¬ Spurious s (.dequeue pc) (.dequeue pc')) :
  Move s (.dequeue pc) s' (.dequeue pc') t
  := by
  cases pc with
  | loadHead item | loadTail item head =>
      cases hs
      exact .forward id rfl (.inr (by simp [left, Dequeue.left]))
  | loadNext item head tail | readItem item head next =>
      obtain ⟨p, -, heq⟩ := Option.map_eq_some_iff.mp hs
      cases heq
      exact .forward id rfl (.inr (by simp [left, Dequeue.left]))
  | checkHead item head tail next =>
      simp only [dequeue] at hs
      split at hs
      · cases hs
        exact .forward id rfl (.inl trivial)
      · split at hs
        · cases hs
          exact .forward id rfl (.inr (by simp [left, Dequeue.left]))
        · split at hs
          all_goals
            cases hs
            exact .forward id rfl (.inr (by simp [left, Dequeue.left]))
  | help item tail next =>
      simp only [dequeue] at hs
      split at hs
      · cases hs
        exact .help id rfl trivial
      · cases hs
        exact .forward id rfl (.inl trivial)
  | swing item head next =>
      simp only [dequeue] at hs
      split at hs
      · cases hs
        exact .settle trivial (by simp [left, Dequeue.left])
      · cases hs
        exact .forward id rfl (.inl trivial)
  | loadRetired item node =>
      cases hs
      exact .settle trivial (by simp [left, Dequeue.left])
  | storeRetiredNext item node oldRetired =>
      obtain ⟨p, -, heq⟩ := Option.map_eq_some_iff.mp hs
      cases heq
      apply ListMove.settle trivial
      by_cases hretired : s.retired = oldRetired
      all_goals simp [left, Dequeue.left, Shared.setNode, hretired]
  | casRetired item node oldRetired =>
      obtain ⟨p, -, heq⟩ := Option.map_eq_some_iff.mp hs
      split at heq
      case isTrue hretired =>
        cases heq
        apply ListMove.settle trivial
        simp [left, Dequeue.left, hretired.1]
      case isFalse =>
        -- the thread expects what is there now
        cases heq
        have hne : s.retired ≠ oldRetired := hspurious
        apply ListMove.settle trivial
        simp [left, Dequeue.left, hne]
  | refused item | done item => cases hs

theorem next_eq [Inhabited V] (i : ι) (s : Shared V) (a : Spine ι) (l : Local V) (s' : Shared V)
    (l' : Local V) (t : Tag) :
  (ghost ι V).next i s a l s' l' t = a.next i (change t)
  := by cases t <;> rfl

theorem step_move [Inhabited V] {i : ι} {weak : Bool} {l l' : Local V}
    (hs : (machine ι V).step i weak s l = some (s', l', t)) (hspurious : ¬ Spurious s l l') :
  Move s l s' l' t
  := by
  rcases step_inv hs with ⟨pc, pc', rfl, rfl, hpc⟩ | ⟨pc, pc', rfl, rfl, hpc⟩
  · exact enqueue_move hpc
  · exact dequeue_move hpc hspurious

theorem returnsAlone [DecidableEq ι] [Inhabited V] {n : ℕ} (r : (machine ι V).Run n) :
  r.ReturnsAlone Spurious 32
  := by
  have hdescends := descends_of_listMove (retries ι V) next_eq left_lt step_move
  exact hdescends.returnsAlone (outline ι V) r fun _ _ => trivial

end ValoisQueue

namespace PLJQueue

variable {ι V : Type} {s s' : Shared V} {t : Tag}

/-- The points at which an operation has taken effect, or has found the queue empty. -/
def Settled : Local V → Prop
  | .enqueue (.swing _ _ _) | .enqueue (.fill _ _ _) | .enqueue (.done _)
  | .dequeue (.markTail _ _ _ _) | .dequeue (.markHead _ _ _) | .dequeue (.delinkLoad _ _)
  | .dequeue (.delinkStore _ _ _) | .dequeue (.readData _ _) | .dequeue (.refused _)
  | .dequeue (.done _) => True
  | _ => False

/-- The number of accesses to the end of the snapshot and of the longest branch behind it. A
snapshot reads the tail a second time when it has changed. -/
def Snapshot.left (s : Shared V) : Snapshot → ℕ
  | .loadHead _ => 11
  | .loadTail _ _ => 10
  | .loadNext _ firsttail _ => if s.tail = firsttail then 9 else 12
  | .checkTail _ firsttail _ => if s.tail = firsttail then 8 else 11
  | .checkHead _ _ _ => 7
  | .done _ _ _ => 6

/-- The number of accesses to the end of the round or of the call. -/
def Enqueue.left (s : Shared V) : Enqueue V → ℕ
  | .new _ => 13
  | .storeNext _ _ => 12
  | .snapshot _ _ pc => pc.left s
  | .link _ _ _ _ | .drainTail _ _ _ _ | .fillTail _ _ _ _ => 2
  | .swing _ _ _ | .shiftTail _ _ _ _ | .drainHead _ _ _ | .fill _ _ _ | .fillHead _ _ _ _ => 1
  | .done _ => 0

def Dequeue.left (s : Shared V) : Dequeue V → ℕ
  | .snapshot _ pc => pc.left s
  | .mark _ _ _ _ => 6
  | .loadHeadNext _ _ | .markTail _ _ _ _ => 5
  | .shiftHead _ _ _ | .markHead _ _ _ => 4
  | .delinkLoad _ _ => 3
  | .drainTail _ _ _ | .loadTailNext _ _ | .delinkStore _ _ _ => 2
  | .drainHead _ _ | .shiftTail _ _ _ | .fillHead _ _ _ | .readData _ _ => 1
  | .refused _ | .done _ => 0

def left (s : Shared V) : Local V → ℕ
  | .enqueue pc => pc.left s
  | .dequeue pc => pc.left s

theorem Snapshot.left_lt (s : Shared V) (pc : Snapshot) :
  pc.left s < 14
  := by
  cases pc with
  | loadNext firsthead firsttail next | checkTail firsthead firsttail next =>
      rw [left]
      split <;> omega
  | _ => simp [left]

theorem left_lt (s : Shared V) (l : Local V) :
  left s l < 14
  := by
  cases l with
  | enqueue pc =>
      cases pc with
      | snapshot item object pc => exact pc.left_lt s
      | _ => simp [left, Enqueue.left]
  | dequeue pc =>
      cases pc with
      | snapshot item pc => exact pc.left_lt s
      | _ => simp [left, Dequeue.left]

/-- A step brings a thread nearer to the end of its round, or the thread starts afresh because
something it has read is no longer there. -/
def Nears (s : Shared V) (l : Local V) (s' : Shared V) (l' : Local V) : Prop :=
  left s' l' < left s l ∨ ¬ l.Fresh s ∧ l'.Fresh s'

/-- A snapshot comes nearer to its end, or it starts afresh when the head has changed. -/
theorem snapshot_nears {pc pc' : Snapshot} (hs : snapshot s pc = some (pc', t)) :
  pc'.left s < pc.left s ∨ ¬ pc.Fresh s ∧ pc'.Fresh s
  := by
  cases pc with
  | loadHead next =>
      cases hs
      exact Or.inl (by simp [Snapshot.left])
  | loadTail firsthead next =>
      simp only [snapshot] at hs
      split at hs
      all_goals
        cases hs
        exact Or.inl (by simp [Snapshot.left])
  | loadNext firsthead firsttail next =>
      obtain ⟨p, -, heq⟩ := Option.map_eq_some_iff.mp hs
      cases heq
      left
      simp only [Snapshot.left]
      split <;> omega
  | checkTail firsthead firsttail next =>
      simp only [snapshot] at hs
      split at hs
      case isTrue htail =>
        cases hs
        exact Or.inl (by simp [Snapshot.left, htail])
      case isFalse htail =>
        cases hs
        exact Or.inl (by simp [Snapshot.left, htail])
  | checkHead firsthead tail next =>
      simp only [snapshot] at hs
      split at hs
      case isTrue =>
        cases hs
        exact Or.inl (by simp [Snapshot.left])
      case isFalse hhead =>
        cases hs
        exact Or.inr ⟨fun hfresh => hhead hfresh.1, trivial⟩
  | done head tail next => cases hs

/-- There is no other state of the queue than the eight. -/
theorem determineState_mem (head tail next : Pointer) :
  1 ≤ determineState head tail next ∧ determineState head tail next ≤ 8
  := by
  unfold determineState
  split_ifs <;> grind

theorem Enqueue.switch_left (item : V) (object : ℕ) (head tail next : Pointer) :
  (Enqueue.switch item object head tail next).left s ≤ 6
  := by
  have hstate := determineState_mem head tail next
  unfold Enqueue.switch
  split
  case h_9 => grind
  all_goals
    simp only [Enqueue.left]
    omega

theorem Dequeue.switch_left (item : V) (head tail next : Pointer) :
  (Dequeue.switch item head tail next).left s ≤ 6
  := by
  have hstate := determineState_mem head tail next
  unfold Dequeue.switch
  split
  case h_9 => grind
  all_goals
    simp only [Dequeue.left]
    omega

theorem Enqueue.after_left (item : V) (object : ℕ) (pc : Snapshot) :
  (Enqueue.afterSnapshot item object pc).left s ≤ pc.left s
  := by
  cases pc with
  | done head tail next => apply Enqueue.switch_left
  | _ => exact le_rfl

theorem Dequeue.after_left (item : V) (pc : Snapshot) :
  (Dequeue.afterSnapshot item pc).left s ≤ pc.left s
  := by
  cases pc with
  | done head tail next => apply Dequeue.switch_left
  | _ => exact le_rfl

/-- What an access does for the thread that makes it. -/
inductive Move (s : Shared V) (l : Local V) (s' : Shared V) (l' : Local V) (t : Tag) : Prop where
  | settle (hl' : Settled l') (hleft : left s' l' < left s l) : Move s l s' l' t
  | help (hl : ¬ Settled l) (ht : t.isCas = true) (heffect : effect t = .none)
      (hleft : l'.Fresh s' ∨ left s' l' < left s l) : Move s l s' l' t
  | forward (hl : ¬ Settled l) (ht : t.isCas = false) (hleft : Nears s l s' l') : Move s l s' l' t

/-- A thread that has failed starts afresh. -/
theorem Move.fail {l l' : Local V} (hl : ¬ Settled l) (h : ¬ l.Fresh s) (hl' : l'.Fresh s) :
  Move s l s l' .silent
  := .forward hl rfl (Or.inr ⟨h, hl'⟩)

theorem enqueue_move {pc pc' : Enqueue V} (hs : enqueue s pc = some (s', pc', t)) :
  Move s (.enqueue pc) s' (.enqueue pc') t
  := by
  cases pc with
  | new item | storeNext item object =>
      cases hs
      exact .forward id rfl (Or.inl (by simp [left, Enqueue.left, Snapshot.left, Snapshot.start]))
  | snapshot item object pc =>
      obtain ⟨⟨pc₁, t⟩, hs, heq⟩ := Option.map_eq_some_iff.mp hs
      cases heq
      apply Move.forward id (snapshot_isCas hs)
      rcases snapshot_nears hs with hlt | ⟨hstale, hfresh⟩
      · exact Or.inl (lt_of_le_of_lt (Enqueue.after_left item object pc₁) hlt)
      · exact Or.inr ⟨hstale, Enqueue.after_fresh hfresh⟩
  | link item object tail next =>
      obtain ⟨p, hp, heq⟩ := Option.map_eq_some_iff.mp hs
      split at heq
      case isTrue =>
        cases heq
        exact .settle trivial (by simp [left, Enqueue.left])
      case isFalse hne =>
        cases heq
        exact .fail id (fun h => hne (h.2 p hp)) trivial
  | swing item object tail | fill item object head =>
      simp only [enqueue] at hs
      split at hs
      all_goals
        cases hs
        exact .settle trivial (by simp [left, Enqueue.left])
  | drainTail item object head tail =>
      simp only [enqueue] at hs
      split at hs
      · cases hs
        exact .help id rfl rfl (Or.inr (by simp [left, Enqueue.left]))
      · cases hs
        exact .forward id rfl (Or.inl (by simp [left, Enqueue.left]))
  | fillTail item object head tail =>
      simp only [enqueue] at hs
      split at hs
      case isTrue =>
        cases hs
        exact .settle trivial (by simp [left, Enqueue.left])
      case isFalse hne =>
        cases hs
        exact .fail id hne trivial
  | shiftTail item object tail next | drainHead item object head | fillHead item object head tail =>
      simp only [enqueue] at hs
      split at hs
      case isTrue =>
        cases hs
        exact .help id rfl rfl (Or.inl trivial)
      case isFalse hne =>
        cases hs
        exact .fail id hne trivial
  | done item => cases hs

theorem dequeue_move {pc pc' : Dequeue V} (hs : dequeue s pc = some (s', pc', t)) :
  Move s (.dequeue pc) s' (.dequeue pc') t
  := by
  have hextract : ∀ (item : V) (object : Option ℕ),
      Settled (.dequeue (Dequeue.extract item object)) ∧
        ∀ s' : Shared V, (Dequeue.extract item object).left s' ≤ 3 := by
    intro item object
    cases object with
    | none => exact ⟨trivial, fun s' => Nat.zero_le _⟩
    | some object => exact ⟨trivial, fun s' => le_rfl⟩
  cases pc with
  | snapshot item pc =>
      obtain ⟨⟨pc₁, t⟩, hs, heq⟩ := Option.map_eq_some_iff.mp hs
      cases heq
      apply Move.forward id (snapshot_isCas hs)
      rcases snapshot_nears hs with hlt | ⟨hstale, hfresh⟩
      · exact Or.inl (lt_of_le_of_lt (Dequeue.after_left item pc₁) hlt)
      · exact Or.inr ⟨hstale, Dequeue.after_fresh hfresh⟩
  | loadHeadNext item head | loadTailNext item tail =>
      obtain ⟨p, -, heq⟩ := Option.map_eq_some_iff.mp hs
      cases heq
      exact .forward id rfl (Or.inl (by simp [left, Dequeue.left]))
  | mark item head tail next =>
      obtain ⟨p, hp, heq⟩ := Option.map_eq_some_iff.mp hs
      split at heq
      case isTrue =>
        cases heq
        exact .settle trivial (by simp [left, Dequeue.left])
      case isFalse hne =>
        cases heq
        exact .fail id (fun h => hne (h.2 p hp)) trivial
  | shiftHead item head next =>
      simp only [dequeue] at hs
      split at hs
      case isTrue =>
        cases hs
        obtain ⟨hsettled, hleft⟩ := hextract item head.ptr
        exact .settle hsettled (Nat.lt_succ_of_le (hleft _))
      case isFalse hne =>
        cases hs
        exact .fail id hne trivial
  | markTail item object head tail =>
      simp only [dequeue] at hs
      split at hs
      all_goals
        cases hs
        exact .settle trivial (by simp [left, Dequeue.left])
  | markHead item object head =>
      obtain ⟨hsettled, hleft⟩ := hextract item object
      simp only [dequeue] at hs
      split at hs
      all_goals
        cases hs
        exact .settle hsettled (Nat.lt_succ_of_le (hleft _))
  | drainTail item head tail =>
      simp only [dequeue] at hs
      split at hs
      · cases hs
        exact .help id rfl rfl (Or.inr (by simp [left, Dequeue.left]))
      · cases hs
        exact .forward id rfl (Or.inl (by simp [left, Dequeue.left]))
  | drainHead item head | shiftTail item tail next | fillHead item head tail =>
      simp only [dequeue] at hs
      split at hs
      case isTrue =>
        cases hs
        exact .help id rfl rfl (Or.inl trivial)
      case isFalse hne =>
        cases hs
        exact .fail id hne trivial
  | delinkLoad item object | delinkStore item object oldNext | readData item object =>
      cases hs
      exact .settle trivial (by simp [left, Dequeue.left])
  | refused item | done item => cases hs

/-- In the normal stage the tail is at most one object behind. -/
theorem History.due_le {a : History ι} (hf : Fits s a) :
  a.due ≤ 2
  := by
  have hstage := hf.stage
  rw [History.due]
  cases hg : a.stage with
  | normal =>
      rw [hg] at hstage
      obtain ⟨-, -, hlen, -⟩ := hstage
      change a.nodes.length - (a.tail + 1) ≤ 2
      omega
  | marked => exact le_rfl
  | draining | filling => exact Nat.le_succ 1
  | empty => exact Nat.zero_le 2

section run

variable [Inhabited V] [DecidableEq ι]

/-- What is due is paid by the threads that help. -/
theorem Move.advances {i : ι} {x x' : Shared V × (History ι × ℕ × ℕ)} {l l' : Local V}
    (h : Move x.1 l x'.1 l' t) (hG : ShapeInv x) (hL : ShapeKnows i x (some l))
    (hs : ((machine ι V).withGhost (ghost ι V)).step i () x l = some (x', l', t)) :
  Advances Settled (fun y l => l.Fresh y.1) (fun y => y.2.1.due) (fun y => left y.1) x l x' l'
  := by
  have houtcome := step_outcome hG hL hs
  have hnext : x'.2.1 = x.2.1.next i t := congrArg Prod.fst (withGhost_step.mp hs).2
  cases h with
  | settle hl' hleft => exact .settle hl' hleft
  | help hl ht heffect hleft =>
      refine .help hl ?_ hleft
      have hpays : Pays x.2.1 t := by
        cases houtcome with
        | cas _ _ hpays => exact hpays
        | keep hnot => cases hnot.symm.trans ht
      have hnone : t.isEnqueue = false ∧ t.isDequeue = false := by
        cases t <;> first | exact ⟨rfl, rfl⟩ | cases heffect
      have hdue := due_next i hpays
      rw [ht, hnone.1, hnone.2] at hdue
      simp only [Bool.toNat_true, Bool.toNat_false] at hdue
      rw [hnext]
      omega
  | forward hl ht hleft =>
      refine .forward hl ?_ ?_ hleft
      · rw [hnext]
        cases t <;> first | rfl | cases ht
      · intro hfresh
        cases houtcome with
        | cas hcas => cases hcas.symm.trans ht
        | keep _ _ h => exact (h hfresh).1

theorem descends (ι V : Type) [Inhabited V] [DecidableEq ι] :
  ((machine ι V).withGhost (ghost ι V)).Descends ShapeInv ShapeKnows (fun x => never x.1)
    (loopRank Settled (fun x l => l.Fresh x.1) (fun x => x.2.1.due) (fun x => left x.1) 14)
    (14 * (2 + 2))
  := by
  apply descends_of_advances
  · exact fun x l => left_lt x.1 l
  · exact fun x hG => History.due_le hG.1.1
  · rintro i ⟨⟩ x l x' l' t hG hL - hs -
    suffices hmove : Move x.1 l x'.1 l' t from hmove.advances hG hL hs
    obtain ⟨hs, -⟩ := withGhost_step.mp hs
    rcases step_inv hs with ⟨pc, pc', rfl, rfl, hpc⟩ | ⟨pc, pc', rfl, rfl, hpc⟩
    · exact enqueue_move hpc
    · exact dequeue_move hpc

theorem returnsAlone {n : ℕ} (r : (machine ι V).Run n) (h : Short r) :
  r.ReturnsAlone never 58
  := (descends ι V).returnsAlone (shape_outline ι V) r (trail_bound r h.1 h.2)

end run

end PLJQueue

/-- In every run of the queues with locks a thread returns within a fixed number of its own steps,
whatever the others do between them. In every run of the other linked queues it returns within a
fixed number of steps in a row, wherever the others rest, as long as no weak CAS fails for no
reason. -/
theorem queues_returnAlone (ι V : Type) [DecidableEq ι] [Inhabited V] :
  (MutexQueue.machine ι V).ReturnsWithin 13 ∧
    (TwoLockQueue.machine ι V).ReturnsWithin 9 ∧
    (MSQueue.machine ι V).ReturnsAlone (fun _ _ => True) never 23 ∧
    (ValoisQueue.machine ι V).ReturnsAlone (fun _ _ => True) ValoisQueue.Spurious 32 ∧
    (PLJQueue.machine ι V).ReturnsAlone (fun _ r => PLJQueue.Short r) never 58
  := by
  refine ⟨?_, ?_, ?_, ?_, ?_⟩
  · exact fun n r => MutexQueue.returnsWithin r
  · exact fun n r => TwoLockQueue.returnsWithin r
  · exact fun n r _ => MSQueue.returnsAlone r
  · exact fun n r _ => ValoisQueue.returnsAlone r
  · exact fun n r h => PLJQueue.returnsAlone r h
