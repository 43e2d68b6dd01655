import ConcurrentQueues.MSQueue.Progress

/-!
# The shape of MSQueue

The nodes ever linked form a chain that starts with the dummy of the constructor and ends in
null. The head does not pass the tail, and the tail is at the last or the last but one node.
A dequeue reads the head, the tail and the successor of the head at three moments and checks the
head only. Since the tail was read after the head, a tail that differs from it was ahead of it,
so that the successor read afterwards is a node.
-/

namespace MSQueue

open Machine Spine

variable {ι V : Type}

/-- The node that follows `p`. -/
def Shared.succ (s : Shared V) (p : ℕ) : Option ℕ := (s.node p).next.ptr

/-- The chain from the first dummy on, whose address is 0, consists of the nodes of `l`. The head is
at position `i` and the tail at position `j`. -/
structure Shape (s : Shared V) (l : List ℕ) (i j : ℕ) : Prop where
  chain : Links s.succ (some 0) l
  acyclic : l.Nodup
  head : ∃ p, s.head.ptr = some p ∧ l[i]? = some p
  tail : ∃ p, s.tail.ptr = some p ∧ l[j]? = some p
  order : i ≤ j
  last : j + 1 = l.length ∨ j + 2 = l.length

/-- The pointers `head` and `next` point to two consecutive nodes of the chain. -/
def Consecutive (s : Shared V) (head next : Pointer) : Prop :=
  ∃ l e p q, Links s.succ (some 0) l ∧ head.ptr = some p ∧ next.ptr = some q ∧
    l[e]? = some p ∧ l[e + 1]? = some q ∧ s.succ p = some q

/-! ### The spine is the chain -/

section fits

variable {s : Shared V} {a : Spine ι} (h : a.Fits s.view) (hfirst : a.nodes.head? = some 0)

include h hfirst

theorem shape_of_fits :
  Shape s a.nodes a.head a.tail
  := by
  constructor
  case chain => apply h.links hfirst
  case acyclic => apply h.nodup
  case head => apply h.head_pointsTo
  case tail => apply h.tail_pointsTo
  case order => apply h.head_le
  case last =>
    have hlt := h.tail_lt
    have hle := h.length_le
    omega

theorem consecutive_of_pointsTo {head next : Pointer} {e : ℕ} (hhead : a.PointsTo head.ptr e)
    (hnext : a.PointsTo next.ptr (e + 1)) :
  Consecutive s head next
  := by
  obtain ⟨p, hp, he⟩ := hhead
  obtain ⟨q, hq, he'⟩ := hnext
  exact ⟨a.nodes, e, p, q, h.links hfirst, hp, hq, he, he', (h.next e p he).trans he'⟩

end fits

/-! ### Every run keeps the shape -/

variable [Inhabited V] [DecidableEq ι] {n : ℕ}

/-- The list has its shape in every state of the run, and a dequeue follows no null pointer. -/
structure KeepsShape (r : (machine ι V).Run n) : Prop where
  shape : ∀ k ≤ n, ∃ l i j, Shape (r.conf k).shared l i j
  /-- When a dequeue passes the second read of the head while head and tail differed. -/
  passes : ∀ k ≤ n, ∀ i pvalue head tail next,
    (r.conf k).thread i = some (.dequeue (.d5 pvalue head tail next)) →
    head = (r.conf k).shared.head → head.ptr ≠ tail.ptr → Consecutive (r.conf k).shared head next
  /-- When a dequeue reads the value from the successor of the head. -/
  follows : ∀ k ≤ n, ∀ i pvalue head next,
    (r.conf k).thread i = some (.dequeue (.d12 pvalue head next)) →
    Consecutive (r.conf k).shared head next

variable (r : (machine ι V).Run n)

/-- The dummy of the constructor remains the first node. -/
theorem trail_first (k : ℕ) :
  (r.trail (ghost ι V) k).nodes.head? = some 0
  := by
  have hnext : ∀ i s a l s' l' t, (ghost ι V).next i s a l s' l' t = a.next i (change t) := by
    intro i s a l s' l' t
    cases t with
    | _ => rfl
  have hprefix : (ghost ι V).init.nodes <+: (r.trail (ghost ι V) k).nodes :=
    trail_prefix r hnext (Nat.zero_le k)
  obtain ⟨rest, hrest⟩ := hprefix
  rw [← hrest]
  rfl

/-- What holds at step `k`. -/
theorem asserts {k : ℕ} (hk : k ≤ n) :
  (r.trail (ghost ι V) k).Fits (r.conf k).shared.view ∧
    ∀ i, Knows i ((r.conf k).shared, r.trail (ghost ι V) k) ((r.conf k).thread i)
  := (outline ι V).sound (r.lift (ghost ι V) fun _ _ => trivial) k hk

/-- Every run of `MSQueue`, of any length and with any number of threads, keeps the shape of the
list. -/
theorem msQueue_keepsShape :
  KeepsShape r
  := by
  constructor
  case shape =>
    intro k hk
    obtain ⟨hfits, -⟩ := asserts r hk
    exact ⟨_, _, _, shape_of_fits hfits (trail_first r k)⟩
  case passes =>
    intro k hk i pvalue head tail next hl _ hne
    obtain ⟨hfits, hknows⟩ := asserts r hk
    have hd5 := hknows i
    rw [hl] at hd5
    obtain ⟨e, -, m, -, hem, hhead, htail, hnext, hnull⟩ := hd5
    -- the tail was read after the head, at another node
    have hlt : e < m := by
      apply lt_of_le_of_ne hem
      rintro rfl
      apply hne (hhead.eq htail)
    apply consecutive_of_pointsTo hfits (trail_first r k) hhead
    apply hnext.pointsTo (hnull hlt)
  case follows =>
    intro k hk i pvalue head next hl
    obtain ⟨hfits, hknows⟩ := asserts r hk
    have hd12 := hknows i
    rw [hl] at hd12
    obtain ⟨e, -, hhead, hnext⟩ := hd12
    apply consecutive_of_pointsTo hfits (trail_first r k) hhead hnext

end MSQueue
