import ConcurrentQueues.Library.Spine
import ConcurrentQueues.MSQueue.Model

/-!
# MSQueue is linearizable

The spine of the list is kept as a ghost. An enqueue takes effect when it links its node, a
dequeue when it moves the head, and a dequeue that returns `false` has read a null
successor of the last node. The counts play no part in the argument: a node is linked
once and left behind once, so its address does not come back.
-/

namespace MSQueue

open Machine Spine

variable {ι V : Type}

/-- The list the shared memory shows. -/
def Shared.view (s : Shared V) : ListView V where
  next p := (s.node p).next.ptr
  value p := (s.node p).value
  head := s.head.ptr
  tail := s.tail.ptr
  fresh := s.fresh

/-- What each step does to the spine. -/
def grow (i : ι) (a : Spine ι) : Tag → Spine ι
  | .silent => a
  | .alloc node => a.alloc i node
  | .link node => a.link node
  | .swingTail => a.swingTail
  | .swingHead => a.swingHead

/-- The spine of the list, from the dummy of the constructor on. -/
def ghost (ι V : Type) [Inhabited V] : (machine ι V).Ghost (Spine ι) where
  init := .single 0
  bound _ := True
  next i _ a _ _ _ t := grow i a t

/-- The shared memory as a list with its spine. -/
def list (s : Shared V × Spine ι) : ListView V × Spine ι := (s.1.view, s.2)

/-- The invariant: the spine describes the list. -/
def Inv (s : Shared V × Spine ι) : Prop := s.2.Fits s.1.view

/-- Thread `i` holds the unlinked node `node` with item `value`. -/
def Holds (i : ι) (s : Shared V × Spine ι) (value : V) (node : ℕ) : Prop :=
  s.2.owner node = some i ∧ s.1.view.value node = value

/-- What thread `i` knows at each point of `enqueue`. -/
def Enqueue.Knows (i : ι) (s : Shared V × Spine ι) : Enqueue V → Prop
  | .e1 _ => True
  | .e5 value node => Holds i s value node
  | .e6 value node tail => Holds i s value node ∧ ∃ k ≤ s.2.tail, s.2.PointsTo tail.ptr k
  | .e7 value node tail next => Holds i s value node ∧
      ∃ k ≤ s.2.tail, s.2.PointsTo tail.ptr k ∧ s.2.NullOr next.ptr (k + 1)
  | .e9 value node tail next => Holds i s value node ∧
      ∃ k ≤ s.2.tail, s.2.PointsTo tail.ptr k ∧ next.ptr = none
  | .e13 value node tail next => Holds i s value node ∧
      ∃ k, s.2.PointsTo tail.ptr k ∧ s.2.PointsTo next.ptr (k + 1)
  | .e17 _ node tail => ∃ k, s.2.PointsTo tail.ptr k ∧ s.2.nodes[k + 1]? = some node
  | .done _ => True

/-- What a thread knows at each point of `dequeue`. -/
def Dequeue.Knows (s : Shared V × Spine ι) : Dequeue V → Prop
  | .d3 _ head => ∃ k ≤ s.2.head, s.2.PointsTo head.ptr k
  | .d4 _ head tail =>
      ∃ k ≤ s.2.head, ∃ m ≤ s.2.tail, k ≤ m ∧ s.2.PointsTo head.ptr k ∧ s.2.PointsTo tail.ptr m
  | .d5 _ head tail next =>
      ∃ k ≤ s.2.head, ∃ m ≤ s.2.tail, k ≤ m ∧ s.2.PointsTo head.ptr k ∧
        s.2.PointsTo tail.ptr m ∧ s.2.NullOr next.ptr (k + 1) ∧ (k < m → next.ptr ≠ none)
  | .d10 _ tail next => ∃ k, s.2.PointsTo tail.ptr k ∧ s.2.PointsTo next.ptr (k + 1)
  | .d12 _ head next =>
      ∃ k < s.2.tail, s.2.PointsTo head.ptr k ∧ s.2.PointsTo next.ptr (k + 1)
  | .d13 pvalue head next => ∃ k < s.2.tail, s.2.PointsTo head.ptr k ∧
      ∃ q, next.ptr = some q ∧ s.2.nodes[k + 1]? = some q ∧ s.1.view.value q = pvalue
  | _ => True

/-- What thread `i` knows about its own position. -/
def Knows (i : ι) (s : Shared V × Spine ι) : Option (Local V) → Prop
  | none => True
  | some (.enqueue pc) => pc.Knows i s
  | some (.dequeue pc) => pc.Knows s

/-- The items in the queue. -/
def items (s : Shared V × Spine ι) : List V := s.2.items s.1.view

/-- The phase of a call. A dequeue that has read a null successor has seen an empty list. -/
def phase : Local V → Phase V
  | .enqueue (.e17 value _ _) | .enqueue (.done value) => .appended value
  | .enqueue (.e1 value) | .enqueue (.e5 value _) | .enqueue (.e6 value _ _)
  | .enqueue (.e7 value _ _ _) | .enqueue (.e9 value _ _ _)
  | .enqueue (.e13 value _ _ _) => .appending value
  | .dequeue (.d5 _ _ _ next) => .removing next.ptr.isNone
  | .dequeue (.d8 _) => .removing true
  | .dequeue (.d20 pvalue) => .removed pvalue
  | .dequeue _ => .removing false

/-! ### What a thread knows is stable -/

section stable

variable {i : ι} {s s' : Shared V × Spine ι}

theorem Holds.keep {value : V} {node : ℕ} (h : Holds i s value node)
    (hg : Grows i (list s) (list s')) :
  Holds i s' value node
  := by
  obtain ⟨howner, hvalue⟩ := h
  use hg.owner node howner
  apply Eq.trans (hg.value node (Or.inr howner)) hvalue

theorem Enqueue.Knows.keep {pc : Enqueue V} (h : pc.Knows i s)
    (hg : Grows i (list s) (list s')) :
  pc.Knows i s'
  := by
  cases pc with
  | e1 value => trivial
  | e5 value node => apply Holds.keep h hg
  | e6 value node tail =>
      obtain ⟨hn, k, hk, ht⟩ := h
      exact ⟨hn.keep hg, k, hk.trans hg.tail, ht.grow hg⟩
  | e7 value node tail next =>
      obtain ⟨hn, k, hk, ht, hnext⟩ := h
      exact ⟨hn.keep hg, k, hk.trans hg.tail, ht.grow hg, hnext.grow hg⟩
  | e9 value node tail next =>
      obtain ⟨hn, k, hk, ht, hnext⟩ := h
      exact ⟨hn.keep hg, k, hk.trans hg.tail, ht.grow hg, hnext⟩
  | e13 value node tail next =>
      obtain ⟨hn, k, ht, hnext⟩ := h
      exact ⟨hn.keep hg, k, ht.grow hg, hnext.grow hg⟩
  | e17 value node tail =>
      obtain ⟨k, ht, hnode⟩ := h
      exact ⟨k, ht.grow hg, hg.getElem? hnode⟩
  | done value => trivial

theorem Dequeue.Knows.keep {pc : Dequeue V} (h : pc.Knows s)
    (hg : Grows i (list s) (list s')) :
  pc.Knows s'
  := by
  cases pc with
  | d3 pvalue head =>
      obtain ⟨k, hk, hh⟩ := h
      exact ⟨k, hk.trans hg.head, hh.grow hg⟩
  | d4 pvalue head tail =>
      obtain ⟨k, hk, m, hm, hkm, hh, ht⟩ := h
      exact ⟨k, hk.trans hg.head, m, hm.trans hg.tail, hkm, hh.grow hg, ht.grow hg⟩
  | d5 pvalue head tail next =>
      obtain ⟨k, hk, m, hm, hkm, hh, ht, hnext, hne⟩ := h
      exact ⟨k, hk.trans hg.head, m, hm.trans hg.tail, hkm, hh.grow hg, ht.grow hg,
        hnext.grow hg, hne⟩
  | d10 pvalue tail next =>
      obtain ⟨k, ht, hnext⟩ := h
      exact ⟨k, ht.grow hg, hnext.grow hg⟩
  | d12 pvalue head next =>
      obtain ⟨k, hk, hh, hnext⟩ := h
      exact ⟨k, hk.trans_le hg.tail, hh.grow hg, hnext.grow hg⟩
  | d13 pvalue head next =>
      obtain ⟨k, hk, hh, q, hnext, hq, hvalue⟩ := h
      refine ⟨k, hk.trans_le hg.tail, hh.grow hg, q, hnext, hg.getElem? hq, ?_⟩
      apply Eq.trans (hg.value q (Or.inl (List.mem_of_getElem? hq))) hvalue
  | d2 pvalue => trivial
  | d8 pvalue => trivial
  | d20 pvalue => trivial

end stable

/-! ### The steps of the two operations -/

theorem view_alloc (s : Shared V) (value : V) :
  Shared.view { s.setNode s.fresh ⟨value, ⟨none, 0⟩⟩ with fresh := s.fresh + 1 }
    = s.view.alloc value
  := by
  simp only [Shared.view, ListView.alloc, Shared.setNode, ListView.mk.injEq, and_true]
  constructor
  · funext p
    by_cases hp : p = s.fresh
    · subst hp
      simp
    · simp [Function.update_of_ne hp]
  · funext p
    by_cases hp : p = s.fresh
    · subst hp
      simp
    · simp [Function.update_of_ne hp]

theorem view_link (s : Shared V) (q p : ℕ) (count : UInt32) :
  (s.setNode q ⟨(s.node q).value, ⟨some p, count⟩⟩).view = s.view.link q p
  := by
  simp only [Shared.view, ListView.link, Shared.setNode, ListView.mk.injEq, and_true]
  constructor
  · funext x
    by_cases hx : x = q
    · subst hx
      simp
    · simp [Function.update_of_ne hx]
  · funext x
    by_cases hx : x = q
    · subst hx
      simp
    · simp [Function.update_of_ne hx]

variable {i : ι} {s s' : Shared V} {a : Spine ι} {t : Tag}

/-- Each access of `enqueue` is a step of the list and keeps what the thread knows; the one
that links the node appends its item. -/
theorem enqueue_spec {pc pc' : Enqueue V} (h : Inv (s, a)) (hpc : pc.Knows i (s, a))
    (hs : enqueue s pc = some (s', pc', t)) :
  ListStep i (list (s, a)) (list (s', grow i a t)) ∧ pc'.Knows i (s', grow i a t) ∧
    Phase.Step (effect t) (items (s, a)) (phase (.enqueue pc)) (items (s', grow i a t))
      (phase (.enqueue pc'))
  := by
  cases pc with
  | e1 value =>
      obtain ⟨rfl, rfl, rfl⟩ := hs
      have hview := view_alloc s value
      refine ⟨?_, ⟨Function.update_self .., ?_⟩, ?_⟩
      · rw [list, list, hview]
        apply ListStep.alloc value
      · rw [hview]
        apply Function.update_self
      · rw [items, items, hview]
        erw [h.items_alloc]
        apply Phase.Step.same
  | e5 value node =>
      obtain ⟨rfl, rfl, rfl⟩ := hs
      exact ⟨.stay _, ⟨hpc, a.tail, le_rfl, h.tail_pointsTo⟩, .same _ _⟩
  | e6 value node tail =>
      obtain ⟨hn, k, hk, q, hq, hnode⟩ := hpc
      simp only [enqueue, hq, Option.map_some] at hs
      obtain ⟨rfl, rfl, rfl⟩ := hs
      exact ⟨.stay _, ⟨hn, k, hk, ⟨q, hq, hnode⟩, h.next_nullOr hnode⟩, .same _ _⟩
  | e7 value node tail next =>
      obtain ⟨hn, k, hk, htail, hnext⟩ := hpc
      simp only [enqueue] at hs
      split at hs
      · split at hs
        case isTrue hnull =>
          obtain ⟨rfl, rfl, rfl⟩ := hs
          exact ⟨.stay _, ⟨hn, k, hk, htail, hnull⟩, .same _ _⟩
        case isFalse hnull =>
          obtain ⟨rfl, rfl, rfl⟩ := hs
          exact ⟨.stay _, ⟨hn, k, htail, hnext.pointsTo hnull⟩, .same _ _⟩
      · obtain ⟨rfl, rfl, rfl⟩ := hs
        exact ⟨.stay _, hn, .same _ _⟩
  | e9 value node tail next =>
      obtain ⟨hn, k, hk, ⟨q, hq, hnode⟩, hnull⟩ := hpc
      simp only [enqueue, hq, Option.map_some, Option.some.injEq] at hs
      split at hs
      case isTrue heq =>
        -- the node at position `k` has no successor, so it is the last one
        obtain ⟨rfl, rfl, rfl⟩ := hs
        have hlast : s.view.next q = none := by
          rw [← hnull, ← heq]
          rfl
        have hlength := h.last hnode hlast
        rw [list, list, items, items, view_link]
        refine ⟨.link hn.1 hnode hk hlast, ⟨k, ⟨q, hq, link_getElem? hnode⟩, ?_⟩, ?_⟩
        · rw [hlength]
          apply link_last
        · rw [grow, h.items_link, hn.2]
          apply Phase.Step.append
      case isFalse =>
        obtain ⟨rfl, rfl, rfl⟩ := hs
        exact ⟨.stay _, hn, .same _ _⟩
  | e13 value node tail next =>
      obtain ⟨hn, k, htail, q, hq, hnode⟩ := hpc
      simp only [enqueue] at hs
      split at hs
      case isTrue heq =>
        obtain ⟨rfl, rfl, rfl⟩ := hs
        subst heq
        obtain rfl := h.at_tail htail
        rw [hq]
        exact ⟨.swingTail hnode, hn, .same _ _⟩
      case isFalse =>
        obtain ⟨rfl, rfl, rfl⟩ := hs
        exact ⟨.stay _, hn, .same _ _⟩
  | e17 value node tail =>
      obtain ⟨k, htail, hnode⟩ := hpc
      simp only [enqueue] at hs
      split at hs
      case isTrue heq =>
        obtain ⟨rfl, rfl, rfl⟩ := hs
        subst heq
        obtain rfl := h.at_tail htail
        exact ⟨.swingTail hnode, trivial, .same _ _⟩
      case isFalse =>
        obtain ⟨rfl, rfl, rfl⟩ := hs
        exact ⟨.stay _, trivial, .same _ _⟩
  | done value => cases hs

/-- Each access of `dequeue` is a step of the list and keeps what the thread knows; the one
that moves the head removes the front, and one that reads a null successor sees the list
empty. -/
theorem dequeue_spec {pc pc' : Dequeue V} (h : Inv (s, a)) (hpc : pc.Knows (s, a))
    (hs : dequeue s pc = some (s', pc', t)) :
  ListStep i (list (s, a)) (list (s', grow i a t)) ∧ pc'.Knows (s', grow i a t) ∧
    Phase.Step (effect t) (items (s, a)) (phase (.dequeue pc)) (items (s', grow i a t))
      (phase (.dequeue pc'))
  := by
  cases pc with
  | d2 pvalue =>
      obtain ⟨rfl, rfl, rfl⟩ := hs
      exact ⟨.stay _, ⟨a.head, le_rfl, h.head_pointsTo⟩, .same _ _⟩
  | d3 pvalue head =>
      obtain ⟨k, hk, hhead⟩ := hpc
      obtain ⟨rfl, rfl, rfl⟩ := hs
      exact ⟨.stay _, ⟨k, hk, a.tail, le_rfl, hk.trans h.head_le, hhead, h.tail_pointsTo⟩,
        .same _ _⟩
  | d4 pvalue head tail =>
      obtain ⟨k, hk, m, hm, hkm, ⟨q, hq, hnode⟩, htail⟩ := hpc
      simp only [dequeue, hq, Option.map_some] at hs
      obtain ⟨rfl, rfl, rfl⟩ := hs
      have hsucc : (s.node q).next.ptr = a.nodes[k + 1]? := h.next k q hnode
      refine ⟨.stay _, ⟨k, hk, m, hm, hkm, ⟨q, hq, hnode⟩, htail, h.next_nullOr hnode, ?_⟩, ?_⟩
      · intro hlt
        obtain ⟨x, hx⟩ := h.exists_node (Nat.le_trans hlt hm)
        rw [hsucc, hx]
        exact Option.some_ne_none x
      · cases hnull : (s.node q).next.ptr with
        | none =>
            simp only [phase, hnull, grow, items, h.items_eq_nil hnode hk hnull]
            apply Phase.Step.see
        | some x =>
            simp only [phase, hnull]
            apply Phase.Step.same
  | d5 pvalue head tail next =>
      obtain ⟨k, hk, m, hm, hkm, hhead, htail, hnext, hne⟩ := hpc
      simp only [dequeue] at hs
      split at hs
      · split at hs
        case isTrue heq =>
          split at hs
          case isTrue hnull =>
            obtain ⟨rfl, rfl, rfl⟩ := hs
            simp only [phase, hnull]
            exact ⟨.stay _, trivial, .same _ _⟩
          case isFalse hnull =>
            obtain ⟨rfl, rfl, rfl⟩ := hs
            obtain rfl := hhead.unique h (heq ▸ htail)
            exact ⟨.stay _, ⟨k, htail, hnext.pointsTo hnull⟩, .forget _ _⟩
        case isFalse heq =>
          -- the tail read after the head is ahead of it, so there is a successor
          obtain ⟨rfl, rfl, rfl⟩ := hs
          have hlt : k < m := by
            apply lt_of_le_of_ne hkm
            rintro rfl
            exact heq (hhead.eq htail)
          exact ⟨.stay _, ⟨k, lt_of_lt_of_le hlt hm, hhead, hnext.pointsTo (hne hlt)⟩,
            .forget _ _⟩
      · obtain ⟨rfl, rfl, rfl⟩ := hs
        exact ⟨.stay _, trivial, .forget _ _⟩
  | d8 pvalue => cases hs
  | d10 pvalue tail next =>
      obtain ⟨k, htail, q, hq, hnode⟩ := hpc
      simp only [dequeue] at hs
      split at hs
      case isTrue heq =>
        obtain ⟨rfl, rfl, rfl⟩ := hs
        subst heq
        obtain rfl := h.at_tail htail
        rw [hq]
        exact ⟨.swingTail hnode, trivial, .same _ _⟩
      case isFalse =>
        obtain ⟨rfl, rfl, rfl⟩ := hs
        exact ⟨.stay _, trivial, .same _ _⟩
  | d12 pvalue head next =>
      obtain ⟨k, hk, hhead, q, hq, hnode⟩ := hpc
      simp only [dequeue, hq, Option.map_some] at hs
      obtain ⟨rfl, rfl, rfl⟩ := hs
      exact ⟨.stay _, ⟨k, hk, hhead, q, hq, hnode, rfl⟩, .same _ _⟩
  | d13 pvalue head next =>
      obtain ⟨k, hk, hhead, q, hq, hnode, hvalue⟩ := hpc
      simp only [dequeue] at hs
      split at hs
      case isTrue heq =>
        obtain ⟨rfl, rfl, rfl⟩ := hs
        subst heq
        obtain rfl := h.at_head hhead
        have hitems := items_swingHead (v := s.view) hnode
        rw [hvalue] at hitems
        rw [hq, items, hitems]
        exact ⟨.swingHead hk hnode, trivial, .remove _ _ _⟩
      case isFalse =>
        obtain ⟨rfl, rfl, rfl⟩ := hs
        exact ⟨.stay _, trivial, .same _ _⟩
  | d20 pvalue => cases hs

/-! ### Every run is linearizable -/

variable [Inhabited V]

/-- What each access of a thread establishes. -/
theorem step_spec {ch : Unit} {s s' : Shared V × Spine ι} {l l' : Local V} {t : Tag}
    (h : Inv s) (hl : Knows i s (some l))
    (hs : ((machine ι V).withGhost (ghost ι V)).step i ch s l = some (s', l', t)) :
  ListStep i (list s) (list s') ∧ Knows i s' (some l') ∧
    Phase.Step (effect t) (items s) (phase l) (items s') (phase l')
  := by
  obtain ⟨hs, ha⟩ := withGhost_step.mp hs
  obtain ⟨s, a⟩ := s
  obtain ⟨s', a'⟩ := s'
  obtain rfl : a' = grow i a t := ha
  rcases step_inv hs with ⟨pc, pc', rfl, rfl, hpc⟩ | ⟨pc, pc', rfl, rfl, hpc⟩
  · apply enqueue_spec h hl hpc
  · apply dequeue_spec h hl hpc

/-- The invariant and what the threads know form a proof outline. -/
theorem outline (ι V : Type) [Inhabited V] :
  ((machine ι V).withGhost (ghost ι V)).Outline Inv Knows fun j s s' => Grows j (list s) (list s')
  := by
  constructor
  case init => apply single_fits rfl rfl Nat.zero_lt_one rfl
  case idle =>
    intro i
    trivial
  case call =>
    intro i s o _ _ _
    cases o with
    | enqueue value => trivial
    | dequeue out => trivial
  case ret =>
    intros
    trivial
  case step =>
    intro i ch s l s' l' t h hl _ _ hs
    obtain ⟨hstep, hl', -⟩ := step_spec h hl hs
    exact ⟨hstep.fits h, hl', fun _ hj => hstep.grows h hj⟩
  case stable =>
    intro j s s' l _ _ hg hl
    match l with
    | none => trivial
    | some (.enqueue pc) => apply Enqueue.Knows.keep hl hg
    | some (.dequeue pc) => apply Dequeue.Knows.keep hl hg

theorem linearizes (ι V : Type) [Inhabited V] :
  Linearizes ((machine ι V).withGhost (ghost ι V)) effect Inv Knows items fun _ _ => phase
  := by
  constructor
  case init => rfl
  case enqueue =>
    intros
    rfl
  case dequeue =>
    intros
    rfl
  case frame =>
    intros
    rfl
  case step =>
    intro i ch s l s' l' t h hl hs
    apply (step_spec h hl hs).2.2
  case result =>
    intro i s l v _ _ hv
    rcases result_eq_some ι hv with ⟨item, rfl, rfl⟩ | ⟨item, rfl, rfl⟩ | ⟨item, rfl, rfl⟩
    · exact Or.inl ⟨item, rfl, rfl⟩
    · exact Or.inr (Or.inr ⟨item, rfl, rfl⟩)
    · exact Or.inr (Or.inl ⟨item, rfl, rfl⟩)

/-- Every run of `MSQueue`, of any length and with any number of threads, is linearizable:
the linking of its node is the one step at which an enqueue takes effect, and the
moving of the head the one step at which a dequeue does. -/
theorem msQueue_linearizable [DecidableEq ι] {n : ℕ} (r : (machine ι V).Run n) :
  ∃ q, r.Fifo effect q
  := by
  use fun k => items ((r.conf k).shared, r.trail (ghost ι V) k)
  exact ((linearizes ι V).fifo (outline ι V) (r.lift (ghost ι V) fun _ _ => trivial)).of_lift

end MSQueue
