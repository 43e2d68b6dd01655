import ConcurrentQueues.Library.Spine
import ConcurrentQueues.ValoisQueue.Model

/-!
# ValoisQueue is linearizable

As for the list of `MSQueue`, the spine is kept as a ghost. Head and tail are bare pointers;
that no node is linked twice is what makes comparing them enough. The list of retired
nodes is threaded through a field of its own, so retiring a node leaves the queue alone.
-/

namespace ValoisQueue

open Machine Spine

variable {ι V : Type}

/-- The list the shared memory shows. -/
def Shared.view (s : Shared V) : ListView V where
  next p := (s.node p).next
  value p := (s.node p).item
  head := s.head
  tail := s.tail
  fresh := s.fresh

/-- What each step does to the spine. -/
def grow (i : ι) (a : Spine ι) : Tag → Spine ι
  | .silent | .retire _ => a
  | .alloc node => a.alloc i node
  | .link node => a.link node
  | .swingTail => a.swingTail
  | .swingHead => a.swingHead

/-- The spine of the list, from the dummy of the constructor on. -/
def ghost (ι V : Type) [Inhabited V] : (machine ι V).Ghost (Spine ι) where
  init := .single 0
  bound _ := True
  next i _ a _ _ _ t := grow i a t

/-- The shared memory as a list with its spine. -/
def list (s : Shared V × Spine ι) : ListView V × Spine ι := (s.1.view, s.2)

/-- The invariant: the spine describes the list. -/
def Inv (s : Shared V × Spine ι) : Prop := s.2.Fits s.1.view

/-- Thread `i` holds the unlinked node `node` with item `item`. -/
def Holds (i : ι) (s : Shared V × Spine ι) (item : V) (node : ℕ) : Prop :=
  s.2.owner node = some i ∧ s.1.view.value node = item

/-- What thread `i` knows at each point of `enqueue`. -/
def Enqueue.Knows (i : ι) (s : Shared V × Spine ι) : Enqueue V → Prop
  | .new _ => True
  | .loadTail item node => Holds i s item node
  | .loadNext item node tail => Holds i s item node ∧ ∃ k ≤ s.2.tail, s.2.PointsTo tail k
  | .checkTail item node tail next => Holds i s item node ∧
      ∃ k ≤ s.2.tail, s.2.PointsTo tail k ∧ s.2.NullOr next (k + 1)
  | .link item node tail => Holds i s item node ∧ ∃ k ≤ s.2.tail, s.2.PointsTo tail k
  | .swing _ node tail => ∃ k, s.2.PointsTo tail k ∧ s.2.nodes[k + 1]? = some node
  | .help item node tail next => Holds i s item node ∧
      ∃ k, s.2.PointsTo tail k ∧ s.2.PointsTo next (k + 1)
  | .done _ => True

/-- What a thread knows at each point of `dequeue`. -/
def Dequeue.Knows (s : Shared V × Spine ι) : Dequeue V → Prop
  | .loadTail _ head => ∃ k ≤ s.2.head, s.2.PointsTo head k
  | .loadNext _ head tail =>
      ∃ k ≤ s.2.head, ∃ m ≤ s.2.tail, k ≤ m ∧ s.2.PointsTo head k ∧ s.2.PointsTo tail m
  | .checkHead _ head tail next =>
      ∃ k ≤ s.2.head, ∃ m ≤ s.2.tail, k ≤ m ∧ s.2.PointsTo head k ∧ s.2.PointsTo tail m ∧
        s.2.NullOr next (k + 1)
  | .help _ tail next => ∃ k, s.2.PointsTo tail k ∧ s.2.PointsTo next (k + 1)
  | .readItem _ head next => ∃ k < s.2.tail, s.2.PointsTo head k ∧ s.2.PointsTo next (k + 1)
  | .swing item head next => ∃ k < s.2.tail, s.2.PointsTo head k ∧
      ∃ q, next = some q ∧ s.2.nodes[k + 1]? = some q ∧ s.1.view.value q = item
  | .loadRetired _ node | .storeRetiredNext _ node _ | .casRetired _ node _ => node ≠ none
  | _ => True

/-- What thread `i` knows about its own position. -/
def Knows (i : ι) (s : Shared V × Spine ι) : Option (Local V) → Prop
  | none => True
  | some (.enqueue pc) => pc.Knows i s
  | some (.dequeue pc) => pc.Knows s

/-- The items in the queue. -/
def items (s : Shared V × Spine ι) : List V := s.2.items s.1.view

/-- The phase of a call. A dequeue that has read a null successor has seen an empty list. -/
def phase : Local V → Phase V
  | .enqueue (.swing item _ _) | .enqueue (.done item) => .appended item
  | .enqueue (.new item) | .enqueue (.loadTail item _) | .enqueue (.loadNext item _ _)
  | .enqueue (.checkTail item _ _ _) | .enqueue (.link item _ _)
  | .enqueue (.help item _ _ _) => .appending item
  | .dequeue (.checkHead _ _ _ next) => .removing next.isNone
  | .dequeue (.refused _) => .removing true
  | .dequeue (.loadRetired item _) | .dequeue (.storeRetiredNext item _ _)
  | .dequeue (.casRetired item _ _) | .dequeue (.done item) => .removed item
  | .dequeue _ => .removing false

/-! ### What a thread knows is stable -/

section stable

variable {i : ι} {s s' : Shared V × Spine ι}

theorem Holds.keep {item : V} {node : ℕ} (h : Holds i s item node)
    (hg : Grows i (list s) (list s')) :
  Holds i s' item node
  := by
  obtain ⟨howner, hitem⟩ := h
  use hg.owner node howner
  apply Eq.trans (hg.value node (Or.inr howner)) hitem

theorem Enqueue.Knows.keep {pc : Enqueue V} (h : pc.Knows i s)
    (hg : Grows i (list s) (list s')) :
  pc.Knows i s'
  := by
  cases pc with
  | new item => trivial
  | loadTail item node => apply Holds.keep h hg
  | loadNext item node tail =>
      obtain ⟨hn, k, hk, ht⟩ := h
      exact ⟨hn.keep hg, k, hk.trans hg.tail, ht.grow hg⟩
  | checkTail item node tail next =>
      obtain ⟨hn, k, hk, ht, hnext⟩ := h
      exact ⟨hn.keep hg, k, hk.trans hg.tail, ht.grow hg, hnext.grow hg⟩
  | link item node tail =>
      obtain ⟨hn, k, hk, ht⟩ := h
      exact ⟨hn.keep hg, k, hk.trans hg.tail, ht.grow hg⟩
  | swing item node tail =>
      obtain ⟨k, ht, hnode⟩ := h
      exact ⟨k, ht.grow hg, hg.getElem? hnode⟩
  | help item node tail next =>
      obtain ⟨hn, k, ht, hnext⟩ := h
      exact ⟨hn.keep hg, k, ht.grow hg, hnext.grow hg⟩
  | done item => trivial

theorem Dequeue.Knows.keep {pc : Dequeue V} (h : pc.Knows s)
    (hg : Grows i (list s) (list s')) :
  pc.Knows s'
  := by
  cases pc with
  | loadHead item => trivial
  | loadTail item head =>
      obtain ⟨k, hk, hh⟩ := h
      exact ⟨k, hk.trans hg.head, hh.grow hg⟩
  | loadNext item head tail =>
      obtain ⟨k, hk, m, hm, hkm, hh, ht⟩ := h
      exact ⟨k, hk.trans hg.head, m, hm.trans hg.tail, hkm, hh.grow hg, ht.grow hg⟩
  | checkHead item head tail next =>
      obtain ⟨k, hk, m, hm, hkm, hh, ht, hnext⟩ := h
      exact ⟨k, hk.trans hg.head, m, hm.trans hg.tail, hkm, hh.grow hg, ht.grow hg,
        hnext.grow hg⟩
  | refused item => trivial
  | help item tail next =>
      obtain ⟨k, ht, hnext⟩ := h
      exact ⟨k, ht.grow hg, hnext.grow hg⟩
  | readItem item head next =>
      obtain ⟨k, hk, hh, hnext⟩ := h
      exact ⟨k, hk.trans_le hg.tail, hh.grow hg, hnext.grow hg⟩
  | swing item head next =>
      obtain ⟨k, hk, hh, q, hnext, hq, hitem⟩ := h
      refine ⟨k, hk.trans_le hg.tail, hh.grow hg, q, hnext, hg.getElem? hq, ?_⟩
      apply Eq.trans (hg.value q (Or.inl (List.mem_of_getElem? hq))) hitem
  | loadRetired item node => apply h
  | storeRetiredNext item node oldRetired => apply h
  | casRetired item node oldRetired => apply h
  | done item => trivial

end stable

/-! ### The steps of the two operations -/

theorem view_alloc (s : Shared V) (item : V) :
  Shared.view { s.setNode s.fresh ⟨item, none, none⟩ with fresh := s.fresh + 1 }
    = s.view.alloc item
  := by
  simp only [Shared.view, ListView.alloc, Shared.setNode, ListView.mk.injEq, and_true]
  constructor
  · funext p
    by_cases hp : p = s.fresh
    · subst hp
      simp
    · simp [Function.update_of_ne hp]
  · funext p
    by_cases hp : p = s.fresh
    · subst hp
      simp
    · simp [Function.update_of_ne hp]

theorem view_link (s : Shared V) (q p : ℕ) :
  (s.setNode q { s.node q with next := some p }).view = s.view.link q p
  := by
  simp only [Shared.view, ListView.link, Shared.setNode, ListView.mk.injEq, and_true]
  constructor
  · funext x
    by_cases hx : x = q
    · subst hx
      simp
    · simp [Function.update_of_ne hx]
  · funext x
    by_cases hx : x = q
    · subst hx
      simp
    · simp [Function.update_of_ne hx]

/-- Writing the link of the retired list leaves the queue as it is. -/
theorem view_setRetiredNext (s : Shared V) (p : ℕ) (old : Option ℕ) :
  (s.setNode p { s.node p with retiredNext := old }).view = s.view
  := by
  simp only [Shared.view, Shared.setNode, ListView.mk.injEq, and_true]
  constructor
  · funext x
    by_cases hx : x = p
    · subst hx
      simp
    · simp [Function.update_of_ne hx]
  · funext x
    by_cases hx : x = p
    · subst hx
      simp
    · simp [Function.update_of_ne hx]

variable {i : ι} {s s' : Shared V} {a : Spine ι} {t : Tag}

/-- Each access of `enqueue` keeps the invariant and what the thread knows; the one that
links the node appends its item. -/
theorem enqueue_spec {pc pc' : Enqueue V} (h : Inv (s, a)) (hpc : pc.Knows i (s, a))
    (hs : enqueue s pc = some (s', pc', t)) :
  ListStep i (list (s, a)) (list (s', grow i a t)) ∧ pc'.Knows i (s', grow i a t) ∧
    Phase.Step (effect t) (items (s, a)) (phase (.enqueue pc)) (items (s', grow i a t))
      (phase (.enqueue pc'))
  := by
  cases pc with
  | new item =>
      obtain ⟨rfl, rfl, rfl⟩ := hs
      have hview := view_alloc s item
      refine ⟨?_, ⟨Function.update_self .., ?_⟩, ?_⟩
      · rw [list, list, hview]
        apply ListStep.alloc item
      · rw [hview]
        apply Function.update_self
      · rw [items, items, hview]
        erw [h.items_alloc]
        apply Phase.Step.same
  | loadTail item node =>
      obtain ⟨rfl, rfl, rfl⟩ := hs
      exact ⟨.stay _, ⟨hpc, a.tail, le_rfl, h.tail_pointsTo⟩, .same _ _⟩
  | loadNext item node tail =>
      obtain ⟨hn, k, hk, q, hq, hnode⟩ := hpc
      simp only [enqueue, hq, Option.map_some] at hs
      obtain ⟨rfl, rfl, rfl⟩ := hs
      exact ⟨.stay _, ⟨hn, k, hk, ⟨q, rfl, hnode⟩, h.next_nullOr hnode⟩, .same _ _⟩
  | checkTail item node tail next =>
      obtain ⟨hn, k, hk, htail, hnext⟩ := hpc
      simp only [enqueue] at hs
      split at hs
      · obtain ⟨rfl, rfl, rfl⟩ := hs
        exact ⟨.stay _, hn, .same _ _⟩
      · split at hs
        case isTrue hnull =>
          obtain ⟨rfl, rfl, rfl⟩ := hs
          exact ⟨.stay _, ⟨hn, k, hk, htail⟩, .same _ _⟩
        case isFalse hnull =>
          obtain ⟨rfl, rfl, rfl⟩ := hs
          exact ⟨.stay _, ⟨hn, k, htail, hnext.pointsTo hnull⟩, .same _ _⟩
  | link item node tail =>
      obtain ⟨hn, k, hk, q, hq, hnode⟩ := hpc
      simp only [enqueue, hq, Option.map_some, Option.some.injEq] at hs
      split at hs
      case isTrue hnull =>
        -- the node at position `k` has no successor, so it is the last one
        obtain ⟨rfl, rfl, rfl⟩ := hs
        have hlast : s.view.next q = none := hnull
        have hlength := h.last hnode hlast
        rw [list, list, items, items, view_link]
        refine ⟨.link hn.1 hnode hk hlast, ⟨k, ⟨q, rfl, link_getElem? hnode⟩, ?_⟩, ?_⟩
        · rw [hlength]
          apply link_last
        · rw [grow, h.items_link, hn.2]
          apply Phase.Step.append
      case isFalse =>
        obtain ⟨rfl, rfl, rfl⟩ := hs
        exact ⟨.stay _, hn, .same _ _⟩
  | swing item node tail =>
      obtain ⟨k, htail, hnode⟩ := hpc
      simp only [enqueue] at hs
      split at hs
      case isTrue heq =>
        obtain ⟨rfl, rfl, rfl⟩ := hs
        subst heq
        obtain rfl := h.at_tail htail
        exact ⟨.swingTail hnode, trivial, .same _ _⟩
      case isFalse =>
        obtain ⟨rfl, rfl, rfl⟩ := hs
        exact ⟨.stay _, trivial, .same _ _⟩
  | help item node tail next =>
      obtain ⟨hn, k, htail, q, rfl, hnode⟩ := hpc
      simp only [enqueue] at hs
      split at hs
      case isTrue heq =>
        obtain ⟨rfl, rfl, rfl⟩ := hs
        subst heq
        obtain rfl := h.at_tail htail
        exact ⟨.swingTail hnode, hn, .same _ _⟩
      case isFalse =>
        obtain ⟨rfl, rfl, rfl⟩ := hs
        exact ⟨.stay _, hn, .same _ _⟩
  | done item => cases hs

/-- Each access of `dequeue` keeps the invariant and what the thread knows; the one that
moves the head removes the front, and one that reads a null successor sees the list
empty. -/
theorem dequeue_spec {weak : Bool} {pc pc' : Dequeue V} (h : Inv (s, a))
    (hpc : pc.Knows (s, a)) (hs : dequeue weak s pc = some (s', pc', t)) :
  ListStep i (list (s, a)) (list (s', grow i a t)) ∧ pc'.Knows (s', grow i a t) ∧
    Phase.Step (effect t) (items (s, a)) (phase (.dequeue pc)) (items (s', grow i a t))
      (phase (.dequeue pc'))
  := by
  cases pc with
  | loadHead item =>
      obtain ⟨rfl, rfl, rfl⟩ := hs
      exact ⟨.stay _, ⟨a.head, le_rfl, h.head_pointsTo⟩, .same _ _⟩
  | loadTail item head =>
      obtain ⟨k, hk, hhead⟩ := hpc
      obtain ⟨rfl, rfl, rfl⟩ := hs
      exact ⟨.stay _, ⟨k, hk, a.tail, le_rfl, hk.trans h.head_le, hhead, h.tail_pointsTo⟩,
        .same _ _⟩
  | loadNext item head tail =>
      obtain ⟨k, hk, m, hm, hkm, ⟨q, rfl, hnode⟩, htail⟩ := hpc
      obtain ⟨rfl, rfl, rfl⟩ := hs
      refine ⟨.stay _, ⟨k, hk, m, hm, hkm, ⟨q, rfl, hnode⟩, htail, h.next_nullOr hnode⟩, ?_⟩
      cases hnull : (s.node q).next with
      | none =>
          simp only [phase, grow, items, h.items_eq_nil hnode hk hnull]
          apply Phase.Step.see
      | some x =>
          apply Phase.Step.same
  | checkHead item head tail next =>
      obtain ⟨k, hk, m, hm, hkm, hhead, htail, hnext⟩ := hpc
      simp only [dequeue] at hs
      split at hs
      · obtain ⟨rfl, rfl, rfl⟩ := hs
        exact ⟨.stay _, trivial, .forget _ _⟩
      · split at hs
        case isTrue hnull =>
          obtain ⟨rfl, rfl, rfl⟩ := hs
          simp only [phase, hnull]
          exact ⟨.stay _, trivial, .same _ _⟩
        case isFalse hnull =>
          split at hs
          case isTrue heq =>
            obtain ⟨rfl, rfl, rfl⟩ := hs
            exact ⟨.stay _, ⟨k, heq ▸ hhead, hnext.pointsTo hnull⟩, .forget _ _⟩
          case isFalse heq =>
            -- the tail read after the head is ahead of it
            obtain ⟨rfl, rfl, rfl⟩ := hs
            have hlt : k < m := by
              apply lt_of_le_of_ne hkm
              rintro rfl
              exact heq (hhead.eq htail)
            exact ⟨.stay _, ⟨k, lt_of_lt_of_le hlt hm, hhead, hnext.pointsTo hnull⟩,
              .forget _ _⟩
  | refused item => cases hs
  | help item tail next =>
      obtain ⟨k, htail, q, rfl, hnode⟩ := hpc
      simp only [dequeue] at hs
      split at hs
      case isTrue heq =>
        obtain ⟨rfl, rfl, rfl⟩ := hs
        subst heq
        obtain rfl := h.at_tail htail
        exact ⟨.swingTail hnode, trivial, .same _ _⟩
      case isFalse =>
        obtain ⟨rfl, rfl, rfl⟩ := hs
        exact ⟨.stay _, trivial, .same _ _⟩
  | readItem item head next =>
      obtain ⟨k, hk, hhead, q, rfl, hnode⟩ := hpc
      obtain ⟨rfl, rfl, rfl⟩ := hs
      exact ⟨.stay _, ⟨k, hk, hhead, q, rfl, hnode, rfl⟩, .same _ _⟩
  | swing item head next =>
      obtain ⟨k, hk, hhead, q, rfl, hnode, hitem⟩ := hpc
      simp only [dequeue] at hs
      split at hs
      case isTrue heq =>
        obtain ⟨rfl, rfl, rfl⟩ := hs
        have hne : head ≠ none := by
          obtain ⟨x, rfl, -⟩ := hhead
          exact Option.some_ne_none x
        subst heq
        obtain rfl := h.at_head hhead
        have hitems := items_swingHead (v := s.view) hnode
        rw [hitem] at hitems
        rw [items, hitems]
        exact ⟨.swingHead hk hnode, hne, .remove _ _ _⟩
      case isFalse =>
        obtain ⟨rfl, rfl, rfl⟩ := hs
        exact ⟨.stay _, trivial, .same _ _⟩
  | loadRetired item node =>
      obtain ⟨rfl, rfl, rfl⟩ := hs
      exact ⟨.stay _, hpc, .same _ _⟩
  | storeRetiredNext item node oldRetired =>
      obtain ⟨p, rfl⟩ := Option.ne_none_iff_exists'.mp hpc
      obtain ⟨rfl, rfl, rfl⟩ := hs
      rw [list, list, items, items, view_setRetiredNext]
      exact ⟨.stay _, hpc, .same _ _⟩
  | casRetired item node oldRetired =>
      obtain ⟨p, rfl⟩ := Option.ne_none_iff_exists'.mp hpc
      simp only [dequeue, Option.map_some, Option.some.injEq] at hs
      split at hs
      · obtain ⟨rfl, rfl, rfl⟩ := hs
        exact ⟨.stay _, trivial, .same _ _⟩
      · obtain ⟨rfl, rfl, rfl⟩ := hs
        exact ⟨.stay _, hpc, .same _ _⟩
  | done item => cases hs

/-! ### Every run is linearizable -/

variable [Inhabited V]

/-- What each access of a thread establishes. -/
theorem step_spec {ch : Bool} {s s' : Shared V × Spine ι} {l l' : Local V} {t : Tag}
    (h : Inv s) (hl : Knows i s (some l))
    (hs : ((machine ι V).withGhost (ghost ι V)).step i ch s l = some (s', l', t)) :
  ListStep i (list s) (list s') ∧ Knows i s' (some l') ∧
    Phase.Step (effect t) (items s) (phase l) (items s') (phase l')
  := by
  obtain ⟨hs, ha⟩ := withGhost_step.mp hs
  obtain ⟨s, a⟩ := s
  obtain ⟨s', a'⟩ := s'
  obtain rfl : a' = grow i a t := ha
  rcases step_inv hs with ⟨pc, pc', rfl, rfl, hpc⟩ | ⟨pc, pc', rfl, rfl, hpc⟩
  · apply enqueue_spec h hl hpc
  · apply dequeue_spec h hl hpc

/-- The invariant and what the threads know form a proof outline. -/
theorem outline (ι V : Type) [Inhabited V] :
  ((machine ι V).withGhost (ghost ι V)).Outline Inv Knows fun j s s' => Grows j (list s) (list s')
  := by
  constructor
  case init => apply single_fits rfl rfl Nat.zero_lt_one rfl
  case idle =>
    intro i
    trivial
  case call =>
    intro i s o _ _ _
    cases o with
    | enqueue item => trivial
    | dequeue out => trivial
  case ret =>
    intros
    trivial
  case step =>
    intro i ch s l s' l' t h hl _ _ hs
    obtain ⟨hstep, hl', -⟩ := step_spec h hl hs
    exact ⟨hstep.fits h, hl', fun _ hj => hstep.grows h hj⟩
  case stable =>
    intro j s s' l _ _ hg hl
    match l with
    | none => trivial
    | some (.enqueue pc) => apply Enqueue.Knows.keep hl hg
    | some (.dequeue pc) => apply Dequeue.Knows.keep hl hg

theorem linearizes (ι V : Type) [Inhabited V] :
  Linearizes ((machine ι V).withGhost (ghost ι V)) effect Inv Knows items fun _ _ => phase
  := by
  constructor
  case init => rfl
  case enqueue =>
    intros
    rfl
  case dequeue =>
    intros
    rfl
  case frame =>
    intros
    rfl
  case step =>
    intro i ch s l s' l' t h hl hs
    apply (step_spec h hl hs).2.2
  case result =>
    intro i s l v _ _ hv
    rcases result_eq_some ι hv with ⟨item, rfl, rfl⟩ | ⟨item, rfl, rfl⟩ | ⟨item, rfl, rfl⟩
    · exact Or.inl ⟨item, rfl, rfl⟩
    · exact Or.inr (Or.inr ⟨item, rfl, rfl⟩)
    · exact Or.inr (Or.inl ⟨item, rfl, rfl⟩)

/-- Every run of `ValoisQueue`, of any length and with any number of threads, is
linearizable: the linking of its node is the one step at which an enqueue takes effect,
and the moving of the head the one step at which a dequeue does. -/
theorem valoisQueue_linearizable [DecidableEq ι] {n : ℕ} (r : (machine ι V).Run n) :
  ∃ q, r.Fifo effect q
  := by
  use fun k => items ((r.conf k).shared, r.trail (ghost ι V) k)
  exact ((linearizes ι V).fifo (outline ι V) (r.lift (ghost ι V) fun _ _ => trivial)).of_lift

end ValoisQueue
