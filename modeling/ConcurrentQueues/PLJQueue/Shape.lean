import ConcurrentQueues.Library.Links
import ConcurrentQueues.Library.Progress
import ConcurrentQueues.PLJQueue.Linearizable

/-!
# The shape of PLJQueue

The objects from the head on form a chain that ends in null, and the tail points to one of its
last two. An object that has been dequeued is delinked by its dequeuer alone, at a time when
neither head nor tail leads to it: the head points to an object during one stretch of time
only, and a dequeuer that has marked an object goes on when that time is over.
-/

namespace PLJQueue

open Machine

variable {ι V : Type}

/-- The object that follows `p`. -/
def Shared.succ (s : Shared V) (p : ℕ) : Option ℕ := (s.object p).nextobject.ptr

/-- The object `p` is going to be dequeued. -/
def Shared.Marked (s : Shared V) (p : ℕ) : Prop := (s.object p).nextobject.count.mark = DEQ

/-- The chain of objects in each case of head and tail being null. -/
structure Shape (s : Shared V) : Prop where
  both : ∀ h t, s.head.ptr = some h → s.tail.ptr = some t → ∃ l, Links s.succ s.head.ptr l ∧
    l.Nodup ∧ (∃ l', l = l' ++ [t] ∨ ∃ x, l = l' ++ [t, x]) ∧
    ∀ p ∈ l, s.Marked p → p = h ∧ p = t ∧ l = [p]
  headOnly : ∀ h, s.head.ptr = some h → s.tail.ptr = none → s.Marked h
  tailOnly : ∀ t, s.head.ptr = none → s.tail.ptr = some t →
    s.succ t = none ∧ (s.object t).nextobject.count.mark = ENQ

/-! ### The head leaves an object once -/

/-- The head has reached the object `p`. -/
def Arrived (a : History ι) (p : ℕ) : Prop :=
  ∃ m, a.nodes[m]? = some p ∧ m < a.opened ∧ m ≤ a.removed

/-- What is known from having seen the head `h`. -/
def HeadAt (x : Shared V × History ι) (h : Pointer) : Prop :=
  ∀ p, h.ptr = some p → Arrived x.2 p ∧ (x.1.head.ptr = some p → x.1.head = h)

/-- The head has left the object `p`. -/
def HeadLeft (x : Shared V × History ι) (p : ℕ) : Prop :=
  Arrived x.2 p ∧ x.1.head.ptr ≠ some p

/-- While the queue is draining its only object is marked. -/
def Drains (x : Shared V × History ι) : Prop :=
  x.2.stage = .draining → ∀ p, x.2.nodes[x.2.tail]? = some p → (x.1.object p).nextobject = .marked

/-- How the head moves, as far as objects it has reached are concerned. -/
structure HeadGrows (x x' : Shared V × History ι) : Prop where
  arrived : ∀ p, Arrived x.2 p → Arrived x'.2 p
  head : ∀ p, Arrived x.2 p → x'.1.head.ptr = some p → x'.1.head = x.1.head

section step

variable {i : ι} {x x' : Shared V × History ι} {s s' : Shared V} {a : History ι} {h : Pointer}
  {p : ℕ}

theorem HeadAt.keep (ha : HeadAt x h) (hg : HeadGrows x x') :
  HeadAt x' h
  := by
  intro p hp
  obtain ⟨harrived, hhead⟩ := ha p hp
  use hg.arrived p harrived
  intro hp'
  have heq := hg.head p harrived hp'
  rw [heq]
  apply hhead
  rw [← heq, hp']

theorem HeadLeft.keep (hl : HeadLeft x p) (hg : HeadGrows x x') :
  HeadLeft x' p
  := by
  obtain ⟨harrived, hne⟩ := hl
  use hg.arrived p harrived
  intro hp'
  rw [hg.head p harrived hp'] at hp'
  exact hne hp'

/-- The head has reached the object to which it points. -/
theorem Fits.arrived (hf : Fits s a) (hp : s.head.ptr = some p) :
  Arrived a p
  := by
  have hstage := hf.stage
  cases hg : a.stage with
  | normal =>
      rw [hg] at hstage
      obtain ⟨hrt, htl, -, hhead, -⟩ := hstage
      use a.removed, hhead.symm.trans hp
      rw [opened_of_ne (by rw [hg]; exact nofun)]
      exact ⟨lt_of_le_of_lt hrt htl, le_rfl⟩
  | marked =>
      rw [hg] at hstage
      obtain ⟨hr, ht, hhead, -⟩ := hstage
      use a.tail, hhead.symm.trans hp
      rw [opened_of_ne (by rw [hg]; exact nofun)]
      omega
  | draining =>
      rw [hg] at hstage
      obtain ⟨hr, ht, hhead, -⟩ := hstage
      use a.tail, hhead.symm.trans hp
      rw [opened_of_ne (by rw [hg]; exact nofun)]
      omega
  | empty =>
      rw [hg] at hstage
      obtain ⟨-, -, hhead, -⟩ := hstage
      cases hhead.symm.trans hp
  | filling =>
      rw [hg] at hstage
      obtain ⟨-, -, hhead, -⟩ := hstage
      cases hhead.symm.trans hp

/-- A head that is read now has reached its object. -/
theorem Fits.headAt (hf : Fits s a) :
  HeadAt (s, a) s.head
  := fun _ hp => ⟨hf.arrived hp, fun _ => rfl⟩

variable [DecidableEq ι]

/-- The head comes to no object that it has reached before. -/
theorem HistoryStep.headGrows (hs : HistoryStep i x x') (hf : Fits x.1 x.2) :
  HeadGrows x x'
  := by
  constructor
  case arrived =>
    rintro p ⟨m, hm, hopened, hr⟩
    obtain ⟨rest, hrest⟩ := hs.nodes
    have hlt := (List.getElem?_eq_some_iff.mp hm).1
    refine ⟨m, ?_, lt_of_lt_of_le hopened (hs.opened hf), hr.trans hs.removed⟩
    rw [← hrest, List.getElem?_append_left hlt, hm]
  case head =>
    rintro p ⟨m, hm, hopened, hr⟩ hp
    cases hs with
    | @shiftHead s a p' q hg hlt hp' hq =>
        have hnext : a.nodes[a.removed + 1]? = some p := by rw [hq]; exact hp
        have heq := hf.position hm hnext
        simp only at hr
        omega
    | @fillHead s a q hg hq =>
        have hlast : a.nodes[a.tail]? = some p := by rw [hq]; exact hp
        have heq := hf.position hm hlast
        have hstage := hf.stage
        rw [hg] at hstage
        have hlen : a.tail + 1 = a.nodes.length := hstage.2.1
        have hlt : m < a.nodes.length - 1 := by
          have hopened : m < a.opened := hopened
          rwa [History.opened, hg] at hopened
        omega
    | drainHead => cases hp
    | _ => rfl

end step

/-! ### What a thread knows about the head -/

/-- What a thread at a point of a snapshot knows about the head it has read. -/
def Snapshot.HeadKnown (x : Shared V × History ι) : Snapshot → Prop
  | .loadHead _ => True
  | .loadTail h _ | .loadNext h _ _ | .checkTail h _ _ | .checkHead h _ _ | .done h _ _ =>
      HeadAt x h

/-- What a dequeuer knows about the head at each point. -/
def Dequeue.HeadKnown (x : Shared V × History ι) : Dequeue V → Prop
  | .snapshot _ pc => pc.HeadKnown x
  | .mark _ h _ _ => HeadAt x h
  | .markTail _ object h _ | .markHead _ object h => HeadAt x h ∧ object = h.ptr
  | .delinkLoad _ p | .delinkStore _ p _ => HeadLeft x p
  | _ => True

/-- What a thread knows about the head. -/
def HeadKnown (x : Shared V × History ι) : Option (Local V) → Prop
  | some (.dequeue pc) => pc.HeadKnown x
  | _ => True

section points

variable {i : ι} {x x' : Shared V × History ι} {s s' : Shared V} {a : History ι} {t : Tag} {p : ℕ}

theorem Snapshot.HeadKnown.keep {pc : Snapshot} (h : pc.HeadKnown x) (hg : HeadGrows x x') :
  pc.HeadKnown x'
  := by
  cases pc with
  | loadHead next => trivial
  | _ => exact HeadAt.keep h hg

theorem HeadKnown.keep {l : Option (Local V)} (h : HeadKnown x l) (hg : HeadGrows x x') :
  HeadKnown x' l
  := by
  match l with
  | none => trivial
  | some (.enqueue pc) => trivial
  | some (.dequeue pc) =>
      cases pc with
      | snapshot item pc => exact Snapshot.HeadKnown.keep h hg
      | mark item h t n => exact HeadAt.keep h hg
      | markTail item object hd t | markHead item object hd => exact ⟨HeadAt.keep h.1 hg, h.2⟩
      | delinkLoad item object | delinkStore item object old => exact HeadLeft.keep h hg
      | _ => trivial

/-- An access of a snapshot that reads the head. -/
theorem snapshot_headKnown {pc pc' : Snapshot} (hf : Fits s a) (h : pc.HeadKnown (s, a))
    (hs : snapshot s pc = some (pc', t)) :
  pc'.HeadKnown (s, a)
  := by
  cases pc with
  | loadHead next =>
      cases hs
      exact hf.headAt
  | loadTail hd next =>
      simp only [snapshot] at hs
      split at hs
      · cases hs
        exact h
      · cases hs
        exact h
  | loadNext hd tl next =>
      obtain ⟨q, -, heq⟩ := Option.map_eq_some_iff.mp hs
      cases heq
      exact h
  | checkTail hd tl next =>
      simp only [snapshot] at hs
      split at hs
      · cases hs
        exact h
      · cases hs
        exact h
  | checkHead hd tl next =>
      simp only [snapshot] at hs
      split at hs
      case isTrue heq =>
        cases hs
        exact hf.headAt
      case isFalse =>
        cases hs
        trivial
  | done hd tl next => cases hs

theorem Dequeue.afterSnapshot_headKnown {item : V} {pc : Snapshot} (h : pc.HeadKnown x) :
  (Dequeue.afterSnapshot item pc).HeadKnown x
  := by
  cases pc with
  | done hd tl next =>
      rw [Dequeue.afterSnapshot, Dequeue.switch]
      split
      case h_3 => exact h
      all_goals trivial
  | _ => exact h

variable [DecidableEq ι]

/-- Each access of `dequeue` keeps what the thread knows about the head. -/
theorem dequeue_headKnown {pc pc' : Dequeue V} (hf : Fits s a) (hk : pc.Knows i (s, a))
    (h : pc.HeadKnown (s, a)) (hs : dequeue s pc = some (s', pc', t)) :
  pc'.HeadKnown (s', a.next i t)
  := by
  obtain ⟨hstep, -⟩ := dequeue_spec hf hk hs
  have hgrows := hstep.headGrows hf
  cases pc with
  | snapshot item pc =>
      obtain ⟨⟨pc₁, t⟩, hs, heq⟩ := Option.map_eq_some_iff.mp hs
      cases heq
      exact Dequeue.afterSnapshot_headKnown ((snapshot_headKnown hf h hs).keep hgrows)
  | shiftHead item hd next =>
      obtain ⟨-, m, p, hp, hm, hmt, hnext⟩ := hk
      simp only [dequeue] at hs
      split at hs
      case isTrue heq =>
        cases hs
        obtain ⟨q, rfl, hq⟩ := hnext heq
        have harrived := hgrows.arrived p (hf.arrived (heq ▸ hp))
        rw [hp] at harrived ⊢
        use harrived
        intro hpq
        obtain rfl : q = p := Option.some.inj hpq
        have hsame := hf.position hm hq
        omega
      case isFalse =>
        cases hs
        trivial
  | mark item hd tl next =>
      obtain ⟨-, -, -, hsame, -⟩ := hk
      obtain ⟨q, -, heq⟩ := Option.map_eq_some_iff.mp hs
      split at heq
      · cases heq
        exact ⟨HeadAt.keep h hgrows, rfl⟩
      · cases heq
        trivial
  | markTail item object hd tl =>
      simp only [dequeue] at hs
      split at hs
      · cases hs
        exact ⟨h.1.keep hgrows, h.2⟩
      · cases hs
        exact ⟨h.1.keep hgrows, h.2⟩
  | markHead item object hd =>
      obtain ⟨hat, rfl⟩ := h
      simp only [dequeue] at hs
      split at hs
      case isTrue heq =>
        cases hs
        cases hp : hd.ptr with
        | none => trivial
        | some p => exact ⟨hgrows.arrived p (hat p hp).1, by rintro ⟨⟩⟩
      case isFalse hne =>
        cases hs
        cases hp : hd.ptr with
        | none => trivial
        | some p => exact ⟨(hat p hp).1, fun heq => hne ((hat p hp).2 heq)⟩
  | delinkLoad item object =>
      cases hs
      exact h
  | loadHeadNext item hd | loadTailNext item tl =>
      obtain ⟨q, -, heq⟩ := Option.map_eq_some_iff.mp hs
      cases heq
      trivial
  | drainTail item hd tl | drainHead item hd | shiftTail item tl next | fillHead item hd tl =>
      simp only [dequeue] at hs
      split at hs
      · cases hs
        trivial
      · cases hs
        trivial
  | delinkStore item object old | readData item object =>
      cases hs
      trivial
  | refused item | done item => cases hs

/-! ### The object of a draining queue stays marked -/

omit [DecidableEq ι] in
theorem Fits.not_draining (hf : Fits s a) {k q : ℕ} (hk : a.nodes[k]? = some q)
    (hq : (s.object q).nextobject = .unlinked) (hopened : k < a.opened) :
  a.stage ≠ .draining
  := by
  rw [hf.normal hk (hf.unlinked hk hq).1 hopened]
  rintro ⟨⟩

omit [DecidableEq ι] in
/-- While the queue is draining, `enqueue` leaves its only object alone. -/
theorem enqueue_drained {pc pc' : Enqueue V} (hf : Fits s a) (hk : pc.Knows i (s, a))
    (hs : enqueue s pc = some (s', pc', t)) (hg : a.stage = .draining)
    (hp : a.nodes[a.tail]? = some p) :
  (s'.object p).nextobject = (s.object p).nextobject
  := by
  have hmem := List.mem_of_getElem? hp
  cases pc with
  | new item =>
      cases hs
      exact congrArg Object.nextobject (setObject_of_ne (ne_of_lt (hf.below p hmem)) _)
  | storeNext item object =>
      obtain ⟨-, hnot, -⟩ := hk
      cases hs
      rw [setNext_of_ne]
      rintro rfl
      exact hnot hmem
  | snapshot item object pc =>
      obtain ⟨⟨pc₁, t⟩, hs, heq⟩ := Option.map_eq_some_iff.mp hs
      cases heq
      rfl
  | link item object tl next =>
      obtain ⟨-, rfl, k, ⟨q, hq, hnode, -⟩, hopened⟩ := hk
      simp only [enqueue, hq, Option.map_some, Option.some.injEq] at hs
      split at hs
      case isTrue heq => exact absurd hg (hf.not_draining hnode heq hopened)
      case isFalse =>
        cases hs
        rfl
  | done item => cases hs
  | _ =>
      simp only [enqueue] at hs
      split at hs
      · cases hs
        rfl
      · cases hs
        rfl

omit [DecidableEq ι] in
/-- While the queue is draining, `dequeue` leaves its only object alone. -/
theorem dequeue_drained {pc pc' : Dequeue V} (hf : Fits s a) (hk : pc.Knows i (s, a))
    (h : pc.HeadKnown (s, a)) (hs : dequeue s pc = some (s', pc', t)) (hg : a.stage = .draining)
    (hp : a.nodes[a.tail]? = some p) :
  (s'.object p).nextobject = (s.object p).nextobject
  := by
  cases pc with
  | snapshot item pc =>
      obtain ⟨⟨pc₁, t⟩, hs, heq⟩ := Option.map_eq_some_iff.mp hs
      cases heq
      rfl
  | mark item hd tl next =>
      obtain ⟨-, -, rfl, -, k, ⟨q, hq, hnode, -⟩, hopened, -⟩ := hk
      simp only [dequeue, hq, Option.map_some, Option.some.injEq] at hs
      split at hs
      case isTrue heq => exact absurd hg (hf.not_draining hnode heq hopened)
      case isFalse =>
        cases hs
        rfl
  | delinkStore item object old =>
      cases hs
      rw [setNext_of_ne]
      rintro rfl
      -- the head is at the only object, which the dequeuer has seen it leave
      have hstage := hf.stage
      rw [hg] at hstage
      obtain ⟨-, -, hhead, -⟩ := hstage
      exact h.2 (hhead.trans hp)
  | loadHeadNext item hd | loadTailNext item tl =>
      obtain ⟨q, -, heq⟩ := Option.map_eq_some_iff.mp hs
      cases heq
      rfl
  | delinkLoad item object | readData item object =>
      cases hs
      rfl
  | refused item | done item => cases hs
  | _ =>
      simp only [dequeue] at hs
      split at hs
      · cases hs
        rfl
      · cases hs
        rfl

theorem Drains.next (hd : Drains x) (hf : Fits x.1 x.2) (hs : HistoryStep i x x')
    (hkeep : x.2.stage = .draining → ∀ p, x.2.nodes[x.2.tail]? = some p →
      (x'.1.object p).nextobject = (x.1.object p).nextobject) :
  Drains x'
  := by
  intro hg p hp
  cases hs with
  | drainTail hmarked =>
      have hstage := hf.stage
      rw [hmarked] at hstage
      exact hstage.2.2.2.2 p hp
  | link hk hq hopened => exact absurd hg (hf.not_draining hk hq hopened)
  | mark => cases hg
  | drainHead => cases hg
  | fillTail => cases hg
  | fillHead => cases hg
  | shiftTail hnormal => cases hnormal.symm.trans hg
  | shiftHead hnormal => cases hnormal.symm.trans hg
  | _ => exact (hkeep hg p hp).trans (hd hg p hp)

end points

/-! ### The chain from the head -/

/-- The objects from the head on. -/
def History.chain (a : History ι) : List ℕ :=
  match a.stage with
  | .normal => a.nodes.drop a.removed
  | .marked | .draining => a.nodes.drop a.tail
  | .empty | .filling => []

section chain

variable {i : ι} {s : Shared V} {a : History ι} {p : ℕ}

theorem follow_ptr (p : Option ℕ) :
  (Pointer.follow p).ptr = p
  := by
  cases p with
  | none => rfl
  | some p => rfl

theorem follow_mark (p : Option ℕ) :
  (Pointer.follow p).count.mark = ENQ
  := by
  cases p with
  | none => rfl
  | some p => rfl

/-- From the last position on there is one node. -/
theorem drop_last (h : a.tail + 1 = a.nodes.length) (hp : a.nodes[a.tail]? = some p) :
  a.nodes.drop a.tail = [p]
  := by
  obtain ⟨hlt, hget⟩ := List.getElem?_eq_some_iff.mp hp
  rw [List.drop_eq_getElem_cons hlt, hget, List.drop_eq_nil_of_le (le_of_eq h.symm)]

/-- Following `nextobject` from the head leads through the chain. -/
theorem Fits.links (hf : Fits s a) (hd : Drains (s, a)) :
  Links s.succ s.head.ptr a.chain
  := by
  have hstage := hf.stage
  -- a marked object is the only one
  have honly : a.tail + 1 = a.nodes.length → s.head.ptr = a.nodes[a.tail]? →
      (∀ p, a.nodes[a.tail]? = some p → (s.object p).nextobject = .marked) →
      Links s.succ s.head.ptr (a.nodes.drop a.tail) := by
    intro hlast hhead hmarked
    have hp : a.nodes[a.tail]? = some a.nodes[a.tail] := List.getElem?_eq_getElem (by omega)
    rw [drop_last hlast hp, hhead, hp]
    use rfl
    rw [Shared.succ, hmarked _ hp]
    rfl
  cases hg : a.stage with
  | normal =>
      rw [hg] at hstage
      obtain ⟨-, -, -, hhead, -⟩ := hstage
      rw [hhead, History.chain, hg, ← List.head?_drop]
      apply Links.of_getElem?
      intro k p hp
      rw [List.getElem?_drop] at hp ⊢
      rw [Shared.succ, hf.next (a.removed + k) p (Nat.le_add_right _ _) hp, follow_ptr]
      rfl
  | marked =>
      rw [hg] at hstage
      obtain ⟨-, hlast, hhead, -, hmarked⟩ := hstage
      rw [History.chain, hg]
      exact honly hlast hhead hmarked
  | draining =>
      rw [hg] at hstage
      obtain ⟨-, hlast, hhead, -⟩ := hstage
      rw [History.chain, hg]
      exact honly hlast hhead (hd hg)
  | empty =>
      rw [hg] at hstage
      rw [History.chain, hg, hstage.2.2.1]
      rfl
  | filling =>
      rw [hg] at hstage
      rw [History.chain, hg, hstage.2.2.1]
      rfl

/-- What the history describes has the shape. -/
theorem Fits.shape (hf : Fits s a) (hd : Drains (s, a)) :
  Shape s
  := by
  have hlinks := hf.links hd
  have hstage := hf.stage
  constructor
  case both =>
    intro h t hh ht
    use a.chain, hlinks, hlinks.nodup
    obtain ⟨htail, hhas⟩ := hf.tail_inv ht
    obtain ⟨hlt, hget⟩ := List.getElem?_eq_some_iff.mp htail
    cases hg : a.stage with
    | normal =>
        rw [hg] at hstage
        obtain ⟨hrt, -, hlen, -⟩ := hstage
        rw [History.chain, hg]
        constructor
        · use (a.nodes.drop a.removed).take (a.tail - a.removed)
          have hsplit : a.nodes.drop a.removed
              = (a.nodes.drop a.removed).take (a.tail - a.removed) ++ a.nodes.drop a.tail := by
            have happend := List.take_append_drop (a.tail - a.removed) (a.nodes.drop a.removed)
            rw [List.drop_drop, Nat.add_sub_of_le hrt] at happend
            exact happend.symm
          rw [List.drop_eq_getElem_cons hlt, hget] at hsplit
          rcases Nat.lt_or_ge (a.tail + 1) a.nodes.length with hmore | hlast
          · right
            use a.nodes[a.tail + 1]
            rw [List.drop_eq_getElem_cons hmore, List.drop_eq_nil_of_le hlen] at hsplit
            exact hsplit
          · left
            rw [List.drop_eq_nil_of_le hlast] at hsplit
            exact hsplit
        · intro p hp hmarked
          obtain ⟨k, hk⟩ := List.mem_iff_getElem?.mp hp
          rw [List.getElem?_drop] at hk
          rw [Shared.Marked, hf.next _ p (Nat.le_add_right _ _) hk, follow_mark] at hmarked
          cases hmarked
    | marked =>
        rw [hg] at hstage
        obtain ⟨-, hlast, hhead, -⟩ := hstage
        obtain rfl : h = t := Option.some.inj ((hh.symm.trans hhead).trans htail)
        rw [History.chain, hg]
        simp only [drop_last hlast htail]
        refine ⟨⟨[], Or.inl rfl⟩, ?_⟩
        intro p hp _
        obtain rfl := List.mem_singleton.mp hp
        exact ⟨rfl, rfl, rfl⟩
    | draining | empty =>
        rw [hg] at hhas
        cases hhas
    | filling =>
        rw [hg] at hstage
        cases hstage.2.2.1.symm.trans hh
  case headOnly =>
    intro h hh ht
    rcases hf.tail_null ht with ⟨-, hg⟩ | ⟨hnone, -⟩
    · rw [hg] at hstage
      rw [Shared.Marked, hd hg h (hstage.2.2.1.symm.trans hh)]
      rfl
    · cases hnone.symm.trans hh
  case tailOnly =>
    intro t hh ht
    obtain ⟨htail, hhas⟩ := hf.tail_inv ht
    cases hg : a.stage with
    | normal =>
        rw [hg] at hstage
        obtain ⟨hrt, hlt, -, hhead, -⟩ := hstage
        have hnone := List.getElem?_eq_none_iff.mp (hhead.symm.trans hh)
        omega
    | marked =>
        rw [hg] at hstage
        cases (hstage.2.2.1.symm.trans hh).symm.trans htail
    | draining | empty =>
        rw [hg] at hhas
        cases hhas
    | filling =>
        rw [hg] at hstage
        obtain ⟨hr, hlast, -⟩ := hstage
        have hnext := hf.next a.tail t (le_of_eq hr) htail
        rw [List.getElem?_eq_none (by omega)] at hnext
        rw [Shared.succ, hnext]
        exact ⟨rfl, rfl⟩

/-- An object that has been dequeued, and that head and tail have left, is not in the queue. -/
theorem Fits.apart (hf : Fits s a) (hd : Drains (s, a)) (hpass : Passed i (s, a) (some p))
    (hleft : HeadLeft (s, a) p) :
  s.head.ptr ≠ some p ∧ s.tail.ptr ≠ some p ∧ ¬ Reached s.succ s.head.ptr p
  := by
  obtain ⟨k, ⟨_, hp, -, hk, hlt, -⟩, hnot⟩ := hpass
  cases hp
  have hstage := hf.stage
  refine ⟨hleft.2, ?_, ?_⟩
  · intro ht
    obtain ⟨htail, hhas⟩ := hf.tail_inv ht
    obtain rfl := hf.position hk htail
    cases hg : a.stage with
    | normal =>
        rw [hg] at hstage
        exact absurd hlt (Nat.not_lt.mpr hstage.1)
    | marked => exact hnot ⟨hg, rfl⟩
    | draining | empty =>
        rw [hg] at hhas
        cases hhas
    | filling =>
        rw [hg] at hstage
        exact absurd hlt (Nat.not_lt.mpr (le_of_eq hstage.1))
  · intro hreached
    have hmem := (hf.links hd).mem_of_reached hreached
    have honly : a.tail + 1 = a.nodes.length → s.head.ptr = a.nodes[a.tail]? →
        p ∉ a.nodes.drop a.tail := by
      intro hlast hhead hmem
      have hat : a.nodes[a.tail]? = some a.nodes[a.tail] := List.getElem?_eq_getElem (by omega)
      rw [drop_last hlast hat, List.mem_singleton] at hmem
      exact hleft.2 (hmem ▸ hhead.trans hat)
    cases hg : a.stage with
    | normal =>
        rw [History.chain, hg] at hmem
        obtain ⟨m, hm⟩ := List.mem_iff_getElem?.mp hmem
        rw [List.getElem?_drop] at hm
        have hpos := hf.position hk hm
        simp only at hlt
        omega
    | marked | draining =>
        rw [hg] at hstage
        rw [History.chain, hg] at hmem
        exact honly hstage.2.1 hstage.2.2.1 hmem
    | empty | filling =>
        rw [History.chain, hg] at hmem
        cases hmem

end chain

/-! ### The proof outline -/

variable [Inhabited V] [DecidableEq ι]

/-- The invariant with the mark of a draining queue. -/
def ShapeInv (x : Shared V × (History ι × ℕ × ℕ)) : Prop := Inv x ∧ Drains (history x)

/-- What thread `i` knows, and what it knows about the head. -/
def ShapeKnows (i : ι) (x : Shared V × (History ι × ℕ × ℕ)) (l : Option (Local V)) : Prop :=
  Knows i (history x) l ∧ HeadKnown (history x) l

theorem shape_outline (ι V : Type) [Inhabited V] [DecidableEq ι] :
  ((machine ι V).withGhost (ghost ι V)).Outline ShapeInv ShapeKnows fun j x x' =>
    Grows j (history x) (history x') ∧ HeadGrows (history x) (history x')
  := by
  have ho := outline ι V
  constructor
  case init => exact ⟨ho.init, nofun⟩
  case idle => exact fun i => ⟨ho.idle i, trivial⟩
  case call =>
    intro i x o hG hl hv
    use ho.call hG.1 hl.1 hv
    cases o with
    | enqueue item => trivial
    | dequeue out => trivial
  case ret => exact fun hG hl hv => ⟨ho.ret hG.1 hl.1 hv, trivial⟩
  case step =>
    rintro i ⟨⟩ ⟨s, a, c⟩ l ⟨s', a', c'⟩ l' t ⟨hinv, hdrains⟩ ⟨hknows, hhead⟩ hlegal hlegal' hs
    obtain ⟨hinv', hknows', hgrows⟩ := ho.step hinv hknows hlegal hlegal' hs
    obtain ⟨hstep, -⟩ := step_spec hinv hknows hs
    have hheadGrows := hstep.headGrows hinv.1
    obtain ⟨hs, ha⟩ := withGhost_step.mp hs
    obtain rfl : a' = a.next i t := congrArg Prod.fst ha
    rcases step_inv hs with ⟨pc, pc', rfl, rfl, hpc⟩ | ⟨pc, pc', rfl, rfl, hpc⟩
    · have hdrains' := hdrains.next hinv.1 hstep
        fun hg p hp => enqueue_drained hinv.1 hknows hpc hg hp
      exact ⟨⟨hinv', hdrains'⟩, ⟨hknows', trivial⟩, fun j hj => ⟨hgrows j hj, hheadGrows⟩⟩
    · have hdrains' := hdrains.next hinv.1 hstep
        fun hg p hp => dequeue_drained hinv.1 hknows hhead hpc hg hp
      exact ⟨⟨hinv', hdrains'⟩, ⟨hknows', dequeue_headKnown hinv.1 hknows hhead hpc⟩,
        fun j hj => ⟨hgrows j hj, hheadGrows⟩⟩
  case stable =>
    intro j x x' l hG hG' hR hl
    exact ⟨ho.stable hG.1 hG'.1 hR.1 hl.1, hl.2.keep hR.2⟩

/-! ### Every run keeps the shape -/

/-- The pointer to the object of the CAS on a field `nextobject` that a thread is about to
perform, and the value it expects. -/
def Local.casNext : Local V → Option (Option ℕ × Pointer)
  | .enqueue (.link _ _ tail next) => some (tail.ptr, next)
  | .dequeue (.mark _ _ tail next) => some (tail.ptr, next)
  | _ => none

omit [Inhabited V] in
theorem casNext_eq_some {l : Local V} {p : Option ℕ} {next : Pointer}
    (h : l.casNext = some (p, next)) :
  (∃ item object tail, l = .enqueue (.link item object tail next) ∧ tail.ptr = p) ∨
    ∃ item head tail, l = .dequeue (.mark item head tail next) ∧ tail.ptr = p
  := by
  cases l with
  | enqueue pc =>
      cases pc with
      | link item object tail next =>
          cases h
          exact Or.inl ⟨item, object, tail, rfl, rfl⟩
      | _ => cases h
  | dequeue pc =>
      cases pc with
      | mark item head tail next =>
          cases h
          exact Or.inr ⟨item, head, tail, rfl, rfl⟩
      | _ => cases h

variable {n : ℕ} (r : (machine ι V).Run n)

/-- The thread that takes step `k` is at the point `pc` of `dequeue`. -/
def Dequeues (pc : Dequeue V) (k : ℕ) : Prop :=
  k < n ∧ (r.conf k).thread (r.who k) = some (.dequeue pc)

/-- Step `k` is a CAS on the field `nextobject` of the object `p` that succeeds. -/
def CasNext (p k : ℕ) : Prop :=
  k < n ∧ ∃ l next, (r.conf k).thread (r.who k) = some l ∧ l.casNext = some (some p, next) ∧
    ((r.conf k).shared.object p).nextobject = next

/-- The queue has its shape in every state of the run, and delinking is safe. -/
structure KeepsShape : Prop where
  shape : ∀ k ≤ n, Shape (r.conf k).shared
  /-- Only an object that is not in the queue is delinked. -/
  apart : ∀ item p old k, Dequeues r (.delinkStore item p old) k →
    (r.conf k).shared.head.ptr ≠ some p ∧ (r.conf k).shared.tail.ptr ≠ some p ∧
    ¬ Reached (r.conf k).shared.succ (r.conf k).shared.head.ptr p
  /-- From the load to the store the object is left alone. -/
  still : ∀ item p k m, Dequeues r (.delinkLoad item p) k → k < m → m ≤ n →
    (∀ j, k < j → j < m → r.who j ≠ r.who k) →
    ((r.conf m).shared.object p).nextobject = ((r.conf k).shared.object p).nextobject
  /-- Afterwards no CAS on the object succeeds. -/
  final : ∀ item p old k m, Dequeues r (.delinkStore item p old) k → k < m → ¬ CasNext r p m
  /-- When the head is shifted, it is shifted to the successor of the removed object. -/
  installs : ∀ item h next k, Dequeues r (.shiftHead item h next) k → (r.conf k).shared.head = h →
    ∃ p q, h.ptr = some p ∧ next = some q ∧ (r.conf k).shared.succ p = some q ∧
      (r.conf (k + 1)).shared.head.ptr = some q

variable {r} {j k m p : ℕ}

/-- Objects that are dequeued stay dequeued. -/
theorem trail_removed (hkm : k ≤ m) :
  (r.trail (ghost ι V) k).1.nodes <+: (r.trail (ghost ι V) m).1.nodes ∧
    (r.trail (ghost ι V) k).1.removed ≤ (r.trail (ghost ι V) m).1.removed
  := by
  apply r.trail_mono (ghost ι V) (fun a b => a.1.nodes <+: b.1.nodes ∧ a.1.removed ≤ b.1.removed)
    (fun _ => ⟨List.prefix_rfl, le_rfl⟩) (fun _ _ _ h h' => ⟨h.1.trans h'.1, h.2.trans h'.2⟩) _ hkm
  intro i s a l s' l' t
  cases t with
  | link p => exact ⟨List.prefix_append _ _, le_rfl⟩
  | fillTail p => exact ⟨List.prefix_append _ _, le_rfl⟩
  | mark p | shiftHead p =>
      cases p with
      | none => exact ⟨List.prefix_rfl, le_rfl⟩
      | some p => exact ⟨List.prefix_rfl, Nat.le_succ _⟩
  | _ => exact ⟨List.prefix_rfl, le_rfl⟩

section bounded

variable (hhead : changes r Shared.head n < 2 ^ 32) (htail : changes r Shared.tail n < 2 ^ 32)

include hhead htail

/-- What holds at step `k`. -/
theorem asserts (hk : k ≤ n) :
  Fits (r.conf k).shared (r.trail (ghost ι V) k).1 ∧
    Drains ((r.conf k).shared, (r.trail (ghost ι V) k).1) ∧
    ∀ i, Knows i ((r.conf k).shared, (r.trail (ghost ι V) k).1) ((r.conf k).thread i) ∧
      HeadKnown ((r.conf k).shared, (r.trail (ghost ι V) k).1) ((r.conf k).thread i)
  := by
  obtain ⟨⟨hinv, hdrains⟩, hknows⟩ := (shape_outline ι V).sound
    (r.lift (ghost ι V) (trail_bound r hhead htail)) k hk
  exact ⟨hinv.1, hdrains, hknows⟩

/-- An object in the hands of another thread is left alone. -/
theorem object_other {i : ι} (hk : k < n) (hi : r.who k ≠ i)
    (hp : (r.trail (ghost ι V) k).1.owner p = some i) :
  (r.conf (k + 1)).shared.object p = (r.conf k).shared.object p
  := by
  rcases r.rests_or_acts hk with ⟨-, hrest⟩ | ⟨t, ht⟩
  · rw [hrest]
  · obtain ⟨l, ⟨⟩, s, l', hl, hs, hc, hinv, hknows, -⟩ := (outline ι V).acts
      (r := r.lift (ghost ι V) (trail_bound r hhead htail)) (i := r.who k) (t := t) ht
    obtain ⟨hhistory, -⟩ := step_spec hinv hknows hs
    have hshared : (r.conf (k + 1)).shared = s.1 := congrArg (fun c => c.shared.1) hc
    rw [hshared]
    exact (hhistory.owner hinv.1 (Ne.symm hi) hp).2.1

/-- From the load to the store a thread that delinks an object stays where it is. -/
theorem delink_still {item : V} (hk : Dequeues r (.delinkLoad item p) k) (hkm : k < m) (hm : m ≤ n)
    (hothers : ∀ j, k < j → j < m → r.who j ≠ r.who k) :
  (r.conf m).thread (r.who k) = some (.dequeue (.delinkStore item p
      ((r.conf k).shared.object p).nextobject)) ∧
    ((r.conf m).shared.object p).nextobject = ((r.conf k).shared.object p).nextobject
  := by
  obtain ⟨hkn, hl⟩ := hk
  induction hkm with
  | refl =>
      obtain ⟨t, ch, s, l', -, hs, hc⟩ := r.act_of_busy hkn hl rfl
      cases hs
      rw [hc, Config.put_thread_self, Config.put_shared]
      exact ⟨rfl, rfl⟩
  | @step m hkm ih =>
      have hmn : m < n := hm
      obtain ⟨hl', hsame⟩ := ih (le_of_lt hmn) fun j hkj hjm => hothers j hkj (Nat.lt_succ_of_lt hjm)
      have hne := hothers m hkm (Nat.lt_succ_self m)
      rw [(r.step m hmn).other (Ne.symm hne)]
      use hl'
      -- meanwhile the object is in the hands of the thread
      obtain ⟨-, -, hknows⟩ := asserts hhead htail (le_of_lt hmn)
      have hown := (hknows (r.who k)).1
      rw [hl'] at hown
      obtain ⟨⟨e, ⟨_, hp, howner, -⟩, -⟩, -⟩ := hown
      cases hp
      rw [object_other hhead htail hmn hne howner, hsame]

variable (r) in
/-- Every run in which head and tail are each changed fewer than 2^32 times keeps the shape. -/
theorem pljQueue_keepsShape :
  KeepsShape r
  := by
  constructor
  case shape =>
    intro k hk
    obtain ⟨hf, hd, -⟩ := asserts hhead htail hk
    exact hf.shape hd
  case apart =>
    rintro item p old k ⟨hk, hl⟩
    obtain ⟨hf, hd, hknows⟩ := asserts hhead htail (le_of_lt hk)
    obtain ⟨hpass, hleft⟩ := hknows (r.who k)
    rw [hl] at hpass hleft
    exact hf.apart hd hpass.1 hleft
  case still =>
    intro item p k m hk hkm hm hothers
    exact (delink_still hhead htail hk hkm hm hothers).2
  case final =>
    rintro item p old k m ⟨hk, hl⟩ hkm ⟨hm, l, next, hl', hcas, hsame⟩
    obtain ⟨-, -, hknows⟩ := asserts hhead htail (le_of_lt hk)
    obtain ⟨hf', -, hknows'⟩ := asserts hhead htail (le_of_lt hm)
    have hown := (hknows (r.who k)).1
    have hknow := (hknows' (r.who m)).1
    rw [hl] at hown
    rw [hl'] at hknow
    obtain ⟨⟨e, ⟨_, hp, -, he, hlt, -⟩, -⟩, -⟩ := hown
    cases hp
    -- a dequeued object is never again as a last one is, which is what a CAS expects
    obtain ⟨⟨rest, hrest⟩, hremoved⟩ := trail_removed (r := r) (le_of_lt hkm)
    have he' : (r.trail (ghost ι V) m).1.nodes[e]? = some p := by
      rw [← hrest, List.getElem?_append_left (List.getElem?_eq_some_iff.mp he).1]
      exact he
    have hgone := hf'.gone e p (lt_of_lt_of_le hlt hremoved) he'
    rcases casNext_eq_some hcas with ⟨item, object, t, rfl, -⟩ | ⟨item, h, t, rfl, -⟩
    · exact hgone (hsame.trans hknow.2.1)
    · exact hgone (hsame.trans hknow.2.2.1)
  case installs =>
    rintro item h next k ⟨hk, hl⟩ hsame
    obtain ⟨hf, hd, hknows⟩ := asserts hhead htail (le_of_lt hk)
    have hknow := (hknows (r.who k)).1
    rw [hl] at hknow
    obtain ⟨-, e, p, hp, he, hlt, hnext⟩ := hknow
    obtain ⟨q, rfl, hq⟩ := hnext hsame
    obtain ⟨rfl, -⟩ := hf.normal_of_head (hsame ▸ hp) he hlt
    refine ⟨p, q, hp, rfl, ?_, ?_⟩
    · rw [Shared.succ, hf.next _ p le_rfl he, follow_ptr]
      exact hq
    · obtain ⟨t, ch, s, l', -, hs, hc⟩ := r.act_of_busy hk hl rfl
      rcases step_inv hs with ⟨_, _, ⟨⟩, -, -⟩ | ⟨_, pc', ⟨⟩, rfl, hpc⟩
      rw [dequeue, if_pos hsame] at hpc
      cases hpc
      rw [hc]
      rfl

end bounded

/-- The queue keeps its shape while thread 0 enqueues 7 and thread 1 dequeues it. -/
theorem pljQueue_keepsShape_exchange :
  KeepsShape (Run.ofScript exchange trivial exchange_plays)
  := pljQueue_keepsShape _ (exchange_changes _) (exchange_changes _)

end PLJQueue
