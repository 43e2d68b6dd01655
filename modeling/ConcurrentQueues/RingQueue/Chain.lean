import ConcurrentQueues.Library.TicketRing
import ConcurrentQueues.RingQueue.Model
import Mathlib.Data.List.Nodup
import Mathlib.Data.List.Infix

/-!
# The chain of rings

The rings ever linked are kept as a ghost, with the position of the head among them, the
owners of the rings that are not linked yet, and the ghosts of the rings. A ring has been
closed before the next one is linked behind it. When the head moves on from a ring, no
item can be put where dequeuers have not been: in `LPRQueue` because the dequeuer has seen
the ring empty a second time, after it was closed.
-/

namespace RingQueue

open Machine

variable {ι ρ ℓ A : Type} {M : Machine ι ρ ℓ (RingOp ℕ) (RingRes ℕ) (RingTag ℕ) Unit}

/-- The history of a queue of rings. -/
structure Trace (ι A : Type) where
  ring : ℕ → A
  chain : List ℕ
  head : ℕ
  owner : ℕ → Option ι

/-- A queue with its history. -/
abbrev State (ι ρ A : Type) := Shared ρ × Trace ι A

/-- The ring `p` with its ghost. -/
def State.at (σ : State ι ρ A) (p : ℕ) : ρ × A := (σ.1.ring p, σ.2.ring p)

/-- No item can come to a ticket that dequeuers have not drawn. -/
def Drained (a : Tickets ι ℕ) : Prop :=
  a.closed = true ∧ ∀ t, a.head ≤ t → a.enq t = .free ∨ a.enq t = .gone

theorem Drained.later {a a' : Tickets ι ℕ} (h : Drained a) (hl : a.Later a') :
  Drained a'
  := by
  obtain ⟨hclosed, henq⟩ := h
  refine ⟨hl.closed hclosed, fun t ht => ?_⟩
  rcases henq t (hl.head.trans ht) with hfree | hgone
  · exact Or.inl (hl.skipped t (Or.inr hclosed) hfree)
  · exact Or.inr (hl.gone t hgone)

/-- A closed ring is drained when its tail is not beyond its head. -/
theorem Drained.of_le {a : Tickets ι ℕ} (h : a.Inv) (hclosed : a.closed = true)
    (hle : a.tail ≤ a.head) :
  Drained a
  := ⟨hclosed, fun t ht => Or.inl (h.enq t (hle.trans ht))⟩

/-- The steps of `enqueue`. -/
inductive EnqueueStep (M : Machine ι ρ ℓ (RingOp ℕ) (RingRes ℕ) (RingTag ℕ) Unit) (i : ι)
    (s : Shared ρ) : Enqueue ℓ → Shared ρ → Enqueue ℓ → Tag → Prop where
  | loadTail (x : ℕ) : EnqueueStep M i s (.loadTail x) s (.loadNext x s.tail) .silent
  | follow {x p : ℕ} : EnqueueStep M i s (.loadNext x p) s (.reloadNext x p) .silent
  | enter {x p : ℕ} :
      EnqueueStep M i s (.loadNext x p) s (.ring x p (M.start (.enqueue x))) .silent
  | reloadNext {x p q : ℕ} : s.next p = some q →
      EnqueueStep M i s (.reloadNext x p) s (.casTail x p q) .silent
  | swing {x p q : ℕ} :
      EnqueueStep M i s (.casTail x p q) { s with tail := q } (.loadTail x) .swingTail
  | late {x p q : ℕ} : EnqueueStep M i s (.casTail x p q) s (.loadTail x) .silent
  | ring {x p : ℕ} {l l' : ℓ} {s' : Shared ρ} {t : Tag} :
      call M i s p l = some (s', l', t) → M.result l' = none →
      EnqueueStep M i s (.ring x p l) s' (.ring x p l') t
  | ok {x p : ℕ} {l l' : ℓ} {s' : Shared ρ} {t : Tag} {v : RingRes ℕ} :
      call M i s p l = some (s', l', t) → M.result l' = some v → v ≠ .closed →
      EnqueueStep M i s (.ring x p l) s' (.done x) t
  | closed {x p : ℕ} {l l' : ℓ} {s' : Shared ρ} {t : Tag} :
      call M i s p l = some (s', l', t) → M.result l' = some .closed →
      EnqueueStep M i s (.ring x p l) { s' with fresh := s'.fresh + 1 }
        (.newRing x p s'.fresh (M.start (.enqueue x))) t
  | newRing {x p q : ℕ} {l l' : ℓ} {s' : Shared ρ} {t : Tag} :
      call M i s q l = some (s', l', t) → M.result l' = none →
      EnqueueStep M i s (.newRing x p q l) s' (.newRing x p q l') t
  | filled {x p q : ℕ} {l l' : ℓ} {s' : Shared ρ} {t : Tag} {v : RingRes ℕ} :
      call M i s q l = some (s', l', t) → M.result l' = some v →
      EnqueueStep M i s (.newRing x p q l) s' (.link x p q) t
  | link {x p q : ℕ} : s.next p = none →
      EnqueueStep M i s (.link x p q) { s with next := Function.update s.next p (some q) }
        (.swingTail x p q) (.link q)
  | discard {x p q : ℕ} : EnqueueStep M i s (.link x p q) s (.loadTail x) (.discard q)
  | swingTail {x p q : ℕ} :
      EnqueueStep M i s (.swingTail x p q) { s with tail := q } (.done x) .swingTail
  | skip {x p q : ℕ} : EnqueueStep M i s (.swingTail x p q) s (.done x) .silent

theorem enqueue_step {i : ι} {s s' : Shared ρ} {pc pc' : Enqueue ℓ} {t : Tag}
    (hs : enqueue M i s pc = some (s', pc', t)) :
  EnqueueStep M i s pc s' pc' t
  := by
  cases pc with
  | loadTail x =>
      cases hs
      exact .loadTail x
  | loadNext x p =>
      rw [enqueue] at hs
      split at hs
      · cases hs
        exact .follow
      · cases hs
        exact .enter
  | reloadNext x p =>
      obtain ⟨q, hq, heq⟩ := Option.map_eq_some_iff.mp hs
      cases heq
      exact .reloadNext hq
  | casTail x p q =>
      rw [enqueue] at hs
      split at hs
      · cases hs
        exact .swing
      · cases hs
        exact .late
  | ring x p l =>
      obtain ⟨⟨s₁, l₁, t₁⟩, hcall, heq⟩ := Option.map_eq_some_iff.mp hs
      cases hv : M.result l₁ with
      | none =>
          simp only [hv] at heq
          cases heq
          exact .ring hcall hv
      | some v =>
          cases v with
          | closed =>
              simp only [hv] at heq
              cases heq
              exact .closed hcall hv
          | ok | value v =>
              simp only [hv] at heq
              cases heq
              exact .ok hcall hv nofun
  | newRing x p q l =>
      obtain ⟨⟨s₁, l₁, t₁⟩, hcall, heq⟩ := Option.map_eq_some_iff.mp hs
      cases hv : M.result l₁ with
      | none =>
          simp only [hv] at heq
          cases heq
          exact .newRing hcall hv
      | some v =>
          simp only [hv] at heq
          cases heq
          exact .filled hcall hv
  | link x p q =>
      rw [enqueue] at hs
      split at hs
      case isTrue hnext =>
        cases hs
        exact .link hnext
      case isFalse =>
        cases hs
        exact .discard
  | swingTail x p q =>
      rw [enqueue] at hs
      split at hs
      · cases hs
        exact .swingTail
      · cases hs
        exact .skip
  | done x => cases hs

/-- The step of a `dequeue` that looks at the ring once more before it moves the head when
`twice`, and not otherwise. A dequeue from a ring ends without an item when it returns
`null`. -/
inductive DequeueStep (M : Machine ι ρ ℓ (RingOp ℕ) (RingRes ℕ) (RingTag ℕ) Unit) (null : ℕ)
    (twice : Bool) (i : ι) (s : Shared ρ) :
    Dequeue ℓ → Shared ρ → Dequeue ℓ → Tag → Prop where
  | loadHead (item : ℕ) :
      DequeueStep M null twice i s (.loadHead item) s (.ring item s.head (M.start .dequeue)) .silent
  | ring {item p : ℕ} {l l' : ℓ} {s' : Shared ρ} {t : Tag} :
      call M i s p l = some (s', l', t) → M.result l' = none →
      DequeueStep M null twice i s (.ring item p l) s' (.ring item p l') t
  | give {item p v : ℕ} {l l' : ℓ} {s' : Shared ρ} {t : Tag} :
      call M i s p l = some (s', l', t) → M.result l' = some (.value v) → v ≠ null →
      DequeueStep M null twice i s (.ring item p l) s' (.done v) t
  | empty {item p : ℕ} {l l' : ℓ} {s' : Shared ρ} {t : Tag} {v : RingRes ℕ} :
      call M i s p l = some (s', l', t) → M.result l' = some v → (∀ x, v = .value x → x = null) →
      DequeueStep M null twice i s (.ring item p l) s' (.loadNext item p) t
  | refuse {item p : ℕ} : s.next p = none →
      DequeueStep M null twice i s (.loadNext item p) s (.refused item) .silent
  | once {item p q : ℕ} : s.next p = some q → twice = false →
      DequeueStep M null twice i s (.loadNext item p) s (.casHead item p q) .silent
  | again {item p q : ℕ} : s.next p = some q → twice = true →
      DequeueStep M null twice i s (.loadNext item p) s (.retry item p q (M.start .dequeue)) .silent
  | retry {item p q : ℕ} {l l' : ℓ} {s' : Shared ρ} {t : Tag} :
      call M i s p l = some (s', l', t) → M.result l' = none →
      DequeueStep M null twice i s (.retry item p q l) s' (.retry item p q l') t
  | retryGive {item p q v : ℕ} {l l' : ℓ} {s' : Shared ρ} {t : Tag} :
      call M i s p l = some (s', l', t) → M.result l' = some (.value v) → v ≠ null →
      DequeueStep M null twice i s (.retry item p q l) s' (.done v) t
  | retryEmpty {item p q : ℕ} {l l' : ℓ} {s' : Shared ρ} {t : Tag} {v : RingRes ℕ} :
      call M i s p l = some (s', l', t) → M.result l' = some v → (∀ x, v = .value x → x = null) →
      DequeueStep M null twice i s (.retry item p q l) s' (.casHead item p q) t
  | shift {item p q : ℕ} : s.head = p →
      DequeueStep M null twice i s (.casHead item p q) { s with head := q } (.loadHead item)
        (.shiftHead p)
  | lose {item p q : ℕ} : s.head ≠ p →
      DequeueStep M null twice i s (.casHead item p q) s (.loadHead item) .silent

section chain

variable (T : M.TicketRing A)

/-- The history after a step. -/
def Trace.next (i : ι) (s : Shared ρ) (a : Trace ι A) (s' : Shared ρ) : Tag → Trace ι A
  | .silent | .swingTail => a
  | .ring p τ =>
      { a with
        ring := Function.update a.ring p (T.next i (s.ring p) (a.ring p) (s'.ring p) τ)
        owner := if s'.fresh = s.fresh then a.owner
          else Function.update a.owner s.fresh (some i) }
  | .link p =>
      { a with chain := a.chain ++ [p], owner := Function.update a.owner p none }
  | .discard p => { a with owner := Function.update a.owner p none }
  | .shiftHead _ => { a with head := a.head + 1 }

/-- The history of a queue, from the ring of the constructor on. -/
def ghost (dequeue : ι → Shared ρ → Dequeue ℓ → Option (Shared ρ × Dequeue ℓ × Tag)) :
    (machine M dequeue).Ghost (Trace ι A) where
  init := ⟨fun _ => T.init, [0], 0, fun _ => none⟩
  bound _ := True
  next i s a _ s' _ t := a.next T i s s' t

/-- The tickets of the ring `p`. -/
def tickets (σ : State ι ρ A) (p : ℕ) : Tickets ι ℕ := T.tickets (σ.2.ring p)

/-- The invariant of a queue with its history. When dequeues look twice, the rings the head has
left are drained. -/
structure Inv (twice : Bool) (σ : State ι ρ A) : Prop where
  ring : ∀ p, T.inv (σ.at p)
  sane : ∀ p, (tickets T σ p).Inv
  nodup : σ.2.chain.Nodup
  next : ∀ k p, σ.2.chain[k]? = some p → σ.1.next p = σ.2.chain[k + 1]?
  head : σ.2.chain[σ.2.head]? = some σ.1.head
  tail : σ.1.tail ∈ σ.2.chain
  closed : ∀ p q, σ.1.next p = some q → (tickets T σ p).closed = true
  below : ∀ p ∈ σ.2.chain, p < σ.1.fresh
  owned : ∀ p i, σ.2.owner p = some i → p ∉ σ.2.chain ∧ p < σ.1.fresh ∧ σ.1.next p = none
  new : ∀ p, σ.1.fresh ≤ p → σ.at p = (M.init, T.init) ∧ σ.1.next p = none
  drained : twice = true → ∀ k < σ.2.head, ∀ p, σ.2.chain[k]? = some p → Drained (tickets T σ p)

/-- The ring `p` has been discarded before it was linked. -/
structure Lost (σ : State ι ρ A) (p : ℕ) : Prop where
  chain : p ∉ σ.2.chain
  owner : σ.2.owner p = none
  below : p < σ.1.fresh

/-- What all threads see of a step: tickets are used up, the chain grows, the head moves on. -/
structure Grows (σ σ' : State ι ρ A) : Prop where
  later : ∀ p, (tickets T σ p).Later (tickets T σ' p)
  chain : σ.2.chain <+: σ'.2.chain
  head : σ.2.head ≤ σ'.2.head
  next : ∀ p q, σ.1.next p = some q → σ'.1.next p = some q
  lost : ∀ p, Lost σ p → Lost σ' p

/-- What thread `j` sees of a step of another thread. -/
structure Sees (j : ι) (σ σ' : State ι ρ A) : Prop extends Grows T σ σ' where
  ring : ∀ p, T.sees j (σ.at p) (σ'.at p)
  own : ∀ p, σ.2.owner p = some j → σ'.2.owner p = some j ∧ σ'.1.ring p = σ.1.ring p

/-- The ring at position `k` is `p`, and `k` is not beyond the head. -/
def Reached (σ : State ι ρ A) (p : ℕ) : Prop := ∃ k ≤ σ.2.head, σ.2.chain[k]? = some p

/-- The same, and the ring at the next position is `q`. -/
def ReachedNext (σ : State ι ρ A) (p q : ℕ) : Prop :=
  ∃ k ≤ σ.2.head, σ.2.chain[k]? = some p ∧ σ.2.chain[k + 1]? = some q

/-- The local state of an enqueue of `x` into a ring. -/
def Enqueuing (x : ℕ) (l : ℓ) : Prop := T.enqueuing l = true ∧ ∀ y, T.item l = some y → y = x

/-- What thread `i` knows at each point of `enqueue`. -/
def Enqueue.Knows (i : ι) (σ : State ι ρ A) : Enqueue ℓ → Prop
  | .loadTail x => M.valid (.enqueue x)
  | .loadNext x p => M.valid (.enqueue x) ∧ p ∈ σ.2.chain
  | .reloadNext x p => M.valid (.enqueue x) ∧ p ∈ σ.2.chain
  | .casTail x _ q => M.valid (.enqueue x) ∧ q ∈ σ.2.chain
  | .ring x p l => M.valid (.enqueue x) ∧ p ∈ σ.2.chain ∧ Enqueuing T x l
  | .newRing x p n l => M.valid (.enqueue x) ∧ p ∈ σ.2.chain ∧
      (tickets T σ p).closed = true ∧ σ.2.owner n = some i ∧ Enqueuing T x l ∧
      T.solo i x (σ.1.ring n) l
  | .link x p n => M.valid (.enqueue x) ∧ p ∈ σ.2.chain ∧
      (tickets T σ p).closed = true ∧ σ.2.owner n = some i
  | .swingTail _ _ n => n ∈ σ.2.chain
  | .done _ => True

/-- What a thread knows at each point of `dequeue`. -/
def Dequeue.Knows (twice : Bool) (σ : State ι ρ A) : Dequeue ℓ → Prop
  | .ring _ p l => T.enqueuing l = false ∧ Reached σ p
  | .loadNext _ p => Reached σ p
  | .retry _ p q l => T.enqueuing l = false ∧ ReachedNext σ p q ∧
      (T.seen l → Drained (tickets T σ p))
  | .casHead _ p q => ReachedNext σ p q ∧ (twice = true → Drained (tickets T σ p))
  | _ => True

/-- The ring a thread is in a call of, with its local state there. -/
def Local.inside : Local ℓ → Option (ℕ × ℓ)
  | .enqueue (.ring _ p l) | .enqueue (.newRing _ _ p l) | .dequeue (.ring _ p l)
  | .dequeue (.retry _ p _ l) => some (p, l)
  | _ => none

/-- The local state in ring `p` of a thread that is inside `x`. -/
def within (x : Option (ℕ × ℓ)) (p : ℕ) : Option ℓ :=
  match x with
  | some (q, l) => if p = q then some l else none
  | none => none

/-- What thread `i` knows of the rings when it is inside `x`. -/
def Inside (i : ι) (σ : State ι ρ A) (x : Option (ℕ × ℓ)) : Prop :=
  ∀ p, T.knows i (σ.at p) (within x p)

/-- What thread `i` knows about its own position. -/
def Knows (twice : Bool) (i : ι) (σ : State ι ρ A) : Option (Local ℓ) → Prop
  | none => Inside T i σ (none : Option (ℕ × ℓ))
  | some (.enqueue pc) => Inside T i σ (Local.enqueue pc).inside ∧ pc.Knows T i σ
  | some (.dequeue pc) => Inside T i σ (Local.dequeue pc).inside ∧ pc.Knows T twice σ

end chain

section steps

variable {T : M.TicketRing A} {twice : Bool} {i j : ι} {σ σ' : State ι ρ A}

/-! ### What a thread knows is stable -/

theorem Grows.mem {p : ℕ} (h : Grows T σ σ') (hp : p ∈ σ.2.chain) :
  p ∈ σ'.2.chain
  := h.chain.subset hp

theorem Grows.getElem? {k p : ℕ} (h : Grows T σ σ') (hp : σ.2.chain[k]? = some p) :
  σ'.2.chain[k]? = some p
  := by
  obtain ⟨u, hu⟩ := h.chain
  rw [← hu, List.getElem?_append_left (List.getElem?_eq_some_iff.mp hp).1, hp]

theorem Reached.grow {p : ℕ} (hp : Reached σ p) (h : Grows T σ σ') :
  Reached σ' p
  := by
  obtain ⟨k, hk, hp⟩ := hp
  exact ⟨k, hk.trans h.head, h.getElem? hp⟩

theorem ReachedNext.grow {p q : ℕ} (hp : ReachedNext σ p q) (h : Grows T σ σ') :
  ReachedNext σ' p q
  := by
  obtain ⟨k, hk, hp, hq⟩ := hp
  exact ⟨k, hk.trans h.head, h.getElem? hp, h.getElem? hq⟩

theorem Grows.refl (T : M.TicketRing A) (σ : State ι ρ A) :
  Grows T σ σ
  := ⟨fun _ => .refl _, List.prefix_rfl, le_rfl, fun _ _ => id, fun _ => id⟩

theorem Grows.trans {σ'' : State ι ρ A} (h : Grows T σ σ') (h' : Grows T σ' σ'') :
  Grows T σ σ''
  := ⟨fun p => (h.later p).trans (h'.later p), h.chain.trans h'.chain, h.head.trans h'.head,
    fun p q hq => h'.next p q (h.next p q hq), fun p hp => h'.lost p (h.lost p hp)⟩

theorem Sees.refl (T : M.TicketRing A) (j : ι) (σ : State ι ρ A) :
  Sees T j σ σ
  := ⟨.refl T σ, fun _ => T.sees_refl j _, fun _ h => ⟨h, rfl⟩⟩

theorem Enqueue.Knows.keep {pc : Enqueue ℓ} (hpc : pc.Knows T j σ) (h : Sees T j σ σ') :
  pc.Knows T j σ'
  := by
  cases pc with
  | loadTail x => exact hpc
  | loadNext x p => exact ⟨hpc.1, h.mem hpc.2⟩
  | reloadNext x p => exact ⟨hpc.1, h.mem hpc.2⟩
  | casTail x p q => exact ⟨hpc.1, h.mem hpc.2⟩
  | ring x p l =>
      obtain ⟨hx, hp, hl⟩ := hpc
      exact ⟨hx, h.mem hp, hl⟩
  | newRing x p n l =>
      obtain ⟨hx, hp, hclosed, hn, hl, hsolo⟩ := hpc
      obtain ⟨hn', hring⟩ := h.own n hn
      rw [← hring] at hsolo
      exact ⟨hx, h.mem hp, (h.later p).closed hclosed, hn', hl, hsolo⟩
  | link x p n =>
      obtain ⟨hx, hp, hclosed, hn⟩ := hpc
      exact ⟨hx, h.mem hp, (h.later p).closed hclosed, (h.own n hn).1⟩
  | swingTail x p n => exact h.mem hpc
  | done x => trivial

theorem Dequeue.Knows.keep {pc : Dequeue ℓ} (hpc : pc.Knows T twice σ) (h : Grows T σ σ') :
  pc.Knows T twice σ'
  := by
  cases pc with
  | loadHead item => trivial
  | ring item p l => exact ⟨hpc.1, hpc.2.grow h⟩
  | loadNext item p => exact Reached.grow hpc h
  | retry item p q l =>
      obtain ⟨hl, hp, hseen⟩ := hpc
      exact ⟨hl, hp.grow h, fun hs => (hseen hs).later (h.later p)⟩
  | casHead item p q =>
      obtain ⟨hp, hdrained⟩ := hpc
      exact ⟨hp.grow h, fun ht => (hdrained ht).later (h.later p)⟩
  | refused item => trivial
  | done item => trivial

theorem Inside.keep {x : Option (ℕ × ℓ)} (hx : Inside T j σ x) (hinv : Inv T twice σ)
    (hinv' : Inv T twice σ') (h : Sees T j σ σ') :
  Inside T j σ' x
  := fun p => T.sound.outline.stable (hinv.ring p) (hinv'.ring p) (h.ring p) (hx p)

theorem Knows.keep {l : Option (Local ℓ)} (hl : Knows T twice j σ l) (hinv : Inv T twice σ)
    (hinv' : Inv T twice σ') (h : Sees T j σ σ') :
  Knows T twice j σ' l
  := by
  cases l with
  | none => exact Inside.keep hl hinv hinv' h
  | some l =>
      cases l with
      | enqueue pc => exact ⟨hl.1.keep hinv hinv' h, hl.2.keep h⟩
      | dequeue pc => exact ⟨hl.1.keep hinv hinv' h, hl.2.keep h.toGrows⟩

/-! ### The changes to the state -/

/-- What a step makes of the state, for the thread itself and for the others. -/
structure Change (T : M.TicketRing A) (twice : Bool) (i : ι) (σ σ' : State ι ρ A) : Prop where
  inv : Inv T twice σ'
  grows : Grows T σ σ'
  sees : ∀ j, j ≠ i → Sees T j σ σ'

theorem Change.stay (h : Inv T twice σ) :
  Change T twice i σ σ
  := ⟨h, .refl T σ, fun j _ => .refl T j σ⟩

/-- The tail moves to another ring of the chain. -/
theorem Change.swingTail {q : ℕ} (h : Inv T twice σ) (hq : q ∈ σ.2.chain) :
  Change T twice i σ ({ σ.1 with tail := q }, σ.2)
  := by
  refine ⟨⟨h.ring, h.sane, h.nodup, h.next, h.head, hq, h.closed, h.below, h.owned, h.new,
    h.drained⟩, ?_, fun j _ => ?_⟩
  · exact ⟨fun _ => .refl _, List.prefix_rfl, le_rfl, fun _ _ => id, fun _ h => ⟨h.1, h.2, h.3⟩⟩
  · exact ⟨⟨fun _ => .refl _, List.prefix_rfl, le_rfl, fun _ _ => id, fun _ h => ⟨h.1, h.2, h.3⟩⟩,
      fun _ => T.sees_refl j _, fun _ hp => ⟨hp, rfl⟩⟩

/-- A ring has one position. -/
theorem Inv.position {k m p : ℕ} (h : Inv T twice σ) (hk : σ.2.chain[k]? = some p)
    (hm : σ.2.chain[m]? = some p) :
  k = m
  := by
  obtain ⟨hlt, -⟩ := List.getElem?_eq_some_iff.mp hk
  apply (List.getElem?_inj hlt h.nodup).mp
  rw [hk, hm]

/-- The head moves to the next ring. -/
theorem Change.shiftHead {p q : ℕ} (h : Inv T twice σ) (hp : σ.1.head = p)
    (hq : ReachedNext σ p q) (hdrained : twice = true → Drained (tickets T σ p)) :
  Change T twice i σ ({ σ.1 with head := q }, { σ.2 with head := σ.2.head + 1 })
  := by
  obtain ⟨k, -, hk, hkq⟩ := hq
  have hhead := h.head
  rw [hp] at hhead
  obtain rfl := h.position hk hhead
  refine ⟨⟨h.ring, h.sane, h.nodup, h.next, hkq, h.tail, h.closed, h.below, h.owned, h.new, ?_⟩,
    ?_, fun j _ => ?_⟩
  · intro htwo m hm x hx
    rcases Nat.lt_succ_iff_lt_or_eq.mp hm with hlt | rfl
    · exact h.drained htwo m hlt x hx
    · obtain rfl := Option.some.inj (hx.symm.trans hk)
      exact hdrained htwo
  · exact ⟨fun _ => .refl _, List.prefix_rfl, Nat.le_succ _, fun _ _ => id,
      fun _ h => ⟨h.1, h.2, h.3⟩⟩
  · exact ⟨⟨fun _ => .refl _, List.prefix_rfl, Nat.le_succ _, fun _ _ => id,
      fun _ h => ⟨h.1, h.2, h.3⟩⟩, fun _ => T.sees_refl j _, fun _ hp => ⟨hp, rfl⟩⟩

/-- The queue after thread `i` has got a new ring. -/
def State.alloc (σ : State ι ρ A) (i : ι) : State ι ρ A :=
  ({ σ.1 with fresh := σ.1.fresh + 1 },
    { σ.2 with owner := Function.update σ.2.owner σ.1.fresh (some i) })

/-- A new ring for thread `i`. -/
theorem Inv.alloc (h : Inv T twice σ) (i : ι) :
  Inv T twice (σ.alloc i)
  := by
  refine ⟨h.ring, h.sane, h.nodup, h.next, h.head, h.tail, h.closed, ?_, ?_, ?_, h.drained⟩
  · exact fun p hp => Nat.lt_succ_of_lt (h.below p hp)
  · intro p j hp
    by_cases hpf : p = σ.1.fresh
    · subst hpf
      exact ⟨fun hmem => lt_irrefl _ (h.below _ hmem), Nat.lt_succ_self _, (h.new _ le_rfl).2⟩
    · have hold : σ.2.owner p = some j := (Function.update_of_ne hpf ..).symm.trans hp
      obtain ⟨hmem, hlt, hnone⟩ := h.owned p j hold
      exact ⟨hmem, Nat.lt_succ_of_lt hlt, hnone⟩
  · exact fun p hp => h.new p (Nat.le_of_succ_le hp)

theorem Change.alloc (h : Change T twice i σ σ') :
  Change T twice i σ (σ'.alloc i)
  := by
  have hlost : ∀ p, Lost σ p → Lost (σ'.alloc i) p := by
    intro p hp
    obtain ⟨hchain, howner, hlt⟩ := h.grows.lost p hp
    exact ⟨hchain, (Function.update_of_ne (ne_of_lt hlt) ..).trans howner, Nat.lt_succ_of_lt hlt⟩
  have hgrows : Grows T σ (σ'.alloc i) :=
    ⟨h.grows.later, h.grows.chain, h.grows.head, h.grows.next, hlost⟩
  refine ⟨h.inv.alloc i, hgrows, fun j hj => ⟨hgrows, (h.sees j hj).ring, fun p hp => ?_⟩⟩
  obtain ⟨hp', hring⟩ := (h.sees j hj).own p hp
  have hne : p ≠ σ'.1.fresh := ne_of_lt (h.inv.owned p j hp').2.1
  exact ⟨(Function.update_of_ne hne ..).trans hp', hring⟩

/-- A ring that has not been linked is discarded. -/
theorem Change.discard {n : ℕ} (h : Inv T twice σ) (hn : σ.2.owner n = some i) :
  Change T twice i σ (σ.1, { σ.2 with owner := Function.update σ.2.owner n none })
  := by
  have hlost : ∀ p, Lost σ p →
      Lost (σ.1, { σ.2 with owner := Function.update σ.2.owner n none }) p := by
    intro p hp
    have hpn : p ≠ n := by
      rintro rfl
      cases hp.owner.symm.trans hn
    exact ⟨hp.chain, (Function.update_of_ne hpn ..).trans hp.owner, hp.below⟩
  have hgrows : Grows T σ (σ.1, { σ.2 with owner := Function.update σ.2.owner n none }) :=
    ⟨fun _ => .refl _, List.prefix_rfl, le_rfl, fun _ _ => id, hlost⟩
  refine ⟨⟨h.ring, h.sane, h.nodup, h.next, h.head, h.tail, h.closed, h.below, ?_, h.new,
    h.drained⟩, hgrows, fun j hj => ⟨hgrows, fun _ => T.sees_refl j _, fun p hp => ⟨?_, rfl⟩⟩⟩
  · exact fun p j hp => h.owned p j (Tickets.update_inv hp nofun)
  · have hpn : p ≠ n := by
      rintro rfl
      exact hj (Option.some.inj (hp.symm.trans hn))
    exact (Function.update_of_ne hpn ..).trans hp

/-- A ring is linked behind the last one. -/
theorem Change.link {p n : ℕ} (h : Inv T twice σ) (hp : p ∈ σ.2.chain)
    (hclosed : (tickets T σ p).closed = true) (hn : σ.2.owner n = some i)
    (hnext : σ.1.next p = none) :
  Change T twice i σ ({ σ.1 with next := Function.update σ.1.next p (some n) },
    { σ.2 with chain := σ.2.chain ++ [n], owner := Function.update σ.2.owner n none })
  := by
  obtain ⟨hmem, hlt, hnone⟩ := h.owned n i hn
  have hnp : n ≠ p := fun heq => hmem (heq ▸ hp)
  obtain ⟨k, hk⟩ := List.mem_iff_getElem?.mp hp
  have hlen : k < σ.2.chain.length := (List.getElem?_eq_some_iff.mp hk).1
  -- `p` has no successor, so it is the last ring
  have hlast : k + 1 = σ.2.chain.length := by
    have hsucc := (h.next k p hk).symm.trans hnext
    exact le_antisymm hlen (List.getElem?_eq_none_iff.mp hsucc)
  have hkeep : ∀ {m x : ℕ}, σ.2.chain[m]? = some x → (σ.2.chain ++ [n])[m]? = some x := by
    intro m x hx
    rw [List.getElem?_append_left (List.getElem?_eq_some_iff.mp hx).1, hx]
  have hkeep' : ∀ {x q : ℕ}, σ.1.next x = some q →
      Function.update σ.1.next p (some n) x = some q := by
    intro x q hx
    have hne : x ≠ p := by
      rintro rfl
      cases hnext.symm.trans hx
    exact (Function.update_of_ne hne ..).trans hx
  have hlost : ∀ x, Lost σ x →
      Lost ({ σ.1 with next := Function.update σ.1.next p (some n) },
        { σ.2 with chain := σ.2.chain ++ [n], owner := Function.update σ.2.owner n none }) x := by
    intro x hx
    have hxn : x ≠ n := by
      rintro rfl
      cases hx.owner.symm.trans hn
    refine ⟨?_, (Function.update_of_ne hxn ..).trans hx.owner, hx.below⟩
    rw [List.mem_append, List.mem_singleton]
    exact fun hor => hor.elim hx.chain hxn
  have hgrows : Grows T σ ({ σ.1 with next := Function.update σ.1.next p (some n) },
      { σ.2 with chain := σ.2.chain ++ [n], owner := Function.update σ.2.owner n none }) :=
    ⟨fun _ => .refl _, List.prefix_append _ _, le_rfl, fun _ _ => hkeep', hlost⟩
  refine ⟨?_, hgrows, fun j hj => ⟨hgrows, fun _ => T.sees_refl j _, fun x hx => ⟨?_, rfl⟩⟩⟩
  · constructor
    case ring => exact h.ring
    case sane => exact h.sane
    case nodup =>
      apply List.Nodup.append h.nodup (List.nodup_singleton n)
      intro x hx hx'
      rw [List.mem_singleton] at hx'
      exact hmem (hx' ▸ hx)
    case next =>
      intro m x hx
      rcases lt_trichotomy m (k + 1) with hm | rfl | hm
      · have hx' : σ.2.chain[m]? = some x := by
          rw [List.getElem?_append_left (by omega)] at hx
          exact hx
        rcases Nat.lt_succ_iff_lt_or_eq.mp hm with hm | rfl
        · have hne : x ≠ p := by
            rintro rfl
            exact absurd (h.position hx' hk) (ne_of_lt hm)
          rw [List.getElem?_append_left (show m + 1 < _ by omega)]
          exact (Function.update_of_ne hne ..).trans (h.next m x hx')
        · obtain rfl := Option.some.inj (hx'.symm.trans hk)
          apply (Function.update_self ..).trans
          simp [hlast]
      · have hxn : x = n := by
          rw [hlast] at hx
          simpa using hx.symm
        subst hxn
        apply (Function.update_of_ne hnp ..).trans
        rw [hnone]
        symm
        apply List.getElem?_eq_none
        simp [hlast]
      · have hlt' := (List.getElem?_eq_some_iff.mp hx).1
        simp only [List.length_append, List.length_cons, List.length_nil] at hlt'
        omega
    case head => exact hkeep h.head
    case tail => exact List.mem_append_left _ h.tail
    case closed =>
      intro x q hx
      by_cases hxp : x = p
      · subst hxp
        exact hclosed
      · exact h.closed x q ((Function.update_of_ne hxp ..).symm.trans hx)
    case below =>
      intro x hx
      rcases List.mem_append.mp hx with hx | hx
      · exact h.below x hx
      · rw [List.mem_singleton.mp hx]
        exact hlt
    case owned =>
      intro x j hx
      have hxn : x ≠ n := by
        rintro rfl
        cases (Function.update_self ..).symm.trans hx
      obtain ⟨hxmem, hxlt, hxnone⟩ := h.owned x j ((Function.update_of_ne hxn ..).symm.trans hx)
      have hxp : x ≠ p := fun heq => hxmem (heq ▸ hp)
      refine ⟨?_, hxlt, (Function.update_of_ne hxp ..).trans hxnone⟩
      rw [List.mem_append, List.mem_singleton]
      exact fun hor => hor.elim hxmem hxn
    case new =>
      intro x hx
      have hxp : x ≠ p := ne_of_gt (lt_of_lt_of_le (h.below p hp) hx)
      obtain ⟨hat, hxnone⟩ := h.new x hx
      exact ⟨hat, (Function.update_of_ne hxp ..).trans hxnone⟩
    case drained =>
      intro htwo m hm x hx
      apply h.drained htwo m hm x
      have hm' : m < σ.2.chain.length :=
        lt_of_lt_of_le hm (le_of_lt (List.getElem?_eq_some_iff.mp h.head).1)
      rw [← hx]
      exact (List.getElem?_append_left hm').symm
  · have hxn : x ≠ n := by
      rintro rfl
      exact hj (Option.some.inj (hx.symm.trans hn))
    exact (Function.update_of_ne hxn ..).trans hx

/-! ### Calls of a ring -/

/-- The queue after an access of thread `i` to ring `p` which makes it `x`. -/
def State.touch (T : M.TicketRing A) (i : ι) (σ : State ι ρ A) (p : ℕ) (x : ρ)
    (τ : RingTag ℕ) : State ι ρ A :=
  (σ.1.setRing p x, { σ.2 with
    ring := Function.update σ.2.ring p (T.next i (σ.1.ring p) (σ.2.ring p) x τ) })

theorem touch_at_self (T : M.TicketRing A) (i : ι) (σ : State ι ρ A) (p : ℕ) (x : ρ)
    (τ : RingTag ℕ) :
  (σ.touch T i p x τ).at p = (x, T.next i (σ.1.ring p) (σ.2.ring p) x τ)
  := Prod.ext (Function.update_self ..) (Function.update_self ..)

theorem touch_at_of_ne {p q : ℕ} (h : q ≠ p) (T : M.TicketRing A) (i : ι) (σ : State ι ρ A)
    (x : ρ) (τ : RingTag ℕ) :
  (σ.touch T i p x τ).at q = σ.at q
  := Prod.ext (Function.update_of_ne h ..) (Function.update_of_ne h ..)

theorem tickets_eq {p : ℕ} (h : σ'.at p = σ.at p) :
  tickets T σ' p = tickets T σ p
  := congrArg (fun y : ρ × A => T.tickets y.2) h

/-- What an access to ring `p` does, when the thread is at `l` in a call of the ring. -/
structure Touch (T : M.TicketRing A) (i : ι) (σ : State ι ρ A) (p : ℕ) (l : ℓ) (x : ρ) (l' : ℓ)
    (τ : RingTag ℕ) : Prop where
  step : M.step i () (σ.1.ring p) l = some (x, l', τ)
  inv : T.inv ((σ.touch T i p x τ).at p)
  knows : T.knows i ((σ.touch T i p x τ).at p) (some l')
  sees : ∀ j, j ≠ i → T.sees j (σ.at p) ((σ.touch T i p x τ).at p)
  ok : (tickets T σ p).Ok i τ
  apply : tickets T (σ.touch T i p x τ) p = (tickets T σ p).apply i τ

variable {p : ℕ} {l l' : ℓ} {x : ρ} {τ : RingTag ℕ}

theorem Touch.of_step (h : Inv T twice σ) (hl : T.knows i (σ.at p) (some l))
    (hlegal : M.legal (σ.1.ring p)) (hlegal' : M.legal x)
    (hs : M.step i () (σ.1.ring p) l = some (x, l', τ)) :
  Touch T i σ p l x l' τ
  := by
  have hstep : (M.withGhost T.ghost).step i () (σ.at p) l
      = some ((x, T.next i (σ.1.ring p) (σ.2.ring p) x τ), l', τ) :=
    withGhost_step.mpr ⟨hs, rfl⟩
  obtain ⟨hinv, hknows, hsees⟩ := T.sound.outline.step (h.ring p) hl ⟨hlegal, trivial⟩
    ⟨hlegal', trivial⟩ hstep
  obtain ⟨hok, -, happly⟩ := T.sound.step (h.ring p) hl hlegal hs
  have hself := touch_at_self T i σ p x τ
  constructor
  case step => exact hs
  case inv =>
    rw [hself]
    exact hinv
  case knows =>
    rw [hself]
    exact hknows
  case sees =>
    rw [hself]
    exact hsees
  case ok => exact hok
  case apply => exact (congrArg (fun y => T.tickets y.2) hself).trans happly

theorem Touch.later (ht : Touch T i σ p l x l' τ) (h : Inv T twice σ) (q : ℕ) :
  (tickets T σ q).Later (tickets T (σ.touch T i p x τ) q)
  := by
  by_cases hqp : q = p
  · subst hqp
    rw [ht.apply]
    exact ht.ok.later (h.sane q)
  · rw [tickets_eq (touch_at_of_ne hqp T i σ x τ)]
    apply Tickets.Later.refl

/-- An access to a ring of the chain, or to one of the thread's own. -/
theorem Touch.change (ht : Touch T i σ p l x l' τ) (h : Inv T twice σ)
    (hp : p ∈ σ.2.chain ∨ σ.2.owner p = some i) :
  Change T twice i σ (σ.touch T i p x τ)
  := by
  have hother : ∀ {q}, q ≠ p → (σ.touch T i p x τ).at q = σ.at q :=
    fun hq => touch_at_of_ne hq T i σ x τ
  have hlt : p < σ.1.fresh := by
    rcases hp with hp | hp
    · exact h.below p hp
    · exact (h.owned p i hp).2.1
  have hgrows : Grows T σ (σ.touch T i p x τ) :=
    ⟨ht.later h, List.prefix_rfl, le_rfl, fun _ _ => id, fun _ h => ⟨h.1, h.2, h.3⟩⟩
  refine ⟨?_, hgrows, fun j hj => ⟨hgrows, fun q => ?_, fun q hq => ⟨hq, ?_⟩⟩⟩
  · constructor
    case ring =>
      intro q
      by_cases hqp : q = p
      · subst hqp
        exact ht.inv
      · rw [hother hqp]
        exact h.ring q
    case sane =>
      intro q
      by_cases hqp : q = p
      · subst hqp
        rw [ht.apply]
        exact ht.ok.inv (h.sane q)
      · rw [tickets_eq (hother hqp)]
        exact h.sane q
    case nodup => exact h.nodup
    case next => exact h.next
    case head => exact h.head
    case tail => exact h.tail
    case closed => exact fun q y hq => (ht.later h q).closed (h.closed q y hq)
    case below => exact h.below
    case owned => exact h.owned
    case new =>
      intro q hq
      obtain ⟨hat, hnone⟩ := h.new q hq
      exact ⟨(hother (ne_of_gt (lt_of_lt_of_le hlt hq))).trans hat, hnone⟩
    case drained => exact fun hs k hk q hq => (h.drained hs k hk q hq).later (ht.later h q)
  · by_cases hqp : q = p
    · subst hqp
      exact ht.sees j hj
    · rw [hother hqp]
      exact T.sees_refl j _
  · have hqp : q ≠ p := by
      rintro rfl
      rcases hp with hp | hp
      · exact (h.owned q j hq).1 hp
      · exact hj (Option.some.inj (hq.symm.trans hp))
    exact Function.update_of_ne hqp ..

/-- Inside a call of ring `p` only that ring is accessed. -/
theorem Touch.inside (ht : Touch T i σ p l x l' τ) (hl : Inside T i σ (some (p, l))) :
  Inside T i (σ.touch T i p x τ) (some (p, l'))
  := by
  intro q
  by_cases hqp : q = p
  · subst hqp
    rw [within, if_pos rfl]
    exact ht.knows
  · have hq := hl q
    rw [within, if_neg hqp] at hq ⊢
    rw [touch_at_of_ne hqp T i σ x τ]
    exact hq

theorem within_self (p : ℕ) (l : ℓ) :
  within (some (p, l)) p = some l
  := if_pos rfl

theorem Inside.self (hl : Inside T i σ (some (p, l))) :
  T.knows i (σ.at p) (some l)
  := by
  have hat := hl p
  rwa [within_self] at hat

/-- Leaving a call of a ring. -/
theorem Inside.leave {v : RingRes ℕ} (hl : Inside T i σ (some (p, l))) (h : Inv T twice σ)
    (hv : M.result l = some v) :
  Inside T i σ none
  := by
  intro q
  by_cases hqp : q = p
  · subst hqp
    exact T.sound.outline.ret (h.ring q) hl.self hv
  · have hq := hl q
    rw [within, if_neg hqp] at hq
    exact hq

/-- Calling a ring. -/
theorem Inside.enter {o : RingOp ℕ} (hl : Inside T i σ (none : Option (ℕ × ℓ))) (h : Inv T twice σ)
    (hvalid : M.valid o) (p : ℕ) :
  Inside T i σ (some (p, M.start o))
  := by
  intro q
  rw [within]
  split
  · exact T.sound.outline.call (h.ring q) (hl q) hvalid
  · exact hl q

/-! ### The proof outline -/

theorem call_eq_some {s s' : Shared ρ} {t : Tag} :
  call M i s p l = some (s', l', t) ↔
    ∃ x τ, M.step i () (s.ring p) l = some (x, l', τ) ∧ s' = s.setRing p x ∧ t = .ring p τ
  := by
  rw [call, Option.map_eq_some_iff]
  constructor
  · rintro ⟨⟨x, _, τ⟩, hs, heq⟩
    cases heq
    exact ⟨x, τ, hs, rfl, rfl⟩
  · rintro ⟨x, τ, hs, rfl, rfl⟩
    exact ⟨(x, l', τ), hs, rfl⟩

theorem next_ring (T : M.TicketRing A) (i : ι) (σ : State ι ρ A) (p : ℕ) (x : ρ)
    (τ : RingTag ℕ) :
  (σ.1.setRing p x, σ.2.next T i σ.1 (σ.1.setRing p x) (.ring p τ)) = σ.touch T i p x τ
  := by
  have hx : (σ.1.setRing p x).ring p = x := Function.update_self ..
  rw [State.touch, Trace.next, hx, if_pos (show (σ.1.setRing p x).fresh = σ.1.fresh from rfl)]

/-- An access of a call of a ring of the chain, or of one of the thread's own. -/
theorem Inside.called {s' : Shared ρ} {t : Tag} (hl : Inside T i σ (some (p, l)))
    (h : Inv T twice σ) (hp : p ∈ σ.2.chain ∨ σ.2.owner p = some i)
    (hlegal : ∀ q < σ.1.fresh, M.legal (σ.1.ring q))
    (hlegal' : ∀ q < s'.fresh, M.legal (s'.ring q))
    (hcall : call M i σ.1 p l = some (s', l', t)) :
  ∃ x τ, s' = σ.1.setRing p x ∧ t = .ring p τ ∧ Touch T i σ p l x l' τ ∧
    Change T twice i σ (σ.touch T i p x τ) ∧ Inside T i (σ.touch T i p x τ) (some (p, l'))
  := by
  obtain ⟨x, τ, hstep, rfl, rfl⟩ := call_eq_some.mp hcall
  have hlt : p < σ.1.fresh := by
    rcases hp with hp | hp
    · exact h.below p hp
    · exact (h.owned p i hp).2.1
  have hlegal₁ := hlegal' p hlt
  rw [show (σ.1.setRing p x).ring p = x from Function.update_self ..] at hlegal₁
  have ht : Touch T i σ p l x l' τ := .of_step h hl.self (hlegal p hlt) hlegal₁ hstep
  exact ⟨x, τ, rfl, rfl, ht, ht.change h hp, ht.inside hl⟩

theorem next_ring_alloc (T : M.TicketRing A) (i : ι) (σ : State ι ρ A) (p : ℕ) (x : ρ)
    (τ : RingTag ℕ) {s' : Shared ρ}
    (hs' : s' = { σ.1.setRing p x with fresh := (σ.1.setRing p x).fresh + 1 }) :
  (s', σ.2.next T i σ.1 s' (.ring p τ)) = (σ.touch T i p x τ).alloc i
  := by
  subst hs'
  have hx : (σ.1.setRing p x).ring p = x := Function.update_self ..
  have hne : (σ.1.setRing p x).fresh + 1 ≠ σ.1.fresh := Nat.succ_ne_self _
  rw [Trace.next, hx, if_neg hne]
  rfl

theorem Inv.next_mem {p q : ℕ} (h : Inv T twice σ) (hp : p ∈ σ.2.chain)
    (hq : σ.1.next p = some q) :
  q ∈ σ.2.chain
  := by
  obtain ⟨k, hk⟩ := List.mem_iff_getElem?.mp hp
  exact List.mem_of_getElem? ((h.next k p hk).symm.trans hq)

theorem Enqueuing.step {s s' : ρ} {y : ℕ} (h : Enqueuing T y l)
    (hs : M.step i () s l = some (s', l', τ)) :
  Enqueuing T y l'
  := ⟨(T.enqueuing_step hs).trans h.1, fun z hz => h.2 z (T.item_step hs hz)⟩

theorem Enqueuing.start (T : M.TicketRing A) (y : ℕ) :
  Enqueuing T y (M.start (.enqueue y))
  := ⟨T.enqueuing_enqueue y, fun _ hz => T.item_enqueue hz⟩

/-- A step of `enqueue` keeps to the outline. -/
theorem enqueue_spec {pc pc' : Enqueue ℓ} {s' : Shared ρ} {t : Tag} (h : Inv T twice σ)
    (hpc : Knows T twice i σ (some (.enqueue pc))) (hlegal : ∀ p < σ.1.fresh, M.legal (σ.1.ring p))
    (hlegal' : ∀ p < s'.fresh, M.legal (s'.ring p)) (hs : EnqueueStep M i σ.1 pc s' pc' t) :
  Change T twice i σ (s', σ.2.next T i σ.1 s' t) ∧
    Knows T twice i (s', σ.2.next T i σ.1 s' t) (some (.enqueue pc'))
  := by
  obtain ⟨hin, hknows⟩ := hpc
  cases hs with
  | loadTail x => exact ⟨.stay h, hin, hknows, h.tail⟩
  | follow => exact ⟨.stay h, hin, hknows⟩
  | @enter x p =>
      obtain ⟨hx, hp⟩ := hknows
      exact ⟨.stay h, hin.enter h hx p, hx, hp, .start T x⟩
  | reloadNext hq =>
      obtain ⟨hx, hp⟩ := hknows
      exact ⟨.stay h, hin, hx, h.next_mem hp hq⟩
  | swing =>
      obtain ⟨hx, hq⟩ := hknows
      exact ⟨.swingTail h hq, hin, hx⟩
  | late =>
      obtain ⟨hx, hq⟩ := hknows
      exact ⟨.stay h, hin, hx⟩
  | ring hcall hv =>
      obtain ⟨hx, hp, hl⟩ := hknows
      obtain ⟨y, τ, rfl, rfl, ht, hchange, hin'⟩ := hin.called h (Or.inl hp) hlegal hlegal' hcall
      rw [next_ring]
      exact ⟨hchange, hin', hx, hp, hl.step ht.step⟩
  | ok hcall hv =>
      obtain ⟨hx, hp, hl⟩ := hknows
      obtain ⟨y, τ, rfl, rfl, ht, hchange, hin'⟩ := hin.called h (Or.inl hp) hlegal hlegal' hcall
      rw [next_ring]
      exact ⟨hchange, hin'.leave hchange.inv hv, trivial⟩
  | @closed x p l l' s₁ t hcall hv =>
      obtain ⟨hx, hp, hl⟩ := hknows
      have hlegal₁ : ∀ q < s₁.fresh, M.legal (s₁.ring q) :=
        fun q hq => hlegal' q (Nat.lt_succ_of_lt hq)
      obtain ⟨y, τ, rfl, rfl, ht, hchange, hin'⟩ := hin.called h (Or.inl hp) hlegal hlegal₁ hcall
      have halloc := hchange.alloc
      have hout : Inside T i ((σ.touch T i p y τ).alloc i) (none : Option (ℕ × ℓ)) :=
        hin'.leave hchange.inv hv
      have hclosed : (tickets T (σ.touch T i p y τ) p).closed = true := T.closed ht.knows hv
      -- the new ring is as the constructor left it
      have hnew : (σ.touch T i p y τ).1.ring σ.1.fresh = M.init :=
        congrArg Prod.fst (hchange.inv.new _ le_rfl).1
      have hsolo := T.solo_start (i := i) hx
      rw [← hnew] at hsolo
      rw [next_ring_alloc T i σ p y τ rfl]
      exact ⟨halloc, hout.enter halloc.inv hx _, hx, hp, hclosed, Function.update_self ..,
        .start T x, hsolo⟩
  | @newRing x p n l l' s₁ t hcall hv =>
      obtain ⟨hx, hp, hclosed, hn, hl, hsolo⟩ := hknows
      obtain ⟨y, τ, rfl, rfl, ht, hchange, hin'⟩ := hin.called h (Or.inr hn) hlegal hlegal' hcall
      have hsolo' := T.solo_step hsolo ht.step
      rw [← show (σ.1.setRing n y).ring n = y from Function.update_self ..] at hsolo'
      rw [next_ring]
      exact ⟨hchange, hin', hx, hp, (ht.later h p).closed hclosed, hn, hl.step ht.step, hsolo'⟩
  | filled hcall hv =>
      obtain ⟨hx, hp, hclosed, hn, hl, hsolo⟩ := hknows
      obtain ⟨y, τ, rfl, rfl, ht, hchange, hin'⟩ := hin.called h (Or.inr hn) hlegal hlegal' hcall
      rw [next_ring]
      exact ⟨hchange, hin'.leave hchange.inv hv, hx, hp, (ht.later h _).closed hclosed, hn⟩
  | link hnext =>
      obtain ⟨hx, hp, hclosed, hn⟩ := hknows
      exact ⟨.link h hp hclosed hn hnext, hin, List.mem_append_right _ (List.mem_singleton_self _)⟩
  | discard =>
      obtain ⟨hx, -, -, hn⟩ := hknows
      exact ⟨.discard h hn, hin, hx⟩
  | swingTail => exact ⟨.swingTail h hknows, hin, trivial⟩
  | skip => exact ⟨.stay h, hin, trivial⟩

theorem Reached.mem (hp : Reached σ p) :
  p ∈ σ.2.chain
  := by
  obtain ⟨k, -, hk⟩ := hp
  exact List.mem_of_getElem? hk

theorem ReachedNext.reached {q : ℕ} (hp : ReachedNext σ p q) :
  Reached σ p
  := by
  obtain ⟨k, hle, hk, -⟩ := hp
  exact ⟨k, hle, hk⟩

theorem ReachedNext.closed {q : ℕ} (hp : ReachedNext σ p q) (h : Inv T twice σ) :
  (tickets T σ p).closed = true
  := by
  obtain ⟨k, -, hk, hq⟩ := hp
  exact h.closed p q ((h.next k p hk).trans hq)

/-- A thread that has seen a closed ring empty knows that the ring is drained. -/
theorem Touch.drained (ht : Touch T i σ p l x l' τ) (h : Inv T twice σ)
    (hclosed : (tickets T σ p).closed = true) (hseen : T.seen l → Drained (tickets T σ p))
    (hl' : T.seen l') :
  Drained (tickets T (σ.touch T i p x τ) p)
  := by
  have hlater := ht.later h p
  rcases T.seen_step ht.step hl' with hl | ⟨u, rfl⟩
  · exact (hseen hl).later hlater
  · obtain ⟨hmissed, htail⟩ := ht.ok
    have hsane := h.sane p
    have hhead : u < (tickets T σ p).head := by
      by_contra hge
      cases hmissed.symm.trans (hsane.deq u (not_lt.mp hge))
    exact (Drained.of_le hsane hclosed (htail.trans hhead)).later hlater

/-- A step of `dequeue` keeps to the outline. -/
theorem dequeue_spec {pc pc' : Dequeue ℓ} {s' : Shared ρ} {t : Tag} (h : Inv T twice σ)
    (hpc : Knows T twice i σ (some (.dequeue pc))) (hlegal : ∀ p < σ.1.fresh, M.legal (σ.1.ring p))
    (hlegal' : ∀ p < s'.fresh, M.legal (s'.ring p))
    (hs : DequeueStep M T.null twice i σ.1 pc s' pc' t) :
  Change T twice i σ (s', σ.2.next T i σ.1 s' t) ∧
    Knows T twice i (s', σ.2.next T i σ.1 s' t) (some (.dequeue pc'))
  := by
  obtain ⟨hin, hknows⟩ := hpc
  cases hs with
  | loadHead item =>
      exact ⟨.stay h, hin.enter h T.dequeue_valid _, T.enqueuing_dequeue, _, le_rfl, h.head⟩
  | ring hcall hv =>
      obtain ⟨hdeq, hp⟩ := hknows
      obtain ⟨x, τ, rfl, rfl, ht, hchange, hin'⟩ :=
        hin.called h (Or.inl hp.mem) hlegal hlegal' hcall
      rw [next_ring]
      exact ⟨hchange, hin', (T.enqueuing_step ht.step).trans hdeq, hp.grow hchange.grows⟩
  | give hcall hv hne =>
      obtain ⟨hdeq, hp⟩ := hknows
      obtain ⟨x, τ, rfl, rfl, -, hchange, hin'⟩ :=
        hin.called h (Or.inl hp.mem) hlegal hlegal' hcall
      rw [next_ring]
      exact ⟨hchange, hin'.leave hchange.inv hv, trivial⟩
  | empty hcall hv hnull =>
      obtain ⟨hdeq, hp⟩ := hknows
      obtain ⟨x, τ, rfl, rfl, -, hchange, hin'⟩ :=
        hin.called h (Or.inl hp.mem) hlegal hlegal' hcall
      rw [next_ring]
      exact ⟨hchange, hin'.leave hchange.inv hv, hp.grow hchange.grows⟩
  | refuse hnext => exact ⟨.stay h, hin, trivial⟩
  | once hnext hone =>
      obtain ⟨k, hle, hk⟩ := hknows
      refine ⟨.stay h, hin, ⟨k, hle, hk, (h.next k _ hk).symm.trans hnext⟩, fun htwo => ?_⟩
      cases hone.symm.trans htwo
  | again hnext htwo =>
      obtain ⟨k, hle, hk⟩ := hknows
      exact ⟨.stay h, hin.enter h T.dequeue_valid _, T.enqueuing_dequeue,
        ⟨k, hle, hk, (h.next k _ hk).symm.trans hnext⟩, fun hseen => absurd hseen (T.seen_start _)⟩
  | retry hcall hv =>
      obtain ⟨hdeq, hp, hseen⟩ := hknows
      obtain ⟨x, τ, rfl, rfl, ht, hchange, hin'⟩ :=
        hin.called h (Or.inl hp.reached.mem) hlegal hlegal' hcall
      rw [next_ring]
      exact ⟨hchange, hin', (T.enqueuing_step ht.step).trans hdeq, hp.grow hchange.grows,
        ht.drained h (hp.closed h) hseen⟩
  | retryGive hcall hv hne =>
      obtain ⟨hdeq, hp, -⟩ := hknows
      obtain ⟨x, τ, rfl, rfl, -, hchange, hin'⟩ :=
        hin.called h (Or.inl hp.reached.mem) hlegal hlegal' hcall
      rw [next_ring]
      exact ⟨hchange, hin'.leave hchange.inv hv, trivial⟩
  | retryEmpty hcall hv hnull =>
      obtain ⟨hdeq, hp, hseen⟩ := hknows
      obtain ⟨x, τ, rfl, rfl, ht, hchange, hin'⟩ :=
        hin.called h (Or.inl hp.reached.mem) hlegal hlegal' hcall
      obtain ⟨y, rfl⟩ := T.dequeuing_result ((T.enqueuing_step ht.step).trans hdeq) hv
      obtain rfl := hnull y rfl
      have hseen' := T.seen_null ht.knows hv
      rw [next_ring]
      exact ⟨hchange, hin'.leave hchange.inv hv, hp.grow hchange.grows,
        fun _ => ht.drained h (hp.closed h) hseen hseen'⟩
  | shift hhead =>
      obtain ⟨hp, hdrained⟩ := hknows
      exact ⟨.shiftHead h hhead hp hdrained, hin, trivial⟩
  | lose hhead => exact ⟨.stay h, hin, trivial⟩

/-- The invariant of a new queue. -/
theorem init_inv (T : M.TicketRing A) (twice : Bool) (a : Trace ι A)
    (ha : a = ⟨fun _ => T.init, [0], 0, fun _ => none⟩) :
  Inv T twice (init M.init, a)
  := by
  subst ha
  obtain ⟨m, hm⟩ := T.sound.start
  have hnew : ∀ p, tickets T (init M.init, ⟨fun _ => T.init, [0], 0, fun _ => none⟩) p
      = (.new m : Tickets ι ℕ) := fun _ => hm
  constructor
  case ring => exact fun _ => T.sound.outline.init
  case sane =>
    intro p
    rw [hnew]
    apply Tickets.new_inv
  case nodup => exact List.nodup_singleton 0
  case next =>
    intro k p hk
    cases k with
    | zero => rfl
    | succ k => cases hk
  case head => rfl
  case tail => exact List.mem_singleton_self 0
  case closed =>
    intro p q hq
    cases hq
  case below =>
    intro p hp
    rw [List.mem_singleton.mp hp]
    exact Nat.one_pos
  case owned =>
    intro p i hp
    cases hp
  case new => exact fun p _ => ⟨rfl, rfl⟩
  case drained => exact fun _ k hk => absurd hk (Nat.not_lt_zero k)

/-- The accesses of `dequeue` are those of a dequeue that looks twice, or once. -/
def Dequeues (M : Machine ι ρ ℓ (RingOp ℕ) (RingRes ℕ) (RingTag ℕ) Unit) (null : ℕ) (twice : Bool)
    (dequeue : ι → Shared ρ → Dequeue ℓ → Option (Shared ρ × Dequeue ℓ × Tag)) : Prop :=
  ∀ {i s pc s' pc' t}, dequeue i s pc = some (s', pc', t) →
    DequeueStep M null twice i s pc s' pc' t

variable {dequeue : ι → Shared ρ → Dequeue ℓ → Option (Shared ρ × Dequeue ℓ × Tag)}

/-- A step of a queue of rings is a step of one of the operations. -/
theorem step_inv (hD : Dequeues M T.null twice dequeue) {ch : Unit} {s s' : Shared ρ}
    {l l' : Local ℓ} {t : Tag} (hs : (machine M dequeue).step i ch s l = some (s', l', t)) :
  (∃ pc pc', l = .enqueue pc ∧ l' = .enqueue pc' ∧ EnqueueStep M i s pc s' pc' t) ∨
    ∃ pc pc', l = .dequeue pc ∧ l' = .dequeue pc' ∧ DequeueStep M T.null twice i s pc s' pc' t
  := by
  cases l with
  | enqueue pc =>
      obtain ⟨⟨_, pc', _⟩, hs, heq⟩ := Option.map_eq_some_iff.mp hs
      cases heq
      exact Or.inl ⟨pc, pc', rfl, rfl, enqueue_step hs⟩
  | dequeue pc =>
      obtain ⟨⟨_, pc', _⟩, hs, heq⟩ := Option.map_eq_some_iff.mp hs
      cases heq
      exact Or.inr ⟨pc, pc', rfl, rfl, hD hs⟩

/-- A step of a queue of rings keeps to the outline. -/
theorem step_spec (hD : Dequeues M T.null twice dequeue) {ch : Unit} {s' : Shared ρ}
    {l l' : Local ℓ} {t : Tag} (h : Inv T twice σ) (hl : Knows T twice i σ (some l))
    (hlegal : (machine M dequeue).legal σ.1) (hlegal' : (machine M dequeue).legal s')
    (hs : (machine M dequeue).step i ch σ.1 l = some (s', l', t)) :
  Change T twice i σ (s', σ.2.next T i σ.1 s' t) ∧
    Knows T twice i (s', σ.2.next T i σ.1 s' t) (some l')
  := by
  rcases step_inv hD hs with ⟨pc, pc', rfl, rfl, hpc⟩ | ⟨pc, pc', rfl, rfl, hpc⟩
  · exact enqueue_spec h hl hlegal hlegal' hpc
  · exact dequeue_spec h hl hlegal hlegal' hpc

/-- The proof outline of a queue of rings. -/
theorem outline (hD : Dequeues M T.null twice dequeue) :
  ((machine M dequeue).withGhost (ghost T dequeue)).Outline (Inv T twice) (Knows T twice) (Sees T)
  := by
  constructor
  case init => exact init_inv T twice _ rfl
  case idle => exact fun i p => T.sound.outline.idle i
  case call =>
    intro i σ o _ hl hvalid
    cases o with
    | enqueue x => exact ⟨hl, hvalid⟩
    | dequeue out => exact ⟨hl, trivial⟩
  case ret =>
    rintro i σ (pc | pc) v - hl hv
    · cases pc with
      | done x => exact hl.1
      | _ => cases hv
    · cases pc with
      | refused x => exact hl.1
      | done x => exact hl.1
      | _ => cases hv
  case step =>
    rintro i ch σ l ⟨s', a'⟩ l' t h hl hlegal hlegal' hs
    obtain ⟨hs, ha⟩ := withGhost_step.mp hs
    obtain rfl : a' = σ.2.next T i σ.1 s' t := ha
    obtain ⟨hchange, hknows⟩ := step_spec hD h hl hlegal.1 hlegal'.1 hs
    exact ⟨hchange.inv, hknows, hchange.sees⟩
  case stable => exact fun h h' hsees hl => hl.keep h h' hsees

end steps

end RingQueue
