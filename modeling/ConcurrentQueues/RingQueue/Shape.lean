import ConcurrentQueues.RingQueue.Runs
import ConcurrentQueues.Library.Links

/-!
# The shape of a queue of rings

The rings ever linked form a list that starts with the ring of the constructor. A ring is closed
before another one is linked behind it, and it stays closed, so that the last ring is the only one
that may be open. The head and the tail move along the list by themselves, each of them from a
ring to the next one, and either may be ahead of the other.
-/

namespace RingQueue

open Machine

variable {ι ρ ℓ A : Type} {M : Machine ι ρ ℓ (RingOp ℕ) (RingRes ℕ) (RingTag ℕ) Unit}
  {dequeue : ι → Shared ρ → Dequeue ℓ → Option (Shared ρ × Dequeue ℓ × Tag)}

/-- Following `next` leads from ring `p` to ring `q`. -/
def Shared.Leads (s : Shared ρ) : ℕ → ℕ → Prop :=
  Relation.ReflTransGen fun p q => s.next p = some q

/-- The rings of `l` are the linked ones, in the order of linking. The ring of the constructor is
named 0. -/
structure Shape (closed : ρ → Bool) (s : Shared ρ) (l : List ℕ) : Prop where
  chain : Links s.next (some 0) l
  acyclic : l.Nodup
  linked : ∀ p q, s.next p = some q → p ∈ l ∧ q ∈ l
  closed : ∀ p ∈ l.dropLast, closed (s.ring p) = true
  head : s.head ∈ l
  tail : s.tail ∈ l

section runs

variable [DecidableEq ι] {n : ℕ} (r : (machine M dequeue).Run n)

/-- At step `k` thread `i` makes the last access of a call of ring `p`, which returns `v`. -/
def Ends (i : ι) (p : ℕ) (v : RingRes ℕ) (k : ℕ) : Prop :=
  ∃ l l₁ l₁' τ, r.Acts i (.ring p τ) k ∧ (r.conf k).thread i = some l ∧
    l.inside = some (p, l₁) ∧
    M.step i () ((r.conf k).shared.ring p) l₁ = some ((r.conf (k + 1)).shared.ring p, l₁', τ) ∧
    M.result l₁' = some v

/-- At step `k` an enqueue of thread `i` draws a ticket from the tail of ring `p`. -/
def DrawsTail (i : ι) (p k : ℕ) : Prop :=
  r.Acts i (.ring p .drawClosed) k ∨ ∃ t x, r.Acts i (.ring p (.drawTail t x)) k

/-- In the run `r` closing a ring is permanent, and the list of the rings keeps its shape. Of the
memory of a ring, `closed` shows whether it is closed. -/
structure KeepsShape (closed : ρ → Bool) : Prop where
  /-- No step opens a ring again. -/
  stays : ∀ p k m, k ≤ m → m ≤ n → closed ((r.conf k).shared.ring p) = true →
    closed ((r.conf m).shared.ring p) = true
  /-- An enqueue that draws a ticket from a closed ring is refused at once. -/
  refuses : ∀ i p k, DrawsTail r i p k → closed ((r.conf k).shared.ring p) = true →
    Ends r i p .closed k
  /-- An enqueue that succeeds has drawn its last ticket while the ring was open. -/
  accepts : ∀ i p k, Ends r i p .ok k → ∃ t x d, d < k ∧ r.Acts i (.ring p (.drawTail t x)) d ∧
    closed ((r.conf d).shared.ring p) = false ∧ r.Acts i (.ring p (.install t x)) k ∧
    ∀ m, d < m → m < k → r.who m = i → ∃ τ, r.event m = .act (.ring p τ) ∧ ¬ τ.Draws
  /-- A `next` is written once, and only when the ring has been closed. -/
  link : ∀ p, ∀ k < n, (r.conf (k + 1)).shared.next p ≠ (r.conf k).shared.next p →
    (r.conf k).shared.next p = none ∧ closed ((r.conf k).shared.ring p) = true
  once : ∀ p, ∀ k < n, ∀ m < n, (r.conf (k + 1)).shared.next p ≠ (r.conf k).shared.next p →
    (r.conf (m + 1)).shared.next p ≠ (r.conf m).shared.next p → k = m
  shape : ∀ k ≤ n, ∃ l, Shape closed (r.conf k).shared l
  /-- The head and the tail move forward. -/
  head : ∀ k m, k ≤ m → m ≤ n →
    (r.conf m).shared.Leads (r.conf k).shared.head (r.conf m).shared.head
  tail : ∀ k m, k ≤ m → m ≤ n →
    (r.conf m).shared.Leads (r.conf k).shared.tail (r.conf m).shared.tail

end runs

section steps

variable {T : M.TicketRing A} {twice : Bool} {i : ι} {s s' : Shared ρ} {l l' : Local ℓ} {t : Tag}
  {ch : Unit}

/-- The memory of a ring shows whether it is closed, and an enqueue that draws a ticket from a
closed ring is refused at once. -/
structure Reveals (T : M.TicketRing A) (closed : ρ → Bool) : Prop where
  closed : ∀ {σ}, T.inv σ → (T.tickets σ.2).closed = closed σ.1
  refuse : ∀ {i s l s' l'}, M.step i () s l = some (s', l', .drawClosed) →
    M.result l' = some .closed

/-! ### What a step does to the list -/

/-- The steps from `s` to `s'` of a thread at `l`, as far as the list of the rings is concerned: a
`next` that was null is written, the head or the tail is moved, or nothing of all this. -/
inductive ChainStep (s s' : Shared ρ) : Local ℓ → Prop where
  | stay {l : Local ℓ} : s'.next = s.next → s'.head = s.head → s'.tail = s.tail → ChainStep s s' l
  | link {x p q : ℕ} : s.next p = none → s' = { s with next := Function.update s.next p (some q) } →
      ChainStep s s' (.enqueue (.link x p q))
  | casTail {x q : ℕ} : s' = { s with tail := q } →
      ChainStep s s' (.enqueue (.casTail x s.tail q))
  | swingTail {x q : ℕ} : s' = { s with tail := q } →
      ChainStep s s' (.enqueue (.swingTail x s.tail q))
  | casHead {item q : ℕ} : s' = { s with head := q } →
      ChainStep s s' (.dequeue (.casHead item s.head q))

theorem chain_step (hD : Dequeues M T.null twice dequeue)
    (hs : (machine M dequeue).step i ch s l = some (s', l', t)) :
  ChainStep s s' l
  := by
  have hcalled : ∀ {p l₁ l₁'} {s₁ : Shared ρ} {l : Local ℓ}, call M i s p l₁ = some (s₁, l₁', t) →
      s'.next = s₁.next → s'.head = s₁.head → s'.tail = s₁.tail → ChainStep s s' l := by
    intro p l₁ l₁' s₁ l hcall hnext hhead htail
    obtain ⟨x, τ, -, rfl, -⟩ := call_eq_some.mp hcall
    exact .stay hnext hhead htail
  rcases step_inv hD hs with ⟨pc, pc', rfl, rfl, hpc⟩ | ⟨pc, pc', rfl, rfl, hpc⟩
  · obtain ⟨⟨_, _, _⟩, hraw, heq⟩ := Option.map_eq_some_iff.mp hs
    cases heq
    cases hpc with
    | ring hcall | ok hcall | closed hcall | newRing hcall | filled hcall =>
        apply hcalled hcall rfl rfl rfl
    | link hnext => exact .link hnext rfl
    | @swing x p q =>
        rw [enqueue] at hraw
        split at hraw
        case isTrue htail =>
          subst htail
          exact .casTail rfl
        case isFalse => simp at hraw
    | @swingTail x p q =>
        rw [enqueue] at hraw
        split at hraw
        case isTrue htail =>
          subst htail
          exact .swingTail rfl
        case isFalse => simp at hraw
    | _ => exact .stay rfl rfl rfl
  · cases hpc with
    | ring hcall | give hcall | empty hcall | retry hcall | retryGive hcall | retryEmpty hcall =>
        apply hcalled hcall rfl rfl rfl
    | shift hhead =>
        subst hhead
        exact .casHead rfl
    | _ => exact .stay rfl rfl rfl

/-- Where an enqueue is about to move the tail, the new ring is the next one. -/
def Hops (s : Shared ρ) : Local ℓ → Prop
  | .enqueue (.casTail _ p q) | .enqueue (.swingTail _ p q) => s.next p = some q
  | _ => True

theorem Hops.of_step (hD : Dequeues M T.null twice dequeue)
    (hs : (machine M dequeue).step i ch s l = some (s', l', t)) :
  Hops s' l'
  := by
  rcases step_inv hD hs with ⟨pc, pc', rfl, rfl, hpc⟩ | ⟨pc, pc', rfl, rfl, hpc⟩
  · cases hpc with
    | reloadNext hnext => exact hnext
    | link hnext => exact Function.update_self ..
    | _ => trivial
  · trivial

theorem Hops.mono (h : Hops s l) (hnext : ∀ p q, s.next p = some q → s'.next p = some q) :
  Hops s' l
  := by
  cases l with
  | enqueue pc =>
      cases pc with
      | casTail x p q | swingTail x p q => exact hnext p q h
      | _ => trivial
  | dequeue pc => trivial

end steps

/-! ### Every run keeps the shape -/

theorem Shared.Leads.mono {s s' : Shared ρ} {p q : ℕ} (h : s.Leads p q)
    (hnext : ∀ u v, s.next u = some v → s'.next u = some v) :
  s'.Leads p q
  := Relation.ReflTransGen.mono hnext _ _ h

section shape

variable [DecidableEq ι] {T : M.TicketRing A} {twice : Bool} {closed : ρ → Bool}
  (hD : Dequeues M T.null twice dequeue) (hT : Reveals T closed) {n : ℕ}
  (r : (machine M dequeue).Run n) {i : ι} {k m p q : ℕ}

include hD

/-- A step of a run changes nothing of the list, or it is one of the steps that do. -/
theorem chain_next (hk : k < n) :
  (r.conf (k + 1)).shared = (r.conf k).shared ∨ ∃ l, (r.conf k).thread (r.who k) = some l ∧
    ChainStep (r.conf k).shared (r.conf (k + 1)).shared l
  := by
  rcases r.rests_or_acts hk with ⟨-, hrest⟩ | ⟨t, ht⟩
  · exact Or.inl hrest
  · obtain ⟨l, ch, s, l', hl, hs, hc⟩ := ht.step
    rw [hc, Config.put_shared]
    exact Or.inr ⟨l, hl, chain_step hD hs⟩

/-- A `next` that has been written stays as it is. -/
theorem next_mono (hkm : k ≤ m) (hm : m ≤ n) (hq : (r.conf k).shared.next p = some q) :
  (r.conf m).shared.next p = some q
  := (grows hD r hkm hm).next p q hq

theorem hops (hk : k ≤ n) {l : Local ℓ} (hl : (r.conf k).thread i = some l) :
  Hops (r.conf k).shared l
  := by
  have h := r.busy_induction (fun _ _ _ k l => Hops (r.conf k).shared l)
    (fun _ o _ _ => by
      cases o with
      | enqueue x => trivial
      | dequeue out => trivial)
    (fun _ _ _ _ _ _ _ _ _ _ _ _ _ _ hs hc => by
      rw [hc, Config.put_shared]
      apply Hops.of_step hD hs)
    (fun _ _ _ k _ _ _ hH hk _ _ => hH.mono fun _ _ => next_mono hD r (Nat.le_succ k) hk)
  obtain ⟨-, -, -, -, hhops⟩ := h k hk i l hl
  exact hhops

/-- Who writes a `next` has found it null, and the ring was closed. -/
theorem next_written (hk : k < n)
    (hne : (r.conf (k + 1)).shared.next p ≠ (r.conf k).shared.next p) :
  (r.conf k).shared.next p = none ∧ (∃ q, (r.conf (k + 1)).shared.next p = some q) ∧
    p ∈ (trail T r k).2.chain ∧ (tickets T (trail T r k) p).closed = true
  := by
  rcases chain_next hD r hk with heq | ⟨l, hl, hstep⟩
  · rw [heq] at hne
    exact absurd rfl hne
  · cases hstep with
    | stay hnext =>
        rw [hnext] at hne
        exact absurd rfl hne
    | @link x u v hnone heq =>
        have hpu : p = u := by
          by_contra hpu
          rw [heq] at hne
          apply hne (Function.update_of_ne hpu ..)
        subst hpu
        have hknows := (asserts hD r (le_of_lt hk)).2 (r.who k)
        rw [hl] at hknows
        obtain ⟨-, -, hp, hclosed, -⟩ := hknows
        refine ⟨hnone, ⟨v, ?_⟩, hp, hclosed⟩
        rw [heq]
        apply Function.update_self
    | casTail heq | swingTail heq | casHead heq =>
        rw [heq] at hne
        exact absurd rfl hne

/-- A `next` that has been written is not written again. -/
theorem next_eq_of_written (hkm : k < m) (hm : m < n)
    (hne : (r.conf (k + 1)).shared.next p ≠ (r.conf k).shared.next p) :
  (r.conf (m + 1)).shared.next p = (r.conf m).shared.next p
  := by
  obtain ⟨-, ⟨q, hq⟩, -⟩ := next_written hD r (hkm.trans hm) hne
  have hold := next_mono hD r hkm (le_of_lt hm) hq
  rw [hold]
  apply next_mono hD r (Nat.le_succ m) hm hold

/-- Only rings of the chain have a `next`. -/
theorem mem_chain_of_next (hk : k ≤ n) (hq : (r.conf k).shared.next p = some q) :
  p ∈ (trail T r k).2.chain
  := by
  induction k with
  | zero =>
      rw [r.start] at hq
      cases hq
  | succ k ih =>
      apply (grows hD r (Nat.le_succ k) hk).mem
      by_cases hne : (r.conf (k + 1)).shared.next p = (r.conf k).shared.next p
      · rw [hne] at hq
        apply ih (Nat.le_of_succ_le hk) hq
      · obtain ⟨-, -, hp, -⟩ := next_written hD r hk hne
        exact hp

/-- The ring of the constructor remains the first one. -/
theorem chain_head? (hk : k ≤ n) :
  (trail T r k).2.chain.head? = some 0
  := by
  have hprefix : [0] <+: (trail T r k).2.chain := (grows hD r (Nat.zero_le k) hk).chain
  obtain ⟨rest, hrest⟩ := hprefix
  rw [← hrest]
  rfl

/-- The head moves from a ring to the next one. -/
theorem head_next (hk : k < n) :
  (r.conf (k + 1)).shared.Leads (r.conf k).shared.head (r.conf (k + 1)).shared.head
  := by
  rcases chain_next hD r hk with heq | ⟨l, hl, hstep⟩
  · rw [heq]
    exact .refl
  · cases hstep with
    | stay _ hhead _ =>
        rw [hhead]
        exact .refl
    | link _ heq | casTail heq | swingTail heq =>
        rw [heq]
        exact .refl
    | @casHead item q heq =>
        obtain ⟨hinv, hknows⟩ := asserts hD r (le_of_lt hk)
        have hself := hknows (r.who k)
        rw [hl] at hself
        obtain ⟨-, ⟨e, -, he, he'⟩, -⟩ := hself
        have hnext := next_mono hD r (Nat.le_succ k) hk ((hinv.next e _ he).trans he')
        apply Relation.ReflTransGen.single
        rwa [show (r.conf (k + 1)).shared.head = q by rw [heq]]

/-- The tail moves from a ring to the next one. -/
theorem tail_next (hk : k < n) :
  (r.conf (k + 1)).shared.Leads (r.conf k).shared.tail (r.conf (k + 1)).shared.tail
  := by
  rcases chain_next hD r hk with heq | ⟨l, hl, hstep⟩
  · rw [heq]
    exact .refl
  · have hhops := hops hD r (le_of_lt hk) hl
    cases hstep with
    | stay _ _ htail =>
        rw [htail]
        exact .refl
    | link _ heq | casHead heq =>
        rw [heq]
        exact .refl
    | @casTail x q heq | @swingTail x q heq =>
        apply Relation.ReflTransGen.single
        rw [show (r.conf (k + 1)).shared.tail = q by rw [heq]]
        apply next_mono hD r (Nat.le_succ k) hk hhops

/-- A pointer that each step moves along the list is moved along the list by a run. -/
theorem leads_of_next {f : Shared ρ → ℕ}
    (hf : ∀ k < n, (r.conf (k + 1)).shared.Leads (f (r.conf k).shared) (f (r.conf (k + 1)).shared))
    (hkm : k ≤ m) (hm : m ≤ n) :
  (r.conf m).shared.Leads (f (r.conf k).shared) (f (r.conf m).shared)
  := by
  induction m, hkm using Nat.le_induction with
  | base => exact .refl
  | succ m hkm ih =>
      have hfirst := (ih (Nat.le_of_succ_le hm)).mono fun _ _ => next_mono hD r (Nat.le_succ m) hm
      apply hfirst.trans (hf m hm)

/-- An item comes to a ring with a ticket that the same call has drawn from it. -/
theorem install_drawn {t x : ℕ} (hact : r.Acts i (.ring p (.install t x)) k) :
  ∃ d < k, r.Acts i (.ring p (.drawTail t x)) d ∧
    (tickets T (trail T r d) p).closed = false ∧ ∀ m, d < m → m < k → r.who m = i →
      ∃ τ, r.event m = .act (.ring p τ) ∧ ¬ τ.Draws
  := by
  obtain ⟨hk, rfl, he⟩ := hact
  have hcourse := course hD r p
  obtain ⟨⟨hheld, -⟩, -⟩ := hcourse.step k hk _ (ringTag_eq_some.mpr he)
  obtain ⟨d, hdk, hi, hdraw, hsince⟩ := hcourse.held_since (le_of_lt hk) hheld
  obtain ⟨⟨hopen, -⟩, -⟩ := hcourse.step d (hdk.trans hk) _ hdraw
  refine ⟨d, hdk, ⟨hdk.trans hk, hi, ringTag_eq_some.mp hdraw⟩, hopen, fun m hdm hmk hm => ?_⟩
  have hmid := hsince m hdm (le_of_lt hmk)
  rw [← hm] at hmid
  apply busy hD r (hmk.trans hk) (Or.inl ⟨x, hmid⟩)

include hT

/-- The memory of a ring shows whether its tickets are closed. -/
theorem closed_ring (hk : k ≤ n) (p : ℕ) :
  (tickets T (trail T r k) p).closed = closed ((r.conf k).shared.ring p)
  := hT.closed ((asserts hD r hk).1.ring p)

/-- The chain of the rings is the list that starts with the ring of the constructor. -/
theorem chain_shape (hk : k ≤ n) :
  Shape closed (r.conf k).shared (trail T r k).2.chain
  := by
  obtain ⟨hinv, -⟩ := asserts hD r hk
  constructor
  case chain =>
    rw [← chain_head? hD r hk]
    exact Links.of_getElem? hinv.next
  case acyclic => exact hinv.nodup
  case linked =>
    intro p q hq
    have hp := mem_chain_of_next hD r hk hq
    exact ⟨hp, hinv.next_mem hp hq⟩
  case closed =>
    intro p hp
    obtain ⟨e, he⟩ := List.mem_iff_getElem?.mp hp
    -- a ring that is not the last has a next one
    obtain ⟨hlt, hget⟩ := List.getElem?_eq_some_iff.mp he
    rw [List.length_dropLast] at hlt
    rw [List.getElem_dropLast] at hget
    have hnext : (trail T r k).2.chain[e + 1]? = some (trail T r k).2.chain[e + 1] :=
      List.getElem?_eq_getElem (Nat.add_lt_of_lt_sub hlt)
    have hpos := List.getElem?_eq_getElem (Nat.lt_of_lt_of_le hlt (Nat.sub_le _ 1))
    rw [hget] at hpos
    rw [← closed_ring hD hT r hk]
    apply hinv.closed p _ ((hinv.next e p hpos).trans hnext)
  case head => exact List.mem_of_getElem? hinv.head
  case tail => exact hinv.tail

/-- Every run of a queue of rings keeps its shape. -/
theorem keepsShape :
  KeepsShape r closed
  := by
  constructor
  case stays =>
    intro p k m hkm hm hclosed
    rw [← closed_ring hD hT r (hkm.trans hm)] at hclosed
    rw [← closed_ring hD hT r hm]
    exact ((grows hD r hkm hm).later p).closed hclosed
  case refuses =>
    rintro i p k (hact | ⟨t, x, hact⟩) hclosed
    · obtain ⟨hk, rfl, he⟩ := hact
      obtain ⟨l, l₁, l₁', hl, hin, hs, -⟩ := ring_act hD r hk he
      exact ⟨l, l₁, l₁', .drawClosed, ⟨hk, rfl, he⟩, hl, hin, hs, hT.refuse hs⟩
    · obtain ⟨hk, rfl, he⟩ := hact
      obtain ⟨-, -, -, -, -, -, ⟨hopen, -⟩, -⟩ := ring_act hD r hk he
      rw [closed_ring hD hT r (le_of_lt hk), hclosed] at hopen
      cases hopen
  case accepts =>
    rintro i p k ⟨l, l₁, l₁', τ, hact, -, -, hs, hok⟩
    obtain ⟨t, x, rfl⟩ := T.ok hs hok
    obtain ⟨d, hdk, hdraw, hopen, hsince⟩ := install_drawn hD r hact
    rw [closed_ring hD hT r (le_of_lt hdraw.1)] at hopen
    exact ⟨t, x, d, hdk, hdraw, hopen, hact, hsince⟩
  case link =>
    intro p k hk hne
    obtain ⟨hnone, -, -, hclosed⟩ := next_written hD r hk hne
    rw [closed_ring hD hT r (le_of_lt hk)] at hclosed
    exact ⟨hnone, hclosed⟩
  case once =>
    intro p k hk m hm hk' hm'
    rcases lt_trichotomy k m with hlt | heq | hlt
    · exact absurd (next_eq_of_written hD r hlt hm hk') hm'
    · exact heq
    · exact absurd (next_eq_of_written hD r hlt hk hm') hk'
  case shape => exact fun k hk => ⟨_, chain_shape hD hT r hk⟩
  case head => exact fun k m hkm hm => leads_of_next hD r (fun _ => head_next hD r) hkm hm
  case tail => exact fun k m hkm hm => leads_of_next hD r (fun _ => tail_next hD r) hkm hm

end shape

end RingQueue
