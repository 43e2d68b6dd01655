import ConcurrentQueues.Library.Waiting
import ConcurrentQueues.RingQueue.Items

/-!
# The list a queue of rings stands for

The items that are going to be installed with the tickets between the counters of the rings, one
ring after the other. An item comes to the end of the list when its ticket is drawn, or when its
ring is linked if the ring was not linked before, and the front is removed when its head ticket is
drawn. An item whose head ticket has been drawn before its tail ticket goes through the empty list.
-/

namespace RingQueue

open Machine

variable {ι ρ ℓ A : Type} {M : Machine ι ρ ℓ (RingOp ℕ) (RingRes ℕ) (RingTag ℕ) Unit}
  {dequeue : ι → Shared ρ → Dequeue ℓ → Option (Shared ρ × Dequeue ℓ × Tag)} [DecidableEq ι]
  {n : ℕ}

/-- The item that is going to be installed with ticket `t` of ring `p`. -/
def awaited (T : M.TicketRing A) (r : (machine M dequeue).Run n) (p t : ℕ) : Option ℕ :=
  ((tickets T (trail T r n) p).enq t).installed

/-- The items that wait in ring `p` before step `k`. -/
def ringItems (T : M.TicketRing A) (r : (machine M dequeue).Run n) (k p : ℕ) : List ℕ :=
  (tickets T (trail T r k) p).waiting (awaited T r p)

/-- The items that wait in the rings of the chain. -/
def items (T : M.TicketRing A) (r : (machine M dequeue).Run n) (k : ℕ) : List ℕ :=
  (trail T r k).2.chain.flatMap (ringItems T r k)

variable {T : M.TicketRing A} {r : (machine M dequeue).Run n} {i j : ι} {k m p q t x y : ℕ}

theorem awaited_eq_some :
  awaited T r p t = some x ↔ (tickets T (trail T r n) p).enq t = .full x
  := TailTicket.installed_eq_some

/-- At the start no item waits. -/
theorem items_start (T : M.TicketRing A) (r : (machine M dequeue).Run n) :
  items T r 0 = []
  := by
  obtain ⟨m, hm⟩ := T.sound.start
  have hnil : ringItems T r 0 0 = [] := by
    apply Tickets.waiting_nil
    rw [show tickets T (trail T r 0) 0 = .new m from hm]
    exact le_rfl
  rw [items, show (trail T r 0).2.chain = [0] from rfl, List.flatMap_cons, hnil]
  rfl

/-- An access to a ring changes neither the chain nor the position of the head. -/
theorem trail_ring {τ : RingTag ℕ} (hk : k < n) (he : r.event k = .act (.ring p τ)) :
  (trail T r (k + 1)).2.chain = (trail T r k).2.chain ∧
    (trail T r (k + 1)).2.head = (trail T r k).2.head
  := by
  rw [trail_act r hk he]
  exact ⟨rfl, rfl⟩

/-- The chain grows only when a ring is linked. -/
theorem chain_succ (hk : k < n) (hnot : ∀ q, r.event k ≠ .act (.link q)) :
  (trail T r (k + 1)).2.chain = (trail T r k).2.chain
  := by
  cases he : r.tag k with
  | none => rw [trail_rest r hk he]
  | some t =>
      rw [Run.tag_eq_some] at he
      rw [trail_act r hk he]
      cases t with
      | link q => exact absurd he (hnot q)
      | _ => rfl

/-- A ring that comes to the chain is linked. -/
theorem link_of_mem (hkm : k ≤ m) (hm : m ≤ n) (hold : p ∉ (trail T r k).2.chain)
    (hnew : p ∈ (trail T r m).2.chain) :
  ∃ l, k ≤ l ∧ l < m ∧ r.event l = .act (.link p) ∧ p ∉ (trail T r l).2.chain
  := by
  induction m, hkm using Nat.le_induction with
  | base => exact absurd hnew hold
  | succ m hkm ih =>
      by_cases hmem : p ∈ (trail T r m).2.chain
      · obtain ⟨l, hkl, hlm, hl⟩ := ih (Nat.le_of_succ_le hm) hmem
        exact ⟨l, hkl, Nat.lt_succ_of_lt hlm, hl⟩
      · refine ⟨m, hkm, Nat.lt_succ_self m, ?_, hmem⟩
        by_contra hnot
        cases he : r.tag m with
        | none =>
            rw [trail_rest r hm he] at hnew
            exact hmem hnew
        | some t =>
            rw [Run.tag_eq_some] at he
            rw [trail_act r hm he] at hnew
            cases t with
            | link q =>
                rcases List.mem_append.mp hnew with hnew | hnew
                · exact hmem hnew
                · rw [List.mem_singleton.mp hnew] at hnot
                  exact hnot he
            | _ => exact hmem hnew

/-- Where a ring of the chain and the one behind it are. -/
theorem getElem?_middle (pre post : List ℕ) (p : ℕ) :
  (pre ++ p :: post)[pre.length]? = some p ∧ (pre ++ p :: post)[pre.length + 1]? = post.head?
  := by
  constructor
  · rw [List.getElem?_append_right le_rfl, Nat.sub_self]
    rfl
  · rw [List.getElem?_append_right (Nat.le_succ _), Nat.succ_sub le_rfl, Nat.sub_self]
    exact List.head?_eq_getElem?.symm

variable (hD : Dequeues M T.null true dequeue) (r)

include hD

/-- A ring that is not accessed keeps its items. -/
theorem ringItems_rest (hk : k < n) (hnot : ∀ τ, r.event k ≠ .act (.ring p τ)) :
  ringItems T r (k + 1) p = ringItems T r k p
  := by
  have hnone : ringTag r p k = none := by
    cases hτ : ringTag r p k with
    | none => rfl
    | some τ => exact absurd (ringTag_eq_some.mp hτ) (hnot τ)
  exact congrArg _ ((course hD r p).rest k hk hnone)

theorem flatMap_ringItems_rest (hk : k < n) {l : List ℕ}
    (hnot : ∀ q ∈ l, ∀ τ, r.event k ≠ .act (.ring q τ)) :
  l.flatMap (ringItems T r (k + 1)) = l.flatMap (ringItems T r k)
  := by
  apply List.flatMap_congr
  intro q hq
  apply ringItems_rest r hD hk (hnot q hq)

/-- In the rings the head has left no items wait. -/
theorem ringItems_left (hk : k ≤ n) {e : ℕ} (he : e < (trail T r k).2.head)
    (hp : (trail T r k).2.chain[e]? = some p) :
  ringItems T r k p = []
  := by
  obtain ⟨hinv, -⟩ := asserts hD r hk
  obtain ⟨hclosed, hdrained⟩ := hinv.drained rfl e he p hp
  have hlater := (course hD r p).later hk le_rfl
  apply Tickets.waiting_eq_nil
  intro t ht
  rw [awaited]
  rcases hdrained t ht with hfree | hgone
  · rw [show (tickets T (trail T r n) p).enq t = .free from
      hlater.skipped t (Or.inr hclosed) hfree]
    rfl
  · rw [show (tickets T (trail T r n) p).enq t = .gone from hlater.gone t hgone]
    rfl

/-- Before a ring that the head has reached no items wait. -/
theorem flatMap_reached {pre post : List ℕ} (hk : k ≤ n)
    (hchain : (trail T r k).2.chain = pre ++ p :: post) (hp : Reached (trail T r k) p) :
  pre.flatMap (ringItems T r k) = []
  := by
  obtain ⟨hinv, -⟩ := asserts hD r hk
  obtain ⟨f, hf, hfp⟩ := hp
  have hpos := (getElem?_middle pre post p).1
  rw [← hchain] at hpos
  obtain rfl := hinv.position hpos hfp
  apply List.flatMap_eq_nil_iff.mpr
  intro q hq
  obtain ⟨e, he⟩ := List.mem_iff_getElem?.mp hq
  have hlt := (List.getElem?_eq_some_iff.mp he).1
  apply ringItems_left r hD hk (lt_of_lt_of_le hlt hf)
  rw [hchain, List.getElem?_append_left hlt]
  exact he

/-- An open ring of the chain is the last one. -/
theorem last_of_open {pre post : List ℕ} (hk : k ≤ n)
    (hchain : (trail T r k).2.chain = pre ++ p :: post)
    (hopen : (tickets T (trail T r k) p).closed = false) :
  post = []
  := by
  obtain ⟨hinv, -⟩ := asserts hD r hk
  obtain ⟨hpos, hnext⟩ := getElem?_middle pre post p
  rw [← hchain] at hpos hnext
  cases post with
  | nil => rfl
  | cons q post => cases hopen.symm.trans (hinv.closed p q ((hinv.next _ p hpos).trans hnext))

/-- The items of the rings around one that is accessed. -/
theorem items_ring {τ : RingTag ℕ} {pre post : List ℕ} (hk : k < n)
    (he : r.event k = .act (.ring p τ)) (hchain : (trail T r k).2.chain = pre ++ p :: post) :
  items T r k = pre.flatMap (ringItems T r k) ++ (ringItems T r k p ++
      post.flatMap (ringItems T r k)) ∧
    items T r (k + 1) = pre.flatMap (ringItems T r k) ++ (ringItems T r (k + 1) p ++
      post.flatMap (ringItems T r k))
  := by
  have hnodup := (asserts hD r (le_of_lt hk)).1.nodup
  rw [hchain, List.nodup_append, List.nodup_cons] at hnodup
  obtain ⟨-, ⟨hpost, -⟩, hpre⟩ := hnodup
  have hother : ∀ q, q ≠ p → ∀ τ, r.event k ≠ .act (.ring q τ) := by
    rintro q hq τ' he'
    cases he.symm.trans he'
    exact hq rfl
  constructor
  · rw [items, hchain, List.flatMap_append, List.flatMap_cons]
  · rw [items, (trail_ring hk he).1, hchain, List.flatMap_append, List.flatMap_cons,
      flatMap_ringItems_rest r hD hk fun q hq => hother q (hpre q hq p List.mem_cons_self),
      flatMap_ringItems_rest r hD hk fun q hq => hother q (ne_of_mem_of_not_mem hq hpost)]

/-- What changes nothing in its ring, or is no access to a ring of the chain, changes nothing. -/
theorem items_rest (hk : k < n) (hlink : ∀ q, r.event k ≠ .act (.link q))
    (hring : ∀ q τ, r.event k = .act (.ring q τ) → q ∈ (trail T r k).2.chain →
      ringItems T r (k + 1) q = ringItems T r k q) :
  items T r (k + 1) = items T r k
  := by
  rw [items, items, chain_succ hk hlink]
  apply List.flatMap_congr
  intro q hq
  by_cases he : ∃ τ, r.event k = .act (.ring q τ)
  · obtain ⟨τ, he⟩ := he
    exact hring q τ he hq
  · push Not at he
    exact ringItems_rest r hD hk he

/-! ### Tickets that are drawn -/

/-- Who draws a head ticket has come to the ring through the head. -/
theorem reached_of_drawHead (hk : k < n) (he : r.event k = .act (.ring p (.drawHead t))) :
  Reached (trail T r k) p
  := by
  obtain ⟨hchain, hhead⟩ := trail_ring (T := T) hk he
  obtain ⟨-, -, -, -, -, -, -, -, happly⟩ := ring_act hD r hk he
  have hheld : (tickets T (trail T r (k + 1)) p).deq t = .held (r.who k) := by
    rw [happly]
    exact Function.update_self ..
  obtain ⟨l, l₁, hl, hin, hold⟩ := held_inside hD r hk (Or.inr hheld)
  have hknows := (asserts hD r hk).2 (r.who k)
  rw [hl] at hknows
  obtain ⟨pc, -, ⟨e, hle, hp⟩, -⟩ := hknows.dequeuing hin ((hold.deq t).mp hheld)
  rw [hhead] at hle
  rw [hchain] at hp
  exact ⟨e, hle, hp⟩

/-- Who holds a head ticket has come to the ring through the head. -/
theorem reached_of_held (hk : k ≤ n) (hheld : (tickets T (trail T r k) p).deq t = .held j) :
  Reached (trail T r k) p
  := by
  obtain ⟨l, l₁, hl, hin, hold⟩ := held_inside hD r hk (Or.inr hheld)
  have hknows := (asserts hD r hk).2 j
  rw [hl] at hknows
  obtain ⟨pc, -, hreached, -⟩ := hknows.dequeuing hin ((hold.deq t).mp hheld)
  exact hreached

/-- A tail ticket of a ring of the chain that dequeuers have not passed appends what is going to be
installed with it. -/
theorem items_drawTail (hk : k < n) (he : r.event k = .act (.ring p (.drawTail t x)))
    (hp : p ∈ (trail T r k).2.chain) (hle : (tickets T (trail T r k) p).head ≤ t) :
  items T r (k + 1) = items T r k ++ (awaited T r p t).toList
  := by
  obtain ⟨pre, post, hchain⟩ := List.append_of_mem hp
  have hcourse := course hD r p
  have hdraw := ringTag_eq_some.mpr he
  obtain rfl := last_of_open r hD (le_of_lt hk) hchain (hcourse.step k hk _ hdraw).1.1
  obtain ⟨hold, hnew⟩ := items_ring r hD hk he hchain
  rw [hold, hnew, ringItems, hcourse.waiting_drawTail hk hdraw hle]
  simp only [List.flatMap_nil, List.append_nil, List.append_assoc]
  rfl

/-- An item whose head ticket has been drawn before its tail ticket comes to a list that is empty
and leaves it at once, since the head ticket is held. -/
theorem items_handed (hk : k < n) (he : r.event k = .act (.ring p (.drawTail t x)))
    (hp : p ∈ (trail T r k).2.chain) (hlt : t < (tickets T (trail T r k) p).head)
    (hfull : awaited T r p t = some y) :
  items T r k = [] ∧ items T r (k + 1) = [] ∧ ∃ j, (tickets T (trail T r k) p).deq t = .held j
  := by
  obtain ⟨pre, post, hchain⟩ := List.append_of_mem hp
  have hcourse := course hD r p
  have hdraw := ringTag_eq_some.mpr he
  obtain ⟨hopen, ht⟩ := (hcourse.step k hk _ hdraw).1
  obtain rfl := last_of_open r hD (le_of_lt hk) hchain hopen
  have hfree := (hcourse.inv (le_of_lt hk)).enq t (le_of_eq ht.symm)
  obtain ⟨j, hj⟩ := hcourse.held_of_passed (le_of_lt hk) (awaited_eq_some.mp hfull) hlt
    (by rw [hfree]; rintro ⟨⟩) (Or.inl (le_of_eq ht.symm))
  have hpre := flatMap_reached r hD (le_of_lt hk) hchain (reached_of_held r hD (le_of_lt hk) hj)
  obtain ⟨hold, hnew⟩ := items_ring r hD hk he hchain
  have hnil : ringItems T r k p = [] := by
    apply Tickets.waiting_nil
    rw [← ht]
    exact le_of_lt hlt
  have hsame : ringItems T r (k + 1) p = ringItems T r k p := by
    apply hcourse.waiting_other (fun _ _ => awaited_eq_some) hk
    · intro u z hu
      cases hdraw.symm.trans hu
      exact hlt
    · intro u hu
      cases hdraw.symm.trans hu
  refine ⟨?_, ?_, j, hj⟩
  · rw [hold, hpre, hnil]
    rfl
  · rw [hnew, hpre, hsame, hnil]
    rfl

/-- A head ticket that enqueuers have drawn removes what is going to be installed with it. -/
theorem items_drawHead (hk : k < n) (he : r.event k = .act (.ring p (.drawHead t)))
    (hlt : t < (tickets T (trail T r k) p).tail) :
  items T r k = (awaited T r p t).toList ++ items T r (k + 1)
  := by
  have hreached := reached_of_drawHead r hD hk he
  obtain ⟨pre, post, hchain⟩ := List.append_of_mem hreached.mem
  have hpre := flatMap_reached r hD (le_of_lt hk) hchain hreached
  obtain ⟨hold, hnew⟩ := items_ring r hD hk he hchain
  rw [hold, hnew, hpre, ringItems,
    (course hD r p).waiting_drawHead hk (ringTag_eq_some.mpr he) hlt]
  simp only [List.nil_append, List.append_assoc]
  rfl

/-- Other accesses to a ring do not change its items. -/
theorem ringItems_other {τ : RingTag ℕ} (hk : k < n) (he : r.event k = .act (.ring p τ))
    (htail : ∀ t x, τ = .drawTail t x → t < (tickets T (trail T r k) p).head)
    (hhead : ∀ t, τ = .drawHead t → (tickets T (trail T r k) p).tail ≤ t) :
  ringItems T r (k + 1) p = ringItems T r k p
  := by
  have hτ := ringTag_eq_some.mpr he
  apply (course hD r p).waiting_other (fun _ _ => awaited_eq_some) hk
  · intro t x hdraw
    apply htail t x
    exact Option.some.inj (hτ.symm.trans hdraw)
  · intro t hdraw
    apply hhead t
    exact Option.some.inj (hτ.symm.trans hdraw)

/-- When a dequeue has seen the last ring vacant no items wait. -/
theorem items_vacant (hk : k ≤ n) (h : Vacant T i (trail T r k) p)
    (hnext : (trail T r k).1.next p = none) :
  items T r k = []
  := by
  obtain ⟨hinv, -⟩ := asserts hD r hk
  obtain ⟨pre, post, hchain⟩ := List.append_of_mem h.reached.mem
  obtain ⟨hpos, hlast⟩ := getElem?_middle pre post p
  rw [← hchain] at hpos hlast
  obtain rfl := List.head?_eq_none_iff.mp
    (hlast.symm.trans ((hinv.next _ p hpos).symm.trans hnext))
  rw [items, hchain, List.flatMap_append, flatMap_reached r hD hk hchain h.reached,
    List.flatMap_cons, ringItems, Tickets.waiting_nil h.counters]
  rfl

/-! ### Rings that are linked -/

/-- Who links or discards a ring is at the end of an enqueue, with the ring in hand. -/
theorem linking (hk : k < n) {t : Tag} (he : r.event k = .act t) (ht : t = .link p ∨ t = .discard p) :
  ∃ x q, (r.conf k).thread (r.who k) = some (.enqueue (.link x q p)) ∧
    (t = .discard p → (r.conf (k + 1)).shared = (r.conf k).shared)
  := by
  have hstep := r.step k hk
  rw [he] at hstep
  obtain ⟨l, ch, s, l', hl, hs, hc⟩ := hstep.act_inv
  have hcalled : ∀ {q : ℕ} {l₁ l₁' : ℓ} {s₁ : Shared ρ},
      call M (r.who k) (r.conf k).shared q l₁ ≠ some (s₁, l₁', t) := by
    intro q l₁ l₁' s₁ hcall
    obtain ⟨_, _, -, -, rfl⟩ := call_eq_some.mp hcall
    rcases ht with ht | ht
    · cases ht
    · cases ht
  have hother : t ≠ .silent ∧ t ≠ .swingTail ∧ ∀ q, t ≠ .shiftHead q := by
    rcases ht with rfl | rfl
    · exact ⟨by rintro ⟨⟩, by rintro ⟨⟩, by rintro q ⟨⟩⟩
    · exact ⟨by rintro ⟨⟩, by rintro ⟨⟩, by rintro q ⟨⟩⟩
  obtain ⟨hsilent, hswing, hshift⟩ := hother
  rcases step_inv hD hs with ⟨pc, pc', rfl, rfl, hpc⟩ | ⟨pc, pc', rfl, rfl, hpc⟩
  · cases hpc with
    | ring hcall | ok hcall | closed hcall | newRing hcall | filled hcall =>
        exact absurd hcall hcalled
    | @link x q _ =>
        obtain rfl : _ = p := by
          rcases ht with ht | ht
          · exact Tag.link.inj ht
          · cases ht
        exact ⟨x, q, hl, by rintro ⟨⟩⟩
    | @discard x q =>
        obtain rfl : _ = p := by
          rcases ht with ht | ht
          · cases ht
          · exact Tag.discard.inj ht
        refine ⟨x, q, hl, fun _ => ?_⟩
        rw [hc, Config.put_shared]
    | swing | swingTail => exact absurd rfl hswing
    | _ => exact absurd rfl hsilent
  · cases hpc with
    | ring hcall | give hcall | empty hcall | retry hcall | retryGive hcall | retryEmpty hcall =>
        exact absurd hcall hcalled
    | shift => exact absurd rfl (hshift _)
    | _ => exact absurd rfl hsilent

/-- A ring that is owned stays so until it is linked or discarded. -/
theorem owner_keeps (hkm : k ≤ m) (hm : m ≤ n) (howner : (trail T r k).2.owner p = some i) :
  (trail T r m).2.owner p = some i ∨ p ∈ (trail T r m).2.chain ∨ Lost (trail T r m) p
  := by
  induction m, hkm using Nat.le_induction with
  | base => exact Or.inl howner
  | succ m hkm ih =>
      have hgrows := (change hD r hm).grows
      rcases ih (Nat.le_of_succ_le hm) with hold | hmem | hlost
      · cases he : r.tag m with
        | none =>
            rw [trail_rest r hm he]
            exact Or.inl hold
        | some t =>
            obtain ⟨hmem, hlt, -⟩ := (asserts hD r (le_of_lt hm)).1.owned p i hold
            rw [Run.tag_eq_some] at he
            have hnext := trail_act (T := T) r hm he
            cases t with
            | ring q τ =>
                left
                rw [hnext, Trace.next]
                dsimp only
                split
                · exact hold
                · exact (Function.update_of_ne (ne_of_lt hlt) ..).trans hold
            | link q =>
                by_cases hq : p = q
                · right
                  left
                  rw [hnext, hq]
                  exact List.mem_append_right _ (List.mem_singleton_self q)
                · left
                  rw [hnext]
                  exact (Function.update_of_ne hq ..).trans hold
            | discard q =>
                by_cases hq : p = q
                · subst hq
                  obtain ⟨-, -, -, hsame⟩ := linking r hD hm he (Or.inr rfl)
                  right
                  right
                  rw [hnext, hsame rfl]
                  exact ⟨hmem, Function.update_self .., hlt⟩
                · left
                  rw [hnext]
                  exact (Function.update_of_ne hq ..).trans hold
            | _ =>
                left
                rw [hnext]
                exact hold
      · exact Or.inr (Or.inl (hgrows.mem hmem))
      · exact Or.inr (Or.inr (hgrows.lost p hlost))

/-- Who owns a ring is in an enqueue. -/
theorem owner_busy (hk : k ≤ n) (howner : (trail T r k).2.owner p = some i) :
  ∃ x q, (∃ l, (r.conf k).thread i = some (.enqueue (.newRing x q p l))) ∨
    (r.conf k).thread i = some (.enqueue (.link x q p))
  := by
  induction k with
  | zero => cases howner
  | succ k ih =>
      have hstep := r.step k hk
      by_cases hold : (trail T r k).2.owner p = some i
      · obtain ⟨x, q, hpc⟩ := ih (Nat.le_of_succ_le hk) hold
        by_cases hi : i = r.who k
        · subst hi
          cases he : r.event k with
          | call o =>
              rw [he] at hstep
              obtain ⟨hidle, -⟩ := hstep.call_inv
              rcases hpc with ⟨l, hl⟩ | hl
              · cases hidle.symm.trans hl
              · cases hidle.symm.trans hl
          | ret v =>
              rw [he] at hstep
              obtain ⟨l', hl', hv, -⟩ := hstep.ret_inv
              rcases hpc with ⟨l, hl⟩ | hl
              · obtain rfl := Option.some.inj (hl'.symm.trans hl)
                cases hv
              · obtain rfl := Option.some.inj (hl'.symm.trans hl)
                cases hv
          | act t =>
              rw [he] at hstep
              obtain ⟨l', ch, s, l'', hl', hs, hc⟩ := hstep.act_inv
              rw [hc, Config.put_thread_self]
              have hnext := trail_act (T := T) r hk he
              rcases hpc with ⟨l, hl⟩ | hl
              · obtain rfl := Option.some.inj (hl'.symm.trans hl)
                rcases step_inv hD hs with ⟨pc, pc', heq, rfl, hpc⟩ | ⟨pc, pc', heq, -⟩
                · cases heq
                  cases hpc with
                  | newRing => exact ⟨x, q, Or.inl ⟨_, rfl⟩⟩
                  | filled => exact ⟨x, q, Or.inr rfl⟩
                · cases heq
              · obtain rfl := Option.some.inj (hl'.symm.trans hl)
                rcases step_inv hD hs with ⟨pc, pc', heq, rfl, hpc⟩ | ⟨pc, pc', heq, -⟩
                · cases heq
                  rw [hnext] at howner
                  cases hpc with
                  | link => cases (Function.update_self ..).symm.trans howner
                  | discard => cases (Function.update_self ..).symm.trans howner
                · cases heq
        · rw [hstep.other hi]
          exact ⟨x, q, hpc⟩
      · -- the ring has just been allocated
        cases he : r.tag k with
        | none =>
            rw [trail_rest r hk he] at howner
            exact absurd howner hold
        | some t =>
            rw [Run.tag_eq_some] at he
            rw [he] at hstep
            obtain ⟨l, ch, s, l', hl, hs, hc⟩ := hstep.act_inv
            rw [trail_act r hk he] at howner
            cases t with
            | ring q τ =>
                rw [Trace.next] at howner
                dsimp only at howner
                split at howner
                case isTrue => exact absurd howner hold
                case isFalse hfresh =>
                  obtain ⟨rfl, hi⟩ := Tickets.Course.eq_of_update hold howner
                  obtain rfl := Option.some.inj hi
                  rw [hc, Config.put_shared] at hfresh
                  rw [hc, Config.put_thread_self]
                  rcases step_inv hD hs with ⟨pc, pc', rfl, rfl, hpc⟩ | ⟨pc, pc', rfl, rfl, hpc⟩
                  · cases hpc with
                    | ring hcall | ok hcall | newRing hcall | filled hcall =>
                        obtain ⟨_, _, -, rfl, -⟩ := call_eq_some.mp hcall
                        exact absurd rfl hfresh
                    | @closed x q _ _ _ _ hcall =>
                        obtain ⟨_, _, -, rfl, -⟩ := call_eq_some.mp hcall
                        exact ⟨x, q, Or.inl ⟨_, rfl⟩⟩
                  · cases hpc with
                    | ring hcall | give hcall | empty hcall | retry hcall | retryGive hcall
                    | retryEmpty hcall =>
                        obtain ⟨_, _, -, rfl, -⟩ := call_eq_some.mp hcall
                        exact absurd rfl hfresh
            | link q | discard q =>
                by_cases hq : p = q
                · subst hq
                  cases (Function.update_self ..).symm.trans howner
                · exact absurd ((Function.update_of_ne hq ..).symm.trans howner) hold
            | _ => exact absurd howner hold

/-- When a ring is linked one item waits in it, that of the enqueue which links it. -/
theorem ringItems_linked (hk : k < n) (he : r.event k = .act (.link p)) :
  ∃ x a t m, r.Calls (r.who k) (.enqueue x) a ∧ r.Within (r.who k) a k ∧
    Placed T r (r.who k) x a k p t m ∧ ringItems T r k p = [x] ∧
    ∀ u y, u < (tickets T (trail T r k) p).tail → awaited T r p u = some y → u = t
  := by
  have hkn := le_of_lt hk
  obtain ⟨x, q, hl, -⟩ := linking r hD hk he (Or.inl rfl)
  obtain ⟨y, a, hcalls, hwithin, rfl, t, m, hplaced⟩ := progress hD r hkn hl
  obtain ⟨hinv, hknows⟩ := asserts hD r hkn
  have hcourse := course hD r p
  obtain ⟨howner, hnotin⟩ :
      (trail T r k).2.owner p = some (r.who k) ∧ p ∉ (trail T r k).2.chain := by
    have hself := hknows (r.who k)
    rw [hl] at hself
    obtain ⟨-, -, -, -, howner⟩ := hself
    exact ⟨howner, (hinv.owned p _ howner).1⟩
  have hbefore : ∀ {l}, l ≤ k → p ∉ (trail T r l).2.chain :=
    fun hlk hmem => hnotin ((grows hD r hlk hkn).mem hmem)
  have hins := ringTag_eq_some.mpr hplaced.install.2.2
  have hmk := hplaced.before
  obtain ⟨d, hdm, -, hdraw⟩ := hcourse.install_cause hplaced.install.1 hins
  obtain ⟨⟨-, ht⟩, hT⟩ := hcourse.step d (hdm.trans hplaced.install.1) _ hdraw
  have hfull := hcourse.full_of_install hplaced.install.1 le_rfl hins
  have honly : ∀ u y, u < (tickets T (trail T r k) p).tail → awaited T r p u = some y → u = t := by
    intro u y htail hu
    by_contra hne
    have hfull' := awaited_eq_some.mp hu
    obtain ⟨m', hm', hins'⟩ := hcourse.full_cause le_rfl hfull'
    have hlater := hcourse.later hkn le_rfl
    -- the other item too has been installed before the ring is linked
    have hm'k : m' < k := by
      cases henq : (tickets T (trail T r k) p).enq u with
      | free => cases (hlater.skipped u (Or.inl htail) henq).symm.trans hfull'
      | gone => cases (hlater.gone u henq).symm.trans hfull'
      | full z =>
          obtain ⟨l, hlk, hl'⟩ := hcourse.full_cause hkn henq
          obtain rfl := hcourse.install_unique (hlk.trans hk) hm' hl' hins'
          exact hlk
      | held j z =>
          obtain ⟨l, l₁, hl', hin, -⟩ := held_inside hD r hkn (Or.inl ⟨z, henq⟩)
          have hj := hknows j
          rw [hl'] at hj
          rcases hj.mem hin with hmem | hown
          · exact absurd hmem hnotin
          · obtain rfl : j = r.who k := Option.some.inj (hown.symm.trans howner)
            obtain rfl := Option.some.inj (hl'.symm.trans hl)
            cases hin
    have hact : r.Acts (r.who m') (.ring p (.install u y)) m' :=
      ⟨hm', rfl, ringTag_eq_some.mp hins'⟩
    have hown : (trail T r m').2.owner p = some (r.who m') := by
      obtain ⟨pc, hpc, -, hcase⟩ := install_arg hD r hact
      have hself := (asserts hD r (le_of_lt hm')).2 (r.who m')
      rw [hpc] at hself
      rcases hcase with ⟨l₂, rfl⟩ | ⟨q', l₂, rfl⟩
      · exact absurd hself.2.2.1 (hbefore (le_of_lt hm'k))
      · exact hself.2.2.2.2.1
    -- and by the same thread
    have hstays : ∀ {l}, m' ≤ l → l ≤ k → (trail T r l).2.owner p = some (r.who m') := by
      intro l hml hlk
      rcases owner_keeps r hD hml (hlk.trans hkn) hown with hown | hmem | hlost
      · exact hown
      · exact absurd hmem (hbefore hlk)
      · cases ((grows hD r hlk hkn).lost p hlost).owner.symm.trans howner
    have hsame : r.who m' = r.who k :=
      Option.some.inj ((hstays (le_of_lt hm'k) le_rfl).symm.trans howner)
    have ham' : a < m' := by
      by_contra hle
      have hstep := r.step a hcalls.1
      rw [hcalls.2.1, hcalls.2.2] at hstep
      obtain ⟨hidle, -⟩ := hstep.call_inv
      obtain ⟨_, _, ⟨_, hbusy⟩ | hbusy⟩ := owner_busy r hD (le_of_lt hcalls.1)
        (hstays (not_lt.mp hle) (le_of_lt hwithin.1))
      · rw [hsame] at hbusy
        cases hidle.symm.trans hbusy
      · rw [hsame] at hbusy
        cases hidle.symm.trans hbusy
    rw [hsame] at hact
    rcases hplaced.others p u y m' ham' hm'k hact with rfl | ⟨-, hlost⟩
    · cases hins'.symm.trans hins
      exact hne rfl
    · cases hlost.owner.symm.trans howner
  refine ⟨x, a, t, m, hcalls, hwithin, hplaced, Tickets.waiting_eq_singleton ?_ ?_
    (awaited_eq_some.mpr hfull) ?_, honly⟩
  · -- no dequeue has come to the ring
    by_contra hlt
    have hstart : t < (tickets T (trail T r 0) p).head := by
      rcases hcourse.drawHead_cause hkn (not_le.mp hlt) with hlt | ⟨l, hlk, hdraw'⟩
      · exact hlt
      · have hreached := reached_of_drawHead r hD (hlk.trans hk) (ringTag_eq_some.mp hdraw')
        exact absurd hreached.mem (hbefore (le_of_lt hlk))
    have htail := (hcourse.later (Nat.zero_le d) (le_of_lt (hdm.trans hplaced.install.1))).tail
    obtain ⟨s, hs⟩ := hcourse.start
    rw [hs] at hstart htail
    exact absurd (lt_of_lt_of_le hstart (htail.trans (le_of_eq ht.symm))) (lt_irrefl t)
  · by_contra hge
    have hfree := (hcourse.inv hkn).enq t (not_lt.mp hge)
    cases hfree.symm.trans (hcourse.full_of_install hmk hkn hins)
  · intro u _ htail hne
    cases hu : awaited T r p u with
    | none => rfl
    | some y => exact absurd (honly u y htail hu) hne

/-- A ring that is linked brings its item to the end of the list. -/
theorem items_link (hk : k < n) (he : r.event k = .act (.link p)) :
  items T r (k + 1) = items T r k ++ ringItems T r k p
  := by
  have hnot : ∀ q τ, r.event k ≠ .act (.ring q τ) := by
    intro q τ he'
    cases he.symm.trans he'
  have hchain : (trail T r (k + 1)).2.chain = (trail T r k).2.chain ++ [p] := by
    rw [trail_act r hk he]
    rfl
  rw [items, hchain, List.flatMap_append, List.flatMap_singleton,
    flatMap_ringItems_rest r hD hk fun q _ => hnot q, ringItems_rest r hD hk (hnot p)]
  rfl

end RingQueue
