import ConcurrentQueues.RingQueue.Chain

/-!
# Runs of a queue of rings

Along a run the chain grows, and the accesses to one ring are a course of its tickets, so
all that is known about courses applies to each ring by itself.
-/

namespace RingQueue

open Machine

variable {ι ρ ℓ A : Type} {M : Machine ι ρ ℓ (RingOp ℕ) (RingRes ℕ) (RingTag ℕ) Unit}
  {dequeue : ι → Shared ρ → Dequeue ℓ → Option (Shared ρ × Dequeue ℓ × Tag)}

section steps

variable {T : M.TicketRing A} {twice : Bool} {i : ι} {σ : State ι ρ A}

/-- An access by a thread inside a call of a ring is an access to that ring, and no other
access is one. -/
theorem inside_step (hD : Dequeues M T.null twice dequeue) {ch : Unit} {s s' : Shared ρ}
    {l l' : Local ℓ} {t : Tag} (hs : (machine M dequeue).step i ch s l = some (s', l', t)) :
  (l.inside = none ∧ ∀ p τ, t ≠ .ring p τ) ∨
    ∃ p l₁ l₁' τ, l.inside = some (p, l₁) ∧ t = .ring p τ ∧
      M.step i () (s.ring p) l₁ = some (s'.ring p, l₁', τ)
  := by
  have hcalled : ∀ {p : ℕ} {l₁ l₁' : ℓ} {s₁ : Shared ρ}, call M i s p l₁ = some (s₁, l₁', t) →
      ∃ τ, t = .ring p τ ∧ M.step i () (s.ring p) l₁ = some (s₁.ring p, l₁', τ) := by
    intro p l₁ l₁' s₁ hcall
    obtain ⟨x, τ, hstep, rfl, rfl⟩ := call_eq_some.mp hcall
    rw [show (s.setRing p x).ring p = x from Function.update_self ..]
    exact ⟨τ, rfl, hstep⟩
  rcases step_inv hD hs with ⟨pc, pc', rfl, rfl, hpc⟩ | ⟨pc, pc', rfl, rfl, hpc⟩
  · cases hpc with
    | ring hcall | ok hcall | closed hcall | newRing hcall | filled hcall =>
        obtain ⟨τ, ht, hstep⟩ := hcalled hcall
        exact Or.inr ⟨_, _, _, τ, rfl, ht, hstep⟩
    | _ => exact Or.inl ⟨rfl, nofun⟩
  · cases hpc with
    | ring hcall | give hcall | empty hcall | retry hcall | retryGive hcall | retryEmpty hcall =>
        obtain ⟨τ, ht, hstep⟩ := hcalled hcall
        exact Or.inr ⟨_, _, _, τ, rfl, ht, hstep⟩
    | _ => exact Or.inl ⟨rfl, nofun⟩

theorem inside_result {l : Local ℓ} {y : ℕ × ℓ} (hl : l.inside = some y) :
  (machine M dequeue).result l = none
  := by
  cases l with
  | enqueue pc =>
      cases pc with
      | done x => cases hl
      | _ => rfl
  | dequeue pc =>
      cases pc with
      | refused x => cases hl
      | done x => cases hl
      | _ => rfl

theorem Knows.inside {l : Option (Local ℓ)} (hl : Knows T twice i σ l) :
  Inside T i σ (l.bind Local.inside)
  := by
  cases l with
  | none => exact hl
  | some l =>
      cases l with
      | enqueue pc => exact hl.1
      | dequeue pc => exact hl.1

/-- A thread inside a call of a ring is in a ring of the chain or in one of its own. -/
theorem Knows.mem {l : Local ℓ} {p : ℕ} {l₁ : ℓ} (hl : Knows T twice i σ (some l))
    (hin : l.inside = some (p, l₁)) :
  p ∈ σ.2.chain ∨ σ.2.owner p = some i
  := by
  cases l with
  | enqueue pc =>
      obtain ⟨-, hpc⟩ := hl
      cases pc with
      | ring x q l =>
          cases hin
          exact Or.inl hpc.2.1
      | newRing x p q l =>
          cases hin
          obtain ⟨-, -, -, hq, -⟩ := hpc
          exact Or.inr hq
      | _ => cases hin
  | dequeue pc =>
      obtain ⟨-, hpc⟩ := hl
      cases pc with
      | ring item q l =>
          cases hin
          exact Or.inl hpc.2.mem
      | retry item q next l =>
          cases hin
          exact Or.inl hpc.2.1.reached.mem
      | _ => cases hin

/-- The holder of a tail ticket is in an enqueue of the item. -/
theorem Knows.enqueuing {p t x : ℕ} {l : Local ℓ} {l₁ : ℓ} (hl : Knows T twice i σ (some l))
    (hin : l.inside = some (p, l₁)) (hheld : T.enq l₁ = some (t, x)) :
  ∃ pc, l = .enqueue pc ∧ ((∃ l₂, pc = .ring x p l₂) ∨ ∃ q l₂, pc = .newRing x q p l₂)
  := by
  have hitem : ∀ {y}, Enqueuing T y l₁ → x = y := fun h => h.2 x (T.item_enq hheld)
  have hnot : T.enqueuing l₁ ≠ false := by
    intro hdeq
    rw [T.dequeuing_enq hdeq] at hheld
    cases hheld
  cases l with
  | enqueue pc =>
      obtain ⟨-, hpc⟩ := hl
      refine ⟨pc, rfl, ?_⟩
      cases pc with
      | ring y q l =>
          cases hin
          obtain rfl := hitem hpc.2.2
          exact Or.inl ⟨_, rfl⟩
      | newRing y q n l =>
          cases hin
          obtain ⟨-, -, -, -, hy, -⟩ := hpc
          obtain rfl := hitem hy
          exact Or.inr ⟨q, _, rfl⟩
      | _ => cases hin
  | dequeue pc =>
      obtain ⟨-, hpc⟩ := hl
      cases pc with
      | ring item q l =>
          cases hin
          exact absurd hpc.1 hnot
      | retry item q next l =>
          cases hin
          exact absurd hpc.1 hnot
      | _ => cases hin

/-- The holder of a head ticket is in a dequeue, and the head has reached the ring. -/
theorem Knows.dequeuing {p t : ℕ} {l : Local ℓ} {l₁ : ℓ} (hl : Knows T twice i σ (some l))
    (hin : l.inside = some (p, l₁)) (hheld : T.deq l₁ = some t) :
  ∃ pc, l = .dequeue pc ∧ Reached σ p ∧
    ((∃ item l₂, pc = .ring item p l₂) ∨ ∃ item q l₂, pc = .retry item p q l₂)
  := by
  have hnot : T.enqueuing l₁ ≠ true := by
    intro henq
    rw [T.enqueuing_deq henq] at hheld
    cases hheld
  cases l with
  | enqueue pc =>
      obtain ⟨-, hpc⟩ := hl
      cases pc with
      | ring y q l =>
          cases hin
          exact absurd hpc.2.2.1 hnot
      | newRing y q n l =>
          cases hin
          obtain ⟨-, -, -, -, hy, -⟩ := hpc
          exact absurd hy.1 hnot
      | _ => cases hin
  | dequeue pc =>
      obtain ⟨-, hpc⟩ := hl
      refine ⟨pc, rfl, ?_⟩
      cases pc with
      | ring item q l =>
          cases hin
          exact ⟨hpc.2, Or.inl ⟨item, _, rfl⟩⟩
      | retry item q next l =>
          cases hin
          exact ⟨hpc.2.1.reached, Or.inr ⟨item, next, _, rfl⟩⟩
      | _ => cases hin

end steps

section runs

variable [DecidableEq ι] {n : ℕ}

/-- The queue before step `k`, with its history. -/
def trail (T : M.TicketRing A) (r : (machine M dequeue).Run n) (k : ℕ) : State ι ρ A :=
  ((r.conf k).shared, r.trail (ghost T dequeue) k)

/-- What step `k` does to the tickets of ring `p`. -/
def ringTag (r : (machine M dequeue).Run n) (p k : ℕ) : Option (RingTag ℕ) :=
  match r.tag k with
  | some (.ring q τ) => if q = p then some τ else none
  | _ => none

theorem ringTag_eq_some {r : (machine M dequeue).Run n} {p k : ℕ} {τ : RingTag ℕ} :
  ringTag r p k = some τ ↔ r.event k = .act (.ring p τ)
  := by
  rw [ringTag, ← Run.tag_eq_some]
  cases r.tag k with
  | none => simp
  | some t =>
      cases t with
      | ring q τ' => simp
      | _ => simp

variable {T : M.TicketRing A} {twice : Bool} (hD : Dequeues M T.null twice dequeue)
  (r : (machine M dequeue).Run n) {i j : ι} {k m p t x : ℕ}

include hD

/-- What the outline asserts along the run. -/
theorem asserts (hk : k ≤ n) :
  Inv T twice (trail T r k) ∧ ∀ i, Knows T twice i (trail T r k) ((r.conf k).thread i)
  := (outline hD).sound (r.lift (ghost T dequeue) fun _ _ => trivial) k hk

omit hD in
theorem trail_act {t : Tag} (hk : k < n) (ht : r.event k = .act t) :
  trail T r (k + 1) = ((r.conf (k + 1)).shared,
    (trail T r k).2.next T (r.who k) (r.conf k).shared (r.conf (k + 1)).shared t)
  := by
  have hstep := r.step k hk
  rw [ht] at hstep
  obtain ⟨l, ch, s, l', hbusy, -, hc⟩ := hstep.act_inv
  rw [trail, Run.trail, ht, hbusy, hc, Config.put_thread_self]
  rfl

omit hD in
theorem trail_rest (hk : k < n) (ht : r.tag k = none) :
  trail T r (k + 1) = trail T r k
  := by
  have hshared : (r.conf (k + 1)).shared = (r.conf k).shared := by
    rcases r.rests_or_acts hk with ⟨-, hrest⟩ | ⟨t, -, -, he⟩
    · exact hrest
    · cases ht.symm.trans (Run.tag_eq_some.mpr he)
  rw [trail, trail, hshared, Run.trail]
  cases he : r.event k with
  | act τ =>
      have hsome := (Run.tag_eq_some (r := r)).mpr he
      cases ht.symm.trans hsome
  | call o => rfl
  | ret v => rfl

theorem change (hk : k < n) :
  Change T twice (r.who k) (trail T r k) (trail T r (k + 1))
  := by
  obtain ⟨hinv, hknows⟩ := asserts hD r (le_of_lt hk)
  cases ht : r.tag k with
  | none =>
      rw [trail_rest r hk ht]
      exact .stay hinv
  | some t =>
      rw [Run.tag_eq_some] at ht
      have hstep := r.step k hk
      rw [ht] at hstep
      obtain ⟨l, ch, s, l', hbusy, hs, hc⟩ := hstep.act_inv
      have hself := hknows (r.who k)
      rw [hbusy] at hself
      have hlegal := r.legal (k + 1) hk
      have hshared : (r.conf (k + 1)).shared = s := by rw [hc, Config.put_shared]
      rw [trail_act r hk ht]
      rw [hshared] at hlegal ⊢
      exact (step_spec hD hinv hself (r.legal k (le_of_lt hk)) hlegal hs).1

theorem grows (hkm : k ≤ m) (hm : m ≤ n) :
  Grows T (trail T r k) (trail T r m)
  := by
  induction m, hkm using Nat.le_induction with
  | base => apply Grows.refl
  | succ m hkm ih => exact (ih (Nat.le_of_succ_le hm)).trans (change hD r hm).grows

/-- An access to a ring does to its tickets what its tag says. -/
theorem ring_act {τ : RingTag ℕ} (hk : k < n) (hτ : r.event k = .act (.ring p τ)) :
  ∃ l l₁ l₁', (r.conf k).thread (r.who k) = some l ∧ l.inside = some (p, l₁) ∧
    M.step (r.who k) () ((r.conf k).shared.ring p) l₁ =
      some ((r.conf (k + 1)).shared.ring p, l₁', τ) ∧
    (tickets T (trail T r k) p).Ok (r.who k) τ ∧ Tickets.Draws (T.enq l₁) (T.deq l₁) τ ∧
    tickets T (trail T r (k + 1)) p = (tickets T (trail T r k) p).apply (r.who k) τ
  := by
  obtain ⟨hinv, hknows⟩ := asserts hD r (le_of_lt hk)
  have hstep := r.step k hk
  rw [hτ] at hstep
  obtain ⟨l, ch, s, l', hbusy, hs, hc⟩ := hstep.act_inv
  have hself := hknows (r.who k)
  rw [hbusy] at hself
  have hin : Inside T (r.who k) (trail T r k) l.inside := hself.inside
  have hshared : (r.conf (k + 1)).shared = s := by rw [hc, Config.put_shared]
  rcases inside_step hD hs with ⟨-, hnot⟩ | ⟨q, l₁, l₁', τ', hq, ht, hs₁⟩
  · exact absurd rfl (hnot p τ)
  · cases ht
    rw [hq] at hin
    have hlt : p < (r.conf k).shared.fresh := by
      rcases hself.mem hq with hp | hp
      · exact hinv.below p hp
      · exact (hinv.owned p _ hp).2.1
    obtain ⟨hok, hdraw, hnext⟩ := T.sound.step (hinv.ring p) hin.self
      (r.legal k (le_of_lt hk) p hlt) hs₁
    rw [← hshared] at hs₁ hnext
    refine ⟨l, l₁, l₁', hbusy, hq, hs₁, hok, hdraw, ?_⟩
    rw [trail_act r hk hτ]
    exact (congrArg T.tickets (Function.update_self ..)).trans hnext

/-- The accesses to one ring are a course of its tickets. -/
theorem course (p : ℕ) :
  Tickets.Course n (fun k => tickets T (trail T r k) p) r.who (ringTag r p)
  := by
  constructor
  case start => exact T.sound.start
  case step =>
    intro k hk τ hτ
    rw [ringTag_eq_some] at hτ
    obtain ⟨-, -, -, -, -, -, hok, -, hnext⟩ := ring_act hD r hk hτ
    exact ⟨hok, hnext⟩
  case rest =>
    intro k hk hnone
    have hnot : ∀ τ, r.event k ≠ .act (.ring p τ) := by
      intro τ hτ
      cases hnone.symm.trans (ringTag_eq_some.mpr hτ)
    cases ht : r.tag k with
    | none => simp only [trail_rest r hk ht]
    | some t =>
        rw [Run.tag_eq_some] at ht
        simp only [trail_act r hk ht]
        cases t with
        | ring q τ =>
            have hqp : p ≠ q := by
              rintro rfl
              exact hnot τ ht
            exact congrArg T.tickets (Function.update_of_ne hqp ..)
        | _ => rfl

/-- A thread that holds a ticket is inside a call of the ring. -/
theorem held_inside (hk : k ≤ n)
    (hheld : (∃ x, (tickets T (trail T r k) p).enq t = .held i x) ∨
      (tickets T (trail T r k) p).deq t = .held i) :
  ∃ l l₁, (r.conf k).thread i = some l ∧ l.inside = some (p, l₁) ∧
    (tickets T (trail T r k) p).Holding i (T.enq l₁) (T.deq l₁)
  := by
  have hin := ((asserts hD r hk).2 i).inside p
  have hnone : ¬ (tickets T (trail T r k) p).Holding i none none := by
    intro hold
    rcases hheld with ⟨x, hx⟩ | hx
    · cases (hold.enq t x).mp hx
    · cases (hold.deq t).mp hx
  cases hl : (r.conf k).thread i with
  | none =>
      rw [hl] at hin
      exact absurd (T.sound.knows hin) hnone
  | some l =>
      rw [hl] at hin
      cases hy : l.inside with
      | none =>
          rw [Option.bind_some, hy] at hin
          exact absurd (T.sound.knows hin) hnone
      | some y =>
          obtain ⟨q, l₁⟩ := y
          rw [Option.bind_some, hy, within] at hin
          split at hin
          case isTrue heq =>
            subst heq
            exact ⟨l, l₁, rfl, hy, T.sound.knows hin⟩
          case isFalse => exact absurd (T.sound.knows hin) hnone

/-- A thread that holds a ticket accesses its ring, and draws no other ticket. -/
theorem busy (hk : k < n)
    (hheld : (∃ x, (tickets T (trail T r k) p).enq t = .held (r.who k) x) ∨
      (tickets T (trail T r k) p).deq t = .held (r.who k)) :
  ∃ τ, r.event k = .act (.ring p τ) ∧ ¬ τ.Draws
  := by
  obtain ⟨hinv, hknows⟩ := asserts hD r (le_of_lt hk)
  obtain ⟨l, l₁, hl, hin, hold⟩ := held_inside hD r (le_of_lt hk) hheld
  have hstep := r.step k hk
  cases he : r.event k with
  | call o =>
      rw [he] at hstep
      obtain ⟨hidle, -, -⟩ := hstep.call_inv
      cases hidle.symm.trans hl
  | ret v =>
      rw [he] at hstep
      obtain ⟨l', hl', hv, -⟩ := hstep.ret_inv
      obtain rfl := Option.some.inj (hl'.symm.trans hl)
      rw [inside_result hin] at hv
      cases hv
  | act t' =>
      rw [he] at hstep
      obtain ⟨l', ch, s, l'', hl', hs, -⟩ := hstep.act_inv
      obtain rfl := Option.some.inj (hl'.symm.trans hl)
      rcases inside_step hD hs with ⟨hnone, -⟩ | ⟨q, l₂, l₂', τ, hq, rfl, -⟩
      · cases hnone.symm.trans hin
      · cases hq.symm.trans hin
        refine ⟨τ, rfl, fun hdraws => ?_⟩
        obtain ⟨l₃, l₄, -, hl₃, hin₃, -, -, hdraw, -⟩ := ring_act hD r hk he
        obtain rfl := Option.some.inj (hl₃.symm.trans hl)
        cases hin₃.symm.trans hin
        have hfree : T.enq l₁ = none ∧ T.deq l₁ = none := by
          cases τ with
          | drawTail u y => exact hdraw
          | drawHead u => exact hdraw
          | _ => cases hdraws
        rcases hheld with ⟨x, hx⟩ | hx
        · cases hfree.1.symm.trans ((hold.enq t x).mp hx)
        · cases hfree.2.symm.trans ((hold.deq t).mp hx)

end runs

end RingQueue
