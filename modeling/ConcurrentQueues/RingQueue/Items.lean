import ConcurrentQueues.RingQueue.Runs
import Mathlib.Logic.Relation

/-!
# The items of a queue of rings

What becomes of the items that are enqueued. An item is put into a ring with a ticket, at
the last installation of its call; rings in which the call has installed the item before
have been discarded. From there a dequeue takes it that has drawn the head ticket of the
same number.
-/

namespace RingQueue

open Machine

variable {ι ρ ℓ A : Type} {M : Machine ι ρ ℓ (RingOp ℕ) (RingRes ℕ) (RingTag ℕ) Unit}
  {dequeue : ι → Shared ρ → Dequeue ℓ → Option (Shared ρ × Dequeue ℓ × Tag)}

/-- The ring `p` is the head or is reached from it through `next`. -/
def Shared.Reaches (s : Shared ρ) (p : ℕ) : Prop :=
  Relation.ReflTransGen (fun p q => s.next p = some q) s.head p

/-- When no ring is linked behind the head, no other ring is reached. -/
theorem Shared.Reaches.eq_head {s : Shared ρ} {p : ℕ} (h : s.Reaches p)
    (hnext : s.next s.head = none) :
  p = s.head
  := by
  rcases h.cases_head with heq | ⟨q, hq, -⟩
  · exact heq.symm
  · cases hnext.symm.trans hq

/-- The head has left the ring `p`. -/
def Shared.Left (s : Shared ρ) (p : ℕ) : Prop :=
  Relation.TransGen (fun p q => s.next p = some q) p s.head

section claims

variable [DecidableEq ι] {n : ℕ} (r : (machine M dequeue).Run n)

/-- The enqueue of `x` which thread `i` calls at step `a` and which returns at `b` has put the
item into ring `p` with ticket `t` at step `m`, and has not installed anything since. -/
structure Stores (i : ι) (x a b p t m : ℕ) : Prop where
  returns : r.Returns i (.enqueue x) a .enqueued b
  after : a < m
  before : m < b
  install : r.Acts i (.ring p (.install t x)) m
  last : ∀ q u y l, l < b → r.Acts i (.ring q (.install u y)) l → l ≤ m

/-- By step `k` a dequeue has removed the item `x` of ticket `t` from its cell in ring `p`. -/
def Removed (x p t k : ℕ) : Prop := ∃ j, ∃ l < k, r.Acts j (.ring p (.take t x)) l

/-- At step `k` thread `j` is in a call of `dequeue` and holds the head ticket `t` of ring `p`: it
has drawn it in this call, and has since neither drawn another nor settled what comes of
this one. -/
structure Claims (j : ι) (p t k : ℕ) : Prop where
  calls : ∃ out a, r.Calls j (.dequeue out) a ∧ r.Within j a k
  draws : ∃ d < k, r.Acts j (.ring p (.drawHead t)) d ∧ ∀ m, d < m → m < k → r.who m = j →
    ∃ τ, r.event m = .act (.ring p τ) ∧ ¬ τ.Draws ∧ τ.ticket = none

/-- No item is lost: when its enqueue has returned, an item has been removed, or it is in its
cell, in a ring that dequeuers reach or claimed by one of them. -/
def LosesNone (holds : ρ → ℕ → ℕ → Prop) : Prop :=
  ∀ i x a b, r.Returns i (.enqueue x) a .enqueued b → ∀ k, b < k → k ≤ n →
    ∃ p t m, Stores r i x a b p t m ∧ (Removed r x p t k ∨
      holds ((r.conf k).shared.ring p) t x ∧
        ((r.conf k).shared.Reaches p ∨ ∃ j, Claims r j p t k))

/-- A dequeue returns false with good reason: at some moment of its call every item whose enqueue
had returned had been removed, or was in its cell, claimed by some other dequeue. -/
def FalseJustified (holds : ρ → ℕ → ℕ → Prop) : Prop :=
  ∀ i out v c d, r.Returns i (.dequeue out) c (.dequeued false v) d → ∃ k, c < k ∧ k ≤ d ∧
    ∀ j x a b, r.Returns j (.enqueue x) a .enqueued b → b < k →
      ∃ p t m, Stores r j x a b p t m ∧ (Removed r x p t k ∨
        holds ((r.conf k).shared.ring p) t x ∧ ∃ j', j' ≠ i ∧ Claims r j' p t k)

/-- The dequeue which thread `j` calls at step `c` and which returns at `d` returns the item of the
enqueue which thread `i` calls at `a`: it has taken it from the cell where the enqueue had
put it. -/
structure Delivers (i : ι) (a : ℕ) (j : ι) (c d : ℕ) : Prop where
  calls : ∃ x, r.Calls i (.enqueue x) a
  returns : ∃ out v, r.Returns j (.dequeue out) c (.dequeued true v) d
  moves : ∃ p t x y m k, a < m ∧ r.Within i a m ∧ r.Acts i (.ring p (.install t x)) m ∧
    c < k ∧ k < d ∧ r.Acts j (.ring p (.take t y)) k

/-- Items are delivered at most once and in the order in which they came. -/
structure DeliversInOrder : Prop where
  /-- A value that is returned has been given to an enqueue called before. -/
  given : ∀ j out v c d, r.Returns j (.dequeue out) c (.dequeued true v) d →
    ∃ i a, a < d ∧ r.Calls i (.enqueue v) a ∧ Delivers r i a j c d
  /-- No two dequeues return the item of the same enqueue. -/
  once : ∀ i a j c d j' c' d', Delivers r i a j c d → Delivers r i a j' c' d' → j = j' ∧ c = c'
  /-- When an enqueue has returned before the other was called, and the item of the other has
  been returned, it is too late to call a dequeue that returns its item. -/
  fifo : ∀ i x a b i' a' j c d j' c' d', r.Returns i (.enqueue x) a .enqueued b → b < a' →
    Delivers r i' a' j' c' d' → d' < c → ¬ Delivers r i a j c d

end claims

section points

variable {T : M.TicketRing A} {i : ι} {s s' : Shared ρ}

/-- The item an enqueue was called with. -/
def Enqueue.arg : Enqueue ℓ → ℕ
  | .loadTail x | .loadNext x _ | .reloadNext x _ | .casTail x _ _ | .ring x _ _
  | .newRing x _ _ _ | .link x _ _ | .swingTail x _ _ | .done x => x

theorem EnqueueStep.arg {pc pc' : Enqueue ℓ} {t : Tag} (h : EnqueueStep M i s pc s' pc' t) :
  pc'.arg = pc.arg
  := by
  cases h <;> rfl

/-- The local states in a call of `o`. -/
def Serves (o : QueueOp ℕ) : Local ℓ → Prop
  | .enqueue pc => o = .enqueue pc.arg
  | .dequeue _ => ∃ out, o = .dequeue out

end points

section runs

variable [DecidableEq ι] {T : M.TicketRing A} {twice : Bool}
  (hD : Dequeues M T.null twice dequeue) {n : ℕ} (r : (machine M dequeue).Run n)
  {i j : ι} {o : QueueOp ℕ} {a b c d k m p q t u x y : ℕ} {l : Local ℓ}

include hD

/-- A thread in a call is at a point of its operation. -/
theorem serves (hk : k ≤ n) (hl : (r.conf k).thread i = some l) :
  ∃ o a, r.Calls i o a ∧ r.Within i a k ∧ Serves o l
  := by
  have h := r.busy_induction (fun _ o _ _ l => Serves o l)
    (fun i o a _ => by
      cases o with
      | enqueue x => rfl
      | dequeue out => exact ⟨out, rfl⟩)
    (fun i o a k l ch s l' t _ _ hH _ _ hs _ => by
      rcases step_inv hD hs with ⟨pc, pc', rfl, rfl, hpc⟩ | ⟨pc, pc', rfl, rfl, -⟩
      · have ho : o = .enqueue pc.arg := hH
        rw [← hpc.arg] at ho
        exact ho
      · exact hH)
    (fun i o a k l _ _ hH _ _ _ => hH)
  exact h k hk i l hl

/-! ### Tickets -/

/-- A ticket that is held in a call has been drawn in the call. -/
theorem tail_drawn (hcalls : r.Calls i o a) (hm : m ≤ n) (ham : a < m)
    (hheld : (tickets T (trail T r m) p).enq t = .held i x) :
  ∃ e, a < e ∧ e < m ∧ r.Acts i (.ring p (.drawTail t x)) e
  := by
  obtain ⟨e, hem, hi, hdraw, hsince⟩ := (course hD r p).held_since hm hheld
  rw [ringTag_eq_some] at hdraw
  refine ⟨e, ?_, hem, lt_of_lt_of_le hem hm, hi, hdraw⟩
  -- the thread cannot be called while it holds the ticket
  rcases lt_trichotomy a e with hlt | rfl | hlt
  · exact hlt
  · cases hcalls.2.2.symm.trans hdraw
  · have hmid := hsince a hlt (le_of_lt ham)
    rw [← hcalls.2.1] at hmid
    obtain ⟨τ, hτ, -⟩ := busy hD r hcalls.1 (Or.inl ⟨x, hmid⟩)
    cases hcalls.2.2.symm.trans hτ

theorem head_drawn (hcalls : r.Calls i o a) (hm : m ≤ n) (ham : a < m)
    (hheld : (tickets T (trail T r m) p).deq t = .held i) :
  ∃ e, a < e ∧ e < m ∧ r.Acts i (.ring p (.drawHead t)) e
  := by
  obtain ⟨e, hem, hi, hdraw, hsince⟩ := (course hD r p).deq_held_since hm hheld
  rw [ringTag_eq_some] at hdraw
  refine ⟨e, ?_, hem, lt_of_lt_of_le hem hm, hi, hdraw⟩
  rcases lt_trichotomy a e with hlt | rfl | hlt
  · exact hlt
  · cases hcalls.2.2.symm.trans hdraw
  · have hmid := hsince a hlt (le_of_lt ham)
    rw [← hcalls.2.1] at hmid
    obtain ⟨τ, hτ, -⟩ := busy hD r hcalls.1 (Or.inr hmid)
    cases hcalls.2.2.symm.trans hτ

/-- The holder of a head ticket claims what comes with it. -/
theorem claims_of_held (hk : k ≤ n) (hheld : (tickets T (trail T r k) p).deq t = .held j) :
  Claims r j p t k
  := by
  obtain ⟨l, l₁, hl, hin, hold⟩ := held_inside hD r hk (Or.inr hheld)
  have hknows := (asserts hD r hk).2 j
  rw [hl] at hknows
  obtain ⟨pc, rfl, -⟩ := hknows.dequeuing hin ((hold.deq t).mp hheld)
  obtain ⟨o, a, hcalls, hwithin, out, rfl⟩ := serves hD r hk hl
  refine ⟨⟨out, a, hcalls, hwithin⟩, ?_⟩
  obtain ⟨e, hek, hj, hdraw, hsince⟩ := (course hD r p).deq_held_since hk hheld
  have hact : r.Acts j (.ring p (.drawHead t)) e :=
    ⟨lt_of_lt_of_le hek hk, hj, ringTag_eq_some.mp hdraw⟩
  refine ⟨e, hek, hact, fun m hem hmk hm => ?_⟩
  have hmn := lt_of_lt_of_le hmk hk
  have hmid := hsince m hem (le_of_lt hmk)
  have hnext := hsince (m + 1) (Nat.lt_succ_of_lt hem) hmk
  rw [← hm] at hmid
  obtain ⟨τ, hτ, hnodraw⟩ := busy hD r hmn (Or.inr hmid)
  refine ⟨τ, hτ, hnodraw, ?_⟩
  obtain ⟨l', l₁', -, hl', hin', -, hok, -, happly⟩ := ring_act hD r hmn hτ
  obtain ⟨l'', l₁'', hl'', hin'', hold'⟩ := held_inside hD r (le_of_lt hmn) (Or.inr hmid)
  -- what the thread settles would be this ticket
  cases τ with
  | take u y =>
      have hu := (hold'.deq u).mp hok.1
      obtain rfl := Option.some.inj (hu.symm.trans ((hold'.deq t).mp hmid))
      rw [happly] at hnext
      cases (Function.update_self ..).symm.trans hnext
  | miss u =>
      have hu := (hold'.deq u).mp hok.1
      obtain rfl := Option.some.inj (hu.symm.trans ((hold'.deq t).mp hmid))
      rw [happly] at hnext
      cases (Function.update_self ..).symm.trans hnext
  | install u y =>
      have hknows' := (asserts hD r (le_of_lt hmn)).2 (r.who m)
      rw [hl''] at hknows'
      obtain ⟨pc', rfl, -⟩ := hknows'.dequeuing hin'' ((hold'.deq t).mp hmid)
      obtain ⟨pc'', heq, -⟩ := hknows'.enqueuing hin'' ((hold'.enq u y).mp hok.1)
      cases heq
  | _ => rfl

/-! ### Where an enqueue puts its item -/

/-- All rings in which the call thread `i` made at step `a` has installed anything are lost. -/
def AllLost (T : M.TicketRing A) (r : (machine M dequeue).Run n) (i : ι) (a k : ℕ) : Prop :=
  ∀ q u y l, a < l → l < k → r.Acts i (.ring q (.install u y)) l → Lost (trail T r k) q

/-- The call has put its item into ring `p`, and all rings in which it had installed it before are
lost. -/
structure Placed (T : M.TicketRing A) (r : (machine M dequeue).Run n) (i : ι)
    (x a k p t m : ℕ) : Prop where
  after : a < m
  before : m < k
  install : r.Acts i (.ring p (.install t x)) m
  others : ∀ q u y l, a < l → l < k → r.Acts i (.ring q (.install u y)) l →
    l = m ∨ l < m ∧ Lost (trail T r k) q

/-- What an enqueue has done with its item so far. -/
def Progress (T : M.TicketRing A) (r : (machine M dequeue).Run n) (i : ι) (a k : ℕ) :
    Enqueue ℓ → Prop
  | .link x _ q => ∃ t m, Placed T r i x a k q t m
  | .swingTail x _ _ | .done x => ∃ p t m, Placed T r i x a k p t m ∧ p ∈ (trail T r k).2.chain
  | _ => AllLost T r i a k

theorem AllLost.next (h : AllLost T r i a k) (hk : k < n)
    (hnot : ∀ q u y, ¬ r.Acts i (.ring q (.install u y)) k) :
  AllLost T r i a (k + 1)
  := by
  intro q u y l hal hlk hact
  rcases Nat.lt_succ_iff_lt_or_eq.mp hlk with hlt | rfl
  · exact (change hD r hk).grows.lost q (h q u y l hal hlt hact)
  · exact absurd hact (hnot q u y)

theorem AllLost.place (h : AllLost T r i a k) (hak : a < k)
    (hact : r.Acts i (.ring p (.install t x)) k) :
  Placed T r i x a (k + 1) p t k
  := by
  refine ⟨hak, Nat.lt_succ_self k, hact, fun q u y l hal hlk hl => ?_⟩
  rcases Nat.lt_succ_iff_lt_or_eq.mp hlk with hlt | rfl
  · exact Or.inr ⟨hlt, (change hD r hact.1).grows.lost q (h q u y l hal hlt hl)⟩
  · exact Or.inl rfl

theorem Placed.next (h : Placed T r i x a k p t m) (hk : k < n)
    (hnot : ∀ q u y, ¬ r.Acts i (.ring q (.install u y)) k) :
  Placed T r i x a (k + 1) p t m
  := by
  refine ⟨h.after, Nat.lt_succ_of_lt h.before, h.install, fun q u y l hal hlk hl => ?_⟩
  rcases Nat.lt_succ_iff_lt_or_eq.mp hlk with hlt | rfl
  · exact (h.others q u y l hal hlt hl).imp id
      fun ⟨hlm, hlost⟩ => ⟨hlm, (change hD r hk).grows.lost q hlost⟩
  · exact absurd hl (hnot q u y)

theorem Progress.next {pc : Enqueue ℓ} (h : Progress T r i a k pc) (hk : k < n)
    (hnot : ∀ q u y, ¬ r.Acts i (.ring q (.install u y)) k) :
  Progress T r i a (k + 1) pc
  := by
  cases pc with
  | link x p q =>
      obtain ⟨t, m, h⟩ := h
      exact ⟨t, m, h.next hD r hk hnot⟩
  | swingTail x p q | done x =>
      obtain ⟨p, t, m, h, hp⟩ := h
      exact ⟨p, t, m, h.next hD r hk hnot, (change hD r hk).grows.mem hp⟩
  | _ => exact AllLost.next hD r h hk hnot

/-- What thread `i` installs is the item of its enqueue. -/
theorem install_arg (hact : r.Acts i (.ring p (.install t y)) k) :
  ∃ pc, (r.conf k).thread i = some (.enqueue pc) ∧ pc.arg = y ∧
    ((∃ l₂, pc = .ring y p l₂) ∨ ∃ q l₂, pc = .newRing y q p l₂)
  := by
  obtain ⟨hk, rfl, he⟩ := hact
  obtain ⟨-, -, -, -, -, -, hok, -⟩ := ring_act hD r hk he
  obtain ⟨l, l₁, hl, hin, hold⟩ := held_inside hD r (le_of_lt hk) (Or.inl ⟨y, hok.1⟩)
  have hknows := (asserts hD r (le_of_lt hk)).2 (r.who k)
  rw [hl] at hknows
  obtain ⟨pc, rfl, hpc⟩ := hknows.enqueuing hin ((hold.enq t y).mp hok.1)
  refine ⟨pc, hl, ?_, hpc⟩
  rcases hpc with ⟨l₂, rfl⟩ | ⟨q, l₂, rfl⟩ <;> rfl

theorem progress (hk : k ≤ n) {pc : Enqueue ℓ} (hl : (r.conf k).thread i = some (.enqueue pc)) :
  ∃ x a, r.Calls i (.enqueue x) a ∧ r.Within i a k ∧ pc.arg = x ∧ Progress T r i a k pc
  := by
  have h := r.busy_induction
    (fun i o a k l => ∀ pc, l = .enqueue pc → o = .enqueue pc.arg ∧ Progress T r i a k pc)
    (fun i o a hcalls pc hpc => by
      cases o with
      | enqueue x =>
          cases hpc
          refine ⟨rfl, fun q u y l hal hlk _ => ?_⟩
          exact absurd hal (Nat.not_lt.mpr (Nat.le_of_lt_succ hlk))
      | dequeue out => cases hpc)
    (fun i o a k l ch s l' t hcalls hwithin hH ht hl hs hc pc' hpc' => by
      subst hpc'
      obtain ⟨hk, rfl, he⟩ := ht
      rcases step_inv hD hs with ⟨pc, pc₁, rfl, heq, hpc⟩ | ⟨_, _, -, heq, -⟩
      · cases heq
        obtain ⟨harg, hprog⟩ := hH pc rfl
        refine ⟨by rw [hpc.arg, harg], ?_⟩
        have hnext := trail_act (T := T) r hk he
        have hknows := (asserts hD r (le_of_lt hk)).2 (r.who k)
        rw [hl] at hknows
        obtain ⟨hin, hpoint⟩ := hknows
        -- an access that installs nothing keeps what has been done
        have hkeep : (∀ q u y, t ≠ .ring q (.install u y)) → Progress T r (r.who k) a (k + 1) pc := by
          intro hnot
          apply hprog.next hD r hk
          rintro q u y ⟨-, -, he'⟩
          rw [he] at he'
          cases he'
          exact hnot q u y rfl
        -- a call of a ring that goes on, or is refused, has installed nothing
        have hcalled : ∀ {p : ℕ} {l l' : ℓ} {s₁ : Shared ρ},
            call M (r.who k) (r.conf k).shared p l =
            some (s₁, l', t) → M.result l' ≠ some .ok → ∀ q u y, t ≠ .ring q (.install u y) := by
          rintro p l l' s₁ hcall hres q u y rfl
          obtain ⟨z, τ, hstep, -, heq⟩ := call_eq_some.mp hcall
          cases heq
          exact hres (T.installed hstep)
        -- a call of a ring that succeeds has installed the item
        have hdone : ∀ {p : ℕ} {l l' : ℓ} {s₁ : Shared ρ}, call M (r.who k) (r.conf k).shared p l =
            some (s₁, l', t) → M.result l' = some .ok → ∃ u,
              r.Acts (r.who k) (.ring p (.install u pc.arg)) k := by
          intro p l l' s₁ hcall hres
          obtain ⟨z, τ, hstep, -, rfl⟩ := call_eq_some.mp hcall
          obtain ⟨u, y, rfl⟩ := T.ok hstep hres
          have hact : r.Acts (r.who k) (.ring p (.install u y)) k := ⟨hk, rfl, he⟩
          obtain ⟨pc₂, hpc₂, rfl, -⟩ := install_arg hD r hact
          cases hl.symm.trans hpc₂
          exact ⟨u, hact⟩
        cases hpc with
        | loadTail | follow | enter | reloadNext | swing | late => exact hkeep nofun
        | swingTail | skip => exact hkeep nofun
        | ring hcall hv => exact hkeep (hcalled hcall (by rw [hv]; exact nofun))
        | newRing hcall hv => exact hkeep (hcalled hcall (by rw [hv]; exact nofun))
        | closed hcall hv => exact hkeep (hcalled hcall (by rw [hv]; exact nofun))
        | @ok x p l₁ l₁' s₁ t v hcall hv hne =>
            obtain ⟨-, hp, hl₁⟩ := hpoint
            obtain ⟨z, τ, hstep, -, -⟩ := call_eq_some.mp hcall
            have hok : v = .ok := (T.enqueuing_result (hl₁.step hstep).1 hv).resolve_right hne
            rw [hok] at hv
            obtain ⟨u, hact⟩ := hdone hcall hv
            exact ⟨p, u, k, AllLost.place hD r hprog hwithin.1 hact, (change hD r hk).grows.mem hp⟩
        | @filled x p q l₁ l₁' s₁ t v hcall hv =>
            obtain ⟨-, -, -, -, -, hsolo⟩ := hpoint
            obtain ⟨z, τ, hstep, -, -⟩ := call_eq_some.mp hcall
            rw [T.solo_result (T.solo_step hsolo hstep) hv] at hv
            obtain ⟨u, hact⟩ := hdone hcall hv
            exact ⟨u, k, AllLost.place hD r hprog hwithin.1 hact⟩
        | @link x p q _ =>
            obtain ⟨u, m, hplaced⟩ := hkeep nofun
            refine ⟨q, u, m, hplaced, ?_⟩
            rw [hnext]
            exact List.mem_append_right _ (List.mem_singleton_self q)
        | @discard x p q =>
            obtain ⟨u, m, hplaced⟩ := hkeep nofun
            obtain ⟨-, -, -, hq⟩ := hpoint
            obtain ⟨hmem, hlt, -⟩ := (asserts hD r (le_of_lt hk)).1.owned q _ hq
            intro q' u' y' l hal hlk hact
            rcases hplaced.others q' u' y' l hal hlk hact with rfl | ⟨-, hlost⟩
            · have heq := hact.2.2.symm.trans hplaced.install.2.2
              cases heq
              rw [hnext, hc, Config.put_shared]
              exact ⟨hmem, Function.update_self .., hlt⟩
            · exact hlost
      · cases heq)
    (fun i o a k l _ _ hH hk _ hne pc hpc => by
      obtain ⟨harg, hprog⟩ := hH pc hpc
      exact ⟨harg, hprog.next hD r hk fun q u y hact => hne hact.2.1⟩)
  obtain ⟨o, a, hcalls, hwithin, hH⟩ := h k hk i _ hl
  obtain ⟨rfl, hprog⟩ := hH pc rfl
  exact ⟨pc.arg, a, hcalls, hwithin, rfl, hprog⟩

/-- When an enqueue returns, its item is in a ring of the chain. -/
theorem placed (h : r.Returns i (.enqueue x) a .enqueued b) :
  ∃ p t m, Placed T r i x a b p t m ∧ p ∈ (trail T r b).2.chain
  := by
  obtain ⟨l, hl, hres⟩ := h.result
  cases l with
  | dequeue pc =>
      cases pc with
      | _ => cases hres
  | enqueue pc =>
      obtain ⟨y, a', hcalls, hwithin, harg, hprog⟩ := progress hD r (le_of_lt h.lt) hl
      obtain ⟨rfl, heq⟩ := hcalls.unique h.calls hwithin h.within
      cases heq
      cases pc with
      | done z =>
          obtain rfl : z = x := harg
          exact hprog
      | _ => cases hres

omit hD in
theorem Placed.stores (hplaced : Placed T r i x a b p t m)
    (h : r.Returns i (.enqueue x) a .enqueued b) :
  Stores r i x a b p t m
  := by
  refine ⟨h, hplaced.after, hplaced.before, hplaced.install, fun q u y l hlb hact => ?_⟩
  rcases le_or_gt l a with hla | hal
  · exact hla.trans (le_of_lt hplaced.after)
  · rcases hplaced.others q u y l hal hlb hact with rfl | ⟨hlm, -⟩
    · exact le_rfl
    · exact le_of_lt hlm

/-- Of two rings in which a call installs its item the first one is lost. -/
theorem lost_of_later (hcalls : r.Calls i o a) (hwithin : r.Within i a m) (hak : a < k)
    (hkm : k < m) (hk : r.Acts i (.ring p (.install t x)) k)
    (hm : r.Acts i (.ring q (.install u y)) m) :
  Lost (trail T r m) p
  := by
  obtain ⟨pc, hl, -, hpc⟩ := install_arg hD r hm
  obtain ⟨z, a', hcalls', hwithin', -, hprog⟩ := progress hD r (le_of_lt hm.1) hl
  obtain ⟨rfl, -⟩ := hcalls.unique hcalls' hwithin hwithin'
  have hlost : AllLost T r i a m := by
    rcases hpc with ⟨l₂, rfl⟩ | ⟨q', l₂, rfl⟩
    · exact hprog
    · exact hprog
  exact hlost p t x k hak hkm hk

/-! ### What becomes of an item -/

/-- An installed item has been removed, or it is in its cell and claimed, or no dequeuer has come
to it yet. -/
theorem fate (hact : r.Acts i (.ring p (.install t x)) m) (hmk : m < k) (hk : k ≤ n) :
  Removed r x p t k ∨ T.holds ((r.conf k).shared.ring p) t x ∧
    ((∃ j, (tickets T (trail T r k) p).deq t = .held j) ∨ (tickets T (trail T r k) p).head ≤ t)
  := by
  have hcourse := course hD r p
  have hins := ringTag_eq_some.mpr hact.2.2
  have hfull := hcourse.full_of_install hmk hk hins
  obtain ⟨hinv, -⟩ := asserts hD r hk
  have hsane := hinv.sane p
  have hholds : (tickets T (trail T r k) p).deq t ≠ .took →
      T.holds ((r.conf k).shared.ring p) t x := fun hnot => T.sound.holds (hinv.ring p) hfull hnot
  cases hdeq : (tickets T (trail T r k) p).deq t with
  | took =>
      left
      obtain ⟨l, hlk, y, hl⟩ := hcourse.took_cause hk hdeq
      have hln := lt_of_lt_of_le hlk hk
      obtain ⟨⟨e, hel, he⟩, -⟩ := hcourse.take_cause hln hl
      -- what was taken is what was installed at step `m`
      obtain rfl := hcourse.install_unique (hel.trans hln) hact.1 he hins
      cases he.symm.trans hins
      exact ⟨r.who l, l, hlk, hln, rfl, ringTag_eq_some.mp hl⟩
  | missed => exact absurd hfull (hsane.missed t hdeq x)
  | held j => exact Or.inr ⟨hholds (by rw [hdeq]; exact nofun), Or.inl ⟨j, rfl⟩⟩
  | free =>
      refine Or.inr ⟨hholds (by rw [hdeq]; exact nofun), Or.inr ?_⟩
      by_contra hlt
      obtain ⟨-, hfree⟩ := hsane.passed t (not_le.mp hlt) hdeq
      cases hfree.symm.trans hfull

/-- In the rings the head has left there are only items whose tickets dequeuers have drawn. -/
def LeftEmpty (T : M.TicketRing A) (σ : State ι ρ A) : Prop :=
  ∀ k < σ.2.head, ∀ p, σ.2.chain[k]? = some p → ∀ t x, (tickets T σ p).enq t = .full x →
    t < (tickets T σ p).head

omit [DecidableEq ι] hD in
theorem Inv.leftEmpty {σ : State ι ρ A} (h : Inv T true σ) :
  LeftEmpty T σ
  := by
  intro k hk p hp t x hfull
  by_contra hle
  rcases (h.drained rfl k hk p hp).2 t (not_lt.mp hle) with hfree | hgone
  · cases hfree.symm.trans hfull
  · cases hgone.symm.trans hfull

/-- The rings of the chain from the head on are reached. -/
theorem reaches (hk : k ≤ n) (hle : (trail T r k).2.head ≤ m)
    (hm : (trail T r k).2.chain[m]? = some p) :
  (r.conf k).shared.Reaches p
  := by
  obtain ⟨hinv, -⟩ := asserts hD r hk
  induction m, hle using Nat.le_induction generalizing p with
  | base =>
      obtain rfl := Option.some.inj (hinv.head.symm.trans hm)
      exact .refl
  | succ m hle ih =>
      obtain ⟨hlt, -⟩ := List.getElem?_eq_some_iff.mp hm
      have hlast := List.getElem?_eq_getElem (Nat.lt_of_succ_lt hlt)
      exact (ih hlast).tail ((hinv.next m _ hlast).trans hm)

/-- The head has left the rings before it. -/
theorem left (hk : k ≤ n) {e : ℕ} (he : e < (trail T r k).2.head)
    (hp : (trail T r k).2.chain[e]? = some p) :
  (r.conf k).shared.Left p
  := by
  obtain ⟨hinv, -⟩ := asserts hD r hk
  obtain ⟨hlt, -⟩ := List.getElem?_eq_some_iff.mp hinv.head
  have hall : ∀ c, e < c → c ≤ (trail T r k).2.head → ∀ q, (trail T r k).2.chain[c]? = some q →
      Relation.TransGen (fun p q => (r.conf k).shared.next p = some q) p q := by
    intro c hec
    induction c, hec using Nat.le_induction with
    | base => exact fun _ q hq => .single ((hinv.next e p hp).trans hq)
    | succ c hec ih =>
        intro hc q hq
        have hmid := List.getElem?_eq_getElem (lt_of_lt_of_le (Nat.lt_of_succ_le hc) (le_of_lt hlt))
        exact (ih (Nat.le_of_succ_le hc) _ hmid).tail ((hinv.next c _ hmid).trans hq)
  exact hall _ he le_rfl _ hinv.head

/-- An item that comes to a ring is installed. -/
theorem install_of_full (hk : k < n) (hold : (tickets T (trail T r k) p).enq t ≠ .full x)
    (hnew : (tickets T (trail T r (k + 1)) p).enq t = .full x) :
  r.event k = .act (.ring p (.install t x))
  := by
  have hcourse := course hD r p
  obtain ⟨m, hm, hins⟩ := hcourse.full_cause hk hnew
  rcases Nat.lt_succ_iff_lt_or_eq.mp hm with hlt | rfl
  · exact absurd (hcourse.full_of_install hlt (le_of_lt hk) hins) hold
  · exact ringTag_eq_some.mp hins

omit hD in
/-- The head moves by one ring at a time. -/
theorem head_succ (hk : k < n) :
  (trail T r (k + 1)).2.head ≤ (trail T r k).2.head + 1
  := by
  cases ht : r.tag k with
  | none =>
      rw [trail_rest r hk ht]
      apply Nat.le_succ
  | some t =>
      rw [Run.tag_eq_some] at ht
      rw [trail_act r hk ht]
      cases t with
      | shiftHead q => exact le_rfl
      | _ => exact Nat.le_succ _

/-- The step at which the head leaves a ring. -/
theorem shift_of_head (hk : k < n) {e : ℕ} (hold : (trail T r k).2.head ≤ e)
    (hnew : e < (trail T r (k + 1)).2.head) (hp : (trail T r k).2.chain[e]? = some p) :
  r.event k = .act (.shiftHead p)
  := by
  cases ht : r.tag k with
  | none =>
      rw [trail_rest r hk ht] at hnew
      exact absurd hnew (not_lt.mpr hold)
  | some t =>
      rw [Run.tag_eq_some] at ht
      rw [trail_act r hk ht] at hnew
      have hstep := r.step k hk
      rw [ht] at hstep
      obtain ⟨l, ch, s, l', -, hs, -⟩ := hstep.act_inv
      cases t with
      | shiftHead q =>
          obtain rfl : e = (trail T r k).2.head := le_antisymm (Nat.le_of_lt_succ hnew) hold
          have hhead := (asserts hD r (le_of_lt hk)).1.head
          rcases step_inv hD hs with ⟨pc, pc', rfl, rfl, hpc⟩ | ⟨pc, pc', rfl, rfl, hpc⟩
          · cases hpc with
            | ring hcall | ok hcall | closed hcall | newRing hcall | filled hcall =>
                obtain ⟨_, _, -, -, heq⟩ := call_eq_some.mp hcall
                cases heq
          · cases hpc with
            | ring hcall | give hcall | empty hcall | retry hcall | retryGive hcall
            | retryEmpty hcall =>
                obtain ⟨_, _, -, -, heq⟩ := call_eq_some.mp hcall
                cases heq
            | shift hq =>
                obtain rfl : p = q := (Option.some.inj (hp.symm.trans hhead)).trans hq
                exact ht
      | _ => exact absurd hnew (not_lt.mpr hold)

/-- While the head leaves only empty rings, no item is lost. -/
theorem losesNone (hleft : ∀ k ≤ n, LeftEmpty T (trail T r k)) :
  LosesNone r T.holds
  := by
  intro i x a b h k hbk hk
  obtain ⟨p, t, m, hplaced, hp⟩ := placed hD r h
  refine ⟨p, t, m, hplaced.stores r h, ?_⟩
  have hmk := hplaced.before.trans hbk
  rcases fate hD r hplaced.install hmk hk with hremoved | ⟨hholds, ⟨j, hj⟩ | hle⟩
  · exact Or.inl hremoved
  · exact Or.inr ⟨hholds, Or.inr ⟨j, claims_of_held hD r hk hj⟩⟩
  · refine Or.inr ⟨hholds, Or.inl ?_⟩
    obtain ⟨c, hc⟩ := List.mem_iff_getElem?.mp ((grows hD r (le_of_lt hbk) hk).mem hp)
    have hfull := (course hD r p).full_of_install hmk hk (ringTag_eq_some.mpr hplaced.install.2.2)
    apply reaches hD r hk _ hc
    by_contra hlt
    exact absurd (hleft k hk c (not_le.mp hlt) p hc t x hfull) (not_lt.mpr hle)

/-! ### Seeing the queue empty -/

/-- Thread `i` holds no head ticket, and the head has reached ring `p` and the tail of the ring is
not beyond its head. -/
structure Vacant (T : M.TicketRing A) (i : ι) (σ : State ι ρ A) (p : ℕ) : Prop where
  reached : Reached σ p
  counters : (tickets T σ p).tail ≤ (tickets T σ p).head
  holder : ∀ q t, (tickets T σ q).deq t ≠ .held i

/-- The call thread `i` made at step `a` has seen ring `p` vacant. -/
def SawVacant (T : M.TicketRing A) (r : (machine M dequeue).Run n) (i : ι) (a k p : ℕ) : Prop :=
  ∃ m, a < m ∧ m ≤ k ∧ Vacant T i (trail T r m) p

/-- What a dequeue has seen so far. -/
def Sight (T : M.TicketRing A) (r : (machine M dequeue).Run n) (i : ι) (a k : ℕ) :
    Dequeue ℓ → Prop
  | .ring _ p l => T.seen l → SawVacant T r i a k p
  | .loadNext _ p => SawVacant T r i a k p
  | .refused _ => ∃ p m, a < m ∧ m ≤ k ∧ Vacant T i (trail T r m) p ∧ (trail T r m).1.next p = none
  | _ => True

omit hD in
theorem SawVacant.next (h : SawVacant T r i a k p) :
  SawVacant T r i a (k + 1) p
  := by
  obtain ⟨m, ham, hmk, h⟩ := h
  exact ⟨m, ham, Nat.le_succ_of_le hmk, h⟩

/-- The ring is vacant when a dequeue sees it empty. -/
theorem vacant_of_saw (hk : k < n) (he : r.event k = .act (.ring p (.sawEmpty t)))
    (hreached : Reached (trail T r k) p) :
  Vacant T (r.who k) (trail T r k) p
  := by
  obtain ⟨l, l₁, l₁', hl, hin, hstep, ⟨hmissed, htail⟩, -⟩ := ring_act hD r hk he
  have hsane := (asserts hD r (le_of_lt hk)).1.sane p
  refine ⟨hreached, ?_, fun q u hheld => ?_⟩
  · apply htail.trans
    by_contra hge
    cases hmissed.symm.trans (hsane.deq t (Nat.le_of_lt_succ (not_le.mp hge)))
  · obtain ⟨l', l₂, hl', hin', hold⟩ := held_inside hD r (le_of_lt hk) (Or.inr hheld)
    obtain rfl := Option.some.inj (hl'.symm.trans hl)
    cases hin'.symm.trans hin
    cases (T.saw_deq hstep).symm.trans ((hold.deq u).mp hheld)

/-- What a dequeue sees is seen during its call. -/
theorem sight (hk : k ≤ n) {pc : Dequeue ℓ} (hl : (r.conf k).thread i = some (.dequeue pc)) :
  ∃ o a, r.Calls i o a ∧ r.Within i a k ∧ Sight T r i a k pc
  := by
  have h := r.busy_induction
    (fun i _ a k l => ∀ pc, l = .dequeue pc → Sight T r i a k pc)
    (fun i o a hcalls pc hpc => by
      cases o with
      | enqueue x => cases hpc
      | dequeue out =>
          cases hpc
          trivial)
    (fun i o a k l ch s l' t hcalls hwithin hH ht hl hs hc pc' hpc' => by
      subst hpc'
      obtain ⟨hk, rfl, he⟩ := ht
      rcases step_inv hD hs with ⟨_, _, -, heq, -⟩ | ⟨pc, pc₁, rfl, heq, hpc⟩
      · cases heq
      · cases heq
        have hsight := hH pc rfl
        have hknows := (asserts hD r (le_of_lt hk)).2 (r.who k)
        rw [hl] at hknows
        -- from where the ring has been seen empty it has been seen vacant
        have hcalled : ∀ {p : ℕ} {l l' : ℓ} {s₁ : Shared ρ},
            call M (r.who k) (r.conf k).shared p l =
            some (s₁, l', t) → Reached (trail T r k) p →
            (T.seen l → SawVacant T r (r.who k) a k p) → T.seen l' →
            SawVacant T r (r.who k) a (k + 1) p := by
          intro p l l' s₁ hcall hreached hsaw hseen
          obtain ⟨z, τ, hstep, -, rfl⟩ := call_eq_some.mp hcall
          rcases T.seen_step hstep hseen with hold | ⟨u, rfl⟩
          · exact (hsaw hold).next r
          · exact ⟨k, hwithin.1, Nat.le_succ k, vacant_of_saw hD r hk he hreached⟩
        cases hpc with
        | loadHead item => exact fun hseen => absurd hseen (T.seen_start _)
        | ring hcall hv => exact hcalled hcall hknows.2.2 hsight
        | @empty item p l₁ l₁' s₁ t v hcall hv hnull =>
            obtain ⟨hin, hdeq, hreached⟩ := hknows
            have hlegal := r.legal (k + 1) hk
            rw [hc, Config.put_shared] at hlegal
            obtain ⟨z, τ, rfl, rfl, ht, -, -⟩ := hin.called (asserts hD r (le_of_lt hk)).1
              (Or.inl hreached.mem) (r.legal k (le_of_lt hk)) hlegal hcall
            obtain ⟨y, rfl⟩ := T.dequeuing_result ((T.enqueuing_step ht.step).trans hdeq) hv
            obtain rfl := hnull y rfl
            exact hcalled hcall hreached hsight (T.seen_null ht.knows hv)
        | @refuse item p hnext =>
            obtain ⟨m, ham, hmk, hvacant⟩ := hsight
            refine ⟨p, m, ham, Nat.le_succ_of_le hmk, hvacant, ?_⟩
            -- `next` does not become null again
            cases hm : (trail T r m).1.next p with
            | none => rfl
            | some q =>
                cases hnext.symm.trans ((grows hD r hmk (le_of_lt hk)).next p q hm)
        | _ => trivial)
    (fun i o a k l _ _ hH hk hl hne pc hpc => by
      have hsight := hH pc hpc
      cases pc with
      | ring item p l => exact fun hseen => (hsight hseen).next r
      | loadNext item p => exact hsight.next r
      | refused item =>
          obtain ⟨p, m, ham, hmk, hm⟩ := hsight
          exact ⟨p, m, ham, Nat.le_succ_of_le hmk, hm⟩
      | _ => trivial)
  obtain ⟨o, a, hcalls, hwithin, hH⟩ := h k hk i _ hl
  exact ⟨o, a, hcalls, hwithin, hH pc rfl⟩

/-- While the head leaves only empty rings, a dequeue has reason to return false. -/
theorem falseJustified (hleft : ∀ k ≤ n, LeftEmpty T (trail T r k)) :
  FalseJustified r T.holds
  := by
  intro i out v c d h
  obtain ⟨l, hl, hres⟩ := h.result
  have hpoint : ∃ item, l = .dequeue (.refused item) := by
    cases l with
    | enqueue pc =>
        cases pc with
        | _ => cases hres
    | dequeue pc =>
        cases pc with
        | refused item => exact ⟨item, rfl⟩
        | _ => cases hres
  obtain ⟨item, rfl⟩ := hpoint
  obtain ⟨o, c', hcalls, hwithin, p, k, hck, hkd, hvacant, hnext⟩ := sight hD r (le_of_lt h.lt) hl
  obtain ⟨rfl, -⟩ := hcalls.unique h.calls hwithin h.within
  have hk : k ≤ n := hkd.trans (le_of_lt h.lt)
  obtain ⟨hinv, -⟩ := asserts hD r hk
  refine ⟨k, hck, hkd, fun j x a b hret hbk => ?_⟩
  obtain ⟨q, t, m, hplaced, hq⟩ := placed hD r hret
  refine ⟨q, t, m, hplaced.stores r hret, ?_⟩
  have hmk := hplaced.before.trans hbk
  rcases fate hD r hplaced.install hmk hk with hremoved | ⟨hholds, ⟨j', hj'⟩ | hle⟩
  · exact Or.inl hremoved
  · refine Or.inr ⟨hholds, j', ?_, claims_of_held hD r hk hj'⟩
    rintro rfl
    exact hvacant.holder q t hj'
  · exfalso
    have hfull := (course hD r q).full_of_install hmk hk (ringTag_eq_some.mpr hplaced.install.2.2)
    obtain ⟨e, he⟩ := List.mem_iff_getElem?.mp ((grows hD r (le_of_lt hbk) hk).mem hq)
    obtain ⟨f, hf, hp⟩ := hvacant.reached
    -- ring `p` is the last one, and the head is there
    have hlast : (trail T r k).2.chain.length ≤ f + 1 :=
      List.getElem?_eq_none_iff.mp ((hinv.next f p hp).symm.trans hnext)
    have hlt := (List.getElem?_eq_some_iff.mp he).1
    rcases Nat.lt_or_eq_of_le (Nat.le_of_lt_succ (lt_of_lt_of_le hlt hlast)) with hlt | rfl
    · exact absurd (hleft k hk e (lt_of_lt_of_le hlt hf) q he t x hfull) (not_lt.mpr hle)
    · obtain rfl := Option.some.inj (he.symm.trans hp)
      have hfree := (hinv.sane q).enq t (hvacant.counters.trans hle)
      cases hfree.symm.trans hfull

/-! ### The order of delivery -/

/-- The ring a dequeue tries is at a position the head had not passed when the dequeue was
called. -/
def Ahead (T : M.TicketRing A) (r : (machine M dequeue).Run n) (a k : ℕ) : Dequeue ℓ → Prop
  | .ring _ p _ | .loadNext _ p | .retry _ p _ _ =>
      ∃ c, (trail T r a).2.head ≤ c ∧ (trail T r k).2.chain[c]? = some p
  | _ => True

theorem Ahead.next {pc : Dequeue ℓ} (h : Ahead T r a k pc) (hk : k < n) :
  Ahead T r a (k + 1) pc
  := by
  have hgrows := (change hD r hk).grows
  cases pc with
  | ring item p l | loadNext item p | retry item p q l =>
      obtain ⟨c, hc, hp⟩ := h
      exact ⟨c, hc, hgrows.getElem? hp⟩
  | _ => trivial

theorem ahead (hk : k ≤ n) {pc : Dequeue ℓ} (hl : (r.conf k).thread i = some (.dequeue pc)) :
  ∃ o a, r.Calls i o a ∧ r.Within i a k ∧ Ahead T r a k pc
  := by
  have h := r.busy_induction
    (fun _ _ a k l => ∀ pc, l = .dequeue pc → Ahead T r a k pc)
    (fun i o a hcalls pc hpc => by
      cases o with
      | enqueue x => cases hpc
      | dequeue out =>
          cases hpc
          trivial)
    (fun i o a k l ch s l' t hcalls hwithin hH ht hl hs hc pc' hpc' => by
      subst hpc'
      obtain ⟨hk, rfl, he⟩ := ht
      rcases step_inv hD hs with ⟨_, _, -, heq, -⟩ | ⟨pc, pc₁, rfl, heq, hpc⟩
      · cases heq
      · cases heq
        have hahead := Ahead.next hD r (hH pc rfl) hk
        cases hpc with
        | loadHead item =>
            have hhead := (grows hD r (le_of_lt hwithin.1) (le_of_lt hk)).head
            exact ⟨_, hhead, (change hD r hk).grows.getElem? (asserts hD r (le_of_lt hk)).1.head⟩
        | ring => exact hahead
        | empty => exact hahead
        | again => exact hahead
        | retry => exact hahead
        | _ => trivial)
    (fun i o a k l _ _ hH hk _ _ pc hpc => Ahead.next hD r (hH pc hpc) hk)
  obtain ⟨o, a, hcalls, hwithin, hH⟩ := h k hk i _ hl
  exact ⟨o, a, hcalls, hwithin, hH pc rfl⟩

/-- Where a dequeue takes an item from. -/
theorem take_position (hact : r.Acts j (.ring p (.take t y)) k) (hcalls : r.Calls j o c)
    (hwithin : r.Within j c k) :
  ∃ e, (trail T r c).2.head ≤ e ∧ e ≤ (trail T r k).2.head ∧ (trail T r k).2.chain[e]? = some p
  := by
  obtain ⟨hk, rfl, he⟩ := hact
  obtain ⟨-, -, -, -, -, -, hok, -⟩ := ring_act hD r hk he
  obtain ⟨l, l₁, hl, hin, hold⟩ := held_inside hD r (le_of_lt hk) (Or.inr hok.1)
  obtain ⟨hinv, hknows⟩ := asserts hD r (le_of_lt hk)
  have hself := hknows (r.who k)
  rw [hl] at hself
  obtain ⟨pc, rfl, ⟨f, hf, hp⟩, hpc⟩ := hself.dequeuing hin ((hold.deq t).mp hok.1)
  obtain ⟨o', c', hcalls', hwithin', hahead⟩ := ahead hD r (le_of_lt hk) hl
  obtain ⟨rfl, -⟩ := hcalls.unique hcalls' hwithin hwithin'
  have hpos : ∃ e, (trail T r c).2.head ≤ e ∧ (trail T r k).2.chain[e]? = some p := by
    rcases hpc with ⟨item, l₂, rfl⟩ | ⟨item, q, l₂, rfl⟩
    · exact hahead
    · exact hahead
  obtain ⟨e, hle, hep⟩ := hpos
  obtain rfl := hinv.position hep hp
  exact ⟨e, hle, hf, hep⟩

/-- A dequeue that returns an item has taken it. -/
theorem value_taken (h : r.Returns j (.dequeue y) c (.dequeued true x) d) :
  ∃ p t k, c < k ∧ k < d ∧ r.Acts j (.ring p (.take t x)) k
  := by
  obtain ⟨l, hl, hres⟩ := h.result
  have hpoint : l = .dequeue (.done x) := by
    cases l with
    | enqueue pc =>
        cases pc with
        | _ => cases hres
    | dequeue pc =>
        cases pc with
        | done item =>
            cases hres
            rfl
        | _ => cases hres
  obtain ⟨o, c', k, τ, hcalls, hwithin, hck, hkd, hact, p, t, rfl⟩ := r.cause
    (fun l => l = .dequeue (.done x)) (fun τ => ∃ p t, τ = .ring p (.take t x))
    (fun o ho => by
      cases o with
      | enqueue x => cases ho
      | dequeue out => cases ho)
    (fun i ch s l s' l' τ hs hl' => by
      subst hl'
      rcases step_inv hD hs with ⟨_, _, -, heq, -⟩ | ⟨pc, pc', rfl, heq, hpc⟩
      · cases heq
      · cases heq
        right
        cases hpc with
        | give hcall hv hne | retryGive hcall hv hne =>
            obtain ⟨z, τ, hstep, -, rfl⟩ := call_eq_some.mp hcall
            obtain ⟨t, rfl⟩ := T.sound.value hstep hv hne
            exact ⟨_, t, rfl⟩)
    (le_of_lt h.lt) hl hpoint
  obtain ⟨rfl, -⟩ := hcalls.unique h.calls hwithin h.within
  exact ⟨p, t, k, hck, hkd, hact⟩

/-- What is taken has been installed by an enqueue of the item. -/
theorem take_source (hact : r.Acts j (.ring p (.take t x)) k) :
  ∃ i a m, r.Calls i (.enqueue x) a ∧ r.Within i a m ∧ m < k ∧
    r.Acts i (.ring p (.install t x)) m
  := by
  obtain ⟨⟨m, hmk, hins⟩, -⟩ := (course hD r p).take_cause hact.1 (ringTag_eq_some.mpr hact.2.2)
  have hinstall : r.Acts (r.who m) (.ring p (.install t x)) m :=
    ⟨hmk.trans hact.1, rfl, ringTag_eq_some.mp hins⟩
  obtain ⟨pc, hl, harg, -⟩ := install_arg hD r hinstall
  obtain ⟨y, a, hcalls, hwithin, harg', -⟩ := progress hD r (le_of_lt hinstall.1) hl
  obtain rfl := harg'.symm.trans harg
  exact ⟨r.who m, a, m, hcalls, hwithin, hmk, hinstall⟩

/-- A ring from which an item is taken is not lost. -/
theorem not_lost_of_take (hact : r.Acts j (.ring p (.take t y)) k) (hm : m ≤ n) :
  ¬ Lost (trail T r m) p
  := by
  intro hlost
  obtain ⟨o, c, hcalls, hwithin⟩ := hact.calls
  obtain ⟨e, -, -, he⟩ := take_position hD r hact hcalls hwithin
  have hkn := le_of_lt hact.1
  rcases le_total m k with hmk | hkm
  · exact ((grows hD r hmk hkn).lost p hlost).chain (List.mem_of_getElem? he)
  · exact hlost.chain ((grows hD r hkm hm).mem (List.mem_of_getElem? he))

/-- A call installs once in a ring from which dequeuers take. -/
theorem install_once (hcalls : r.Calls i o a) (hwithin : r.Within i a k) (hwithin' : r.Within i a m)
    (hk : r.Acts i (.ring p (.install t x)) k) (hm : r.Acts i (.ring q (.install u y)) m)
    (hp : ¬ Lost (trail T r m) p) (hq : ¬ Lost (trail T r k) q) :
  k = m
  := by
  rcases lt_trichotomy k m with hlt | heq | hlt
  · exact absurd (lost_of_later hD r hcalls hwithin' hwithin.1 hlt hk hm) hp
  · exact heq
  · exact absurd (lost_of_later hD r hcalls hwithin hwithin'.1 hlt hm hk) hq

/-- A ring from which dequeuers take the item of a call is in the chain when the call returns. -/
theorem install_position (hret : r.Returns i (.enqueue x) a .enqueued b) (hwithin : r.Within i a m)
    (hact : r.Acts i (.ring p (.install t y)) m) (hp : ¬ Lost (trail T r b) p) :
  m < b ∧ ∃ e : ℕ, (trail T r b).2.chain[e]? = some p
  := by
  obtain ⟨hcalls, hwithin', hb, hbi, hbe⟩ := hret
  have hmb : m < b := by
    rcases lt_trichotomy m b with hlt | rfl | hlt
    · exact hlt
    · cases hbe.symm.trans hact.2.2
    · obtain ⟨τ, hτ⟩ := hwithin.2 b hwithin'.1 hlt hbi
      cases hbe.symm.trans hτ
  obtain ⟨q, u, l, hplaced, hq⟩ := placed hD r ⟨hcalls, hwithin', hb, hbi, hbe⟩
  rcases hplaced.others p t y m hwithin.1 hmb hact with rfl | ⟨-, hlost⟩
  · cases hact.2.2.symm.trans hplaced.install.2.2
    exact ⟨hmb, List.mem_iff_getElem?.mp hq⟩
  · exact absurd hlost hp

/-- Two items of one ring are taken in the order in which they were installed. -/
theorem taken_in_order {i' j' : ι} {o' o₁ : QueueOp ℕ} {k' m' t' : ℕ}
    (hcalls' : r.Calls i' o' b) (hwithin' : r.Within i' b m') (hmb : m < b)
    (hm : r.Acts i (.ring p (.install t x)) m) (hm' : r.Acts i' (.ring p (.install t' y)) m')
    (hcalls : r.Calls j o₁ c) (hwithin : r.Within j c k) (hkc' : k' < c)
    (hk : r.Acts j (.ring p (.take t u)) k) (hk' : r.Acts j' (.ring p (.take t' q)) k') :
  False
  := by
  have hcourse := course hD r p
  -- the second enqueue has drawn the greater ticket
  obtain ⟨e, hem, -, he⟩ := hcourse.install_cause hm.1 (ringTag_eq_some.mpr hm.2.2)
  have hheld' := (hcourse.step m' hm'.1 _ (ringTag_eq_some.mpr hm'.2.2)).1.1
  rw [hm'.2.1] at hheld'
  obtain ⟨e', hbe', -, hdraw'⟩ := tail_drawn hD r hcalls' (le_of_lt hm'.1) hwithin'.1 hheld'
  have htt' : t < t' := hcourse.drawTail_lt (hem.trans (hmb.trans hbe')) hdraw'.1 he
    (ringTag_eq_some.mpr hdraw'.2.2)
  -- and the first dequeue the lesser one
  obtain ⟨-, f', hfk', -, hf'⟩ := hcourse.take_cause hk'.1 (ringTag_eq_some.mpr hk'.2.2)
  have hheld := (hcourse.step k hk.1 _ (ringTag_eq_some.mpr hk.2.2)).1.1
  rw [hk.2.1] at hheld
  obtain ⟨f, hcf, -, hdraw⟩ := head_drawn hD r hcalls (le_of_lt hk.1) hwithin.1 hheld
  have hlt' : t' < t := hcourse.drawHead_lt (hfk'.trans (hkc'.trans hcf)) hdraw.1 hf'
    (ringTag_eq_some.mpr hdraw.2.2)
  exact lt_asymm htt' hlt'

/-- The items of a queue of rings are delivered in order. -/
theorem deliversInOrder :
  DeliversInOrder r
  := by
  constructor
  case given =>
    intro j out v c d h
    obtain ⟨p, t, k, hck, hkd, htake⟩ := value_taken hD r h
    obtain ⟨i, a, m, hcalls, hwithin, hmk, hinstall⟩ := take_source hD r htake
    refine ⟨i, a, hwithin.1.trans (hmk.trans hkd), hcalls, ⟨v, hcalls⟩, ⟨out, v, h⟩, ?_⟩
    exact ⟨p, t, v, v, m, k, hwithin.1, hwithin, hinstall, hck, hkd, htake⟩
  case once =>
    rintro i a j c d j' c' d' ⟨⟨x, hcalls⟩, ⟨out, v, hret⟩, p, t, y, z, m, k, ham, hwithin,
      hinstall, hck, hkd, htake⟩ ⟨-, ⟨out', v', hret'⟩, p', t', y', z', m', k', ham', hwithin',
      hinstall', hck', hkd', htake'⟩
    obtain rfl : m = m' := install_once hD r hcalls hwithin hwithin' hinstall hinstall'
      (not_lost_of_take hD r htake (le_of_lt hinstall'.1))
      (not_lost_of_take hD r htake' (le_of_lt hinstall.1))
    cases hinstall.2.2.symm.trans hinstall'.2.2
    obtain rfl := (course hD r p).take_unique htake.1 htake'.1 (ringTag_eq_some.mpr htake.2.2)
      (ringTag_eq_some.mpr htake'.2.2)
    obtain rfl : j = j' := htake.2.1.symm.trans htake'.2.1
    obtain ⟨rfl, -⟩ := hret.calls.unique hret'.calls (hret.within.mono hck (le_of_lt hkd))
      (hret'.within.mono hck' (le_of_lt hkd'))
    exact ⟨rfl, rfl⟩
  case fifo =>
    rintro i x a b i' a' j c d j' c' d' hret hba' ⟨⟨x', hcalls'⟩, ⟨out', v', hret'⟩, p', t', y',
      z', m', k', ham', hwithin', hinstall', hck', hkd', htake'⟩ hdc'
      ⟨-, ⟨out, v, hdeq⟩, p, t, y, z, m, k, ham, hwithin, hinstall, hck, hkd, htake⟩
    obtain ⟨hmb, e, he⟩ := install_position hD r hret hwithin hinstall
      (not_lost_of_take hD r htake (le_of_lt hret.lt))
    have hdwithin := hdeq.within.mono hck (le_of_lt hkd)
    have hdwithin' := hret'.within.mono hck' (le_of_lt hkd')
    obtain ⟨f, hf, -, hfp⟩ := take_position hD r htake hdeq.calls hdwithin
    obtain ⟨g, -, hg, hgp⟩ := take_position hD r htake' hret'.calls hdwithin'
    have hkn := le_of_lt htake.1
    have hkc' : k' < c := hkd'.trans hdc'
    have hmk' : m' < k' := by
      obtain ⟨⟨l, hlk', hl⟩, -⟩ :=
        (course hD r p').take_cause htake'.1 (ringTag_eq_some.mpr htake'.2.2)
      obtain rfl := (course hD r p').install_unique (hlk'.trans htake'.1) hinstall'.1 hl
        (ringTag_eq_some.mpr hinstall'.2.2)
      exact hlk'
    have hbk : b ≤ k := by omega
    have hkeep := grows hD r hbk hkn
    -- the ring of the second enqueue does not come after that of the first
    obtain rfl := (asserts hD r hkn).1.position (hkeep.getElem? he) hfp
    have hgp' := (grows hD r (le_of_lt (hkc'.trans hck)) hkn).getElem? hgp
    have hhead := (grows hD r (le_of_lt hkc') (le_of_lt hdeq.calls.1)).head
    rcases Nat.lt_or_eq_of_le (hg.trans (hhead.trans hf)) with hlt | rfl
    · -- it cannot come before it either, since it was closed by then
      obtain ⟨hinv, -⟩ := asserts hD r (le_of_lt hret.lt)
      have hlen := (List.getElem?_eq_some_iff.mp he).1
      have hold := List.getElem?_eq_getElem (hlt.trans hlen)
      have hnext := List.getElem?_eq_getElem (lt_of_le_of_lt hlt hlen)
      have heq := Option.some.inj ((hkeep.getElem? hold).symm.trans hgp')
      have hclosed := hinv.closed _ _ ((hinv.next g _ hold).trans hnext)
      rw [heq] at hclosed
      have hheld := ((course hD r p').step m' hinstall'.1 _
        (ringTag_eq_some.mpr hinstall'.2.2)).1.1
      rw [hinstall'.2.1] at hheld
      obtain ⟨l, hal', -, hdraw⟩ := tail_drawn hD r hcalls' (le_of_lt hinstall'.1) ham' hheld
      have hopen := ((course hD r p').step l hdraw.1 _ (ringTag_eq_some.mpr hdraw.2.2)).1.1
      have hlater := (course hD r p').later (le_of_lt (hba'.trans hal')) (le_of_lt hdraw.1)
      cases hopen.symm.trans (hlater.closed hclosed)
    · obtain rfl := Option.some.inj (hgp'.symm.trans hfp)
      exact taken_in_order hD r hcalls' hwithin' (hmb.trans hba') hinstall hinstall' hdeq.calls
        hdwithin hkc' htake htake'

end runs

end RingQueue
