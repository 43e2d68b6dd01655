import ConcurrentQueues.Library.Outline
import ConcurrentQueues.Library.Tickets

/-!
# Rings with tickets

A ring is a machine whose accesses carry the tags of a ticket protocol. When a ghost that
follows the tags is sound, every run of the ring hands each ticket to at most one
attempt, keeps what an enqueuer installs until the dequeuer with the same ticket takes
it, and installs nothing where that dequeuer has been and gone.
-/

/-- Whether an access draws a ticket. -/
def RingTag.Draws {V : Type} : RingTag V → Prop
  | .drawTail _ _ | .drawHead _ => True
  | _ => False

namespace Machine

variable {ι ρ ℓ V Ch A : Type} {M : Machine ι ρ ℓ (RingOp V) (RingRes V) (RingTag V) Ch}

section attempts

variable [DecidableEq ι] {n : ℕ}

/-- At step `k` thread `i` is in the attempt for which it drew a ticket by `τ` at step `d`: it
has neither returned nor drawn again since. -/
structure Run.Attempt (r : M.Run n) (i : ι) (τ : RingTag V) (d k : ℕ) : Prop where
  draws : τ.Draws
  drawn : r.Acts i τ d
  lt : d < k
  since : ∀ m, d < m → m < k → r.who m = i → ∃ τ', r.event m = .act τ' ∧ ¬ τ'.Draws

/-- The ring is exact in the run `r`. In a state `s` the cell of ticket `t` holds the item `x`
when `holds s t x`, and `null` is what a dequeue returns that found the ring empty. -/
structure Run.Exact (r : M.Run n) (holds : ρ → ℕ → V → Prop) (null : V) : Prop where
  /-- At most one attempt holds a tail ticket, and at most one a head ticket. -/
  tail : ∀ i j t x y k m, r.Acts i (.drawTail t x) k → r.Acts j (.drawTail t y) m → k = m
  head : ∀ i j t k m, r.Acts i (.drawHead t) k → r.Acts j (.drawHead t) m → k = m
  /-- What is installed with a ticket is the item of the attempt that holds the ticket. -/
  install : ∀ i t x k, r.Acts i (.install t x) k → ∃ d, r.Attempt i (.drawTail t x) d k
  /-- An installed item stays in its cell until it is taken. -/
  stays : ∀ i t x k m, r.Acts i (.install t x) k → k < m → m ≤ n →
    (∀ j y l, k < l → l < m → ¬ r.Acts j (.take t y) l) → holds (r.conf m).shared t x
  /-- What is taken with a ticket has been installed with it, and the attempt that takes it
  holds the ticket. -/
  take : ∀ j t y k, r.Acts j (.take t y) k →
    (∃ d, r.Attempt j (.drawHead t) d k) ∧ ∃ i, ∃ m < k, r.Acts i (.install t y) m
  /-- Each ticket is used at most once to install and at most once to take. -/
  installs : ∀ i j t x y k m, r.Acts i (.install t x) k → r.Acts j (.install t y) m → k = m
  takes : ∀ i j t x y k m, r.Acts i (.take t x) k → r.Acts j (.take t y) m → k = m
  /-- A dequeue that returns an item has taken it. -/
  value : ∀ i a v b, r.Returns i .dequeue a (.value v) b → v ≠ null →
    ∃ t k, a < k ∧ k < b ∧ r.Acts i (.take t v) k
  /-- An attempt that is over has taken an item or left without one. -/
  ended : ∀ j t d k, r.Acts j (.drawHead t) d → d < k → k < n → r.who k = j →
    (∀ τ, r.event k = .act τ → τ.Draws) →
    ∃ l, d < l ∧ l < k ∧ (r.Acts j (.miss t) l ∨ ∃ x, r.Acts j (.take t x) l)
  /-- Once an attempt has left without an item, none is installed with its ticket. -/
  miss : ∀ j t k, r.Acts j (.miss t) k → ∀ i x m, k ≤ m → ¬ r.Acts i (.install t x) m

end attempts

/-- How the tickets of a ring are kept as a ghost. The ghost follows the tags; `enq` and `deq`
are the tickets of a thread in a call. -/
structure Ticketing (M : Machine ι ρ ℓ (RingOp V) (RingRes V) (RingTag V) Ch) (A : Type) where
  init : A
  next : ι → ρ → A → ρ → RingTag V → A
  tickets : A → Tickets ι V
  enq : ℓ → Option (ℕ × V)
  deq : ℓ → Option ℕ

namespace Ticketing

/-- The tickets as a ghost. -/
def ghost (K : M.Ticketing A) : M.Ghost A where
  init := K.init
  bound _ := True
  next i s a _ s' _ τ := K.next i s a s' τ

/-- The tickets of a thread, which is in a call or in none. -/
def Holds (K : M.Ticketing A) (i : ι) (a : A) : Option ℓ → Prop
  | none => (K.tickets a).Holding i none none
  | some l => (K.tickets a).Holding i (K.enq l) (K.deq l)

/-- The ghost is sound: it is carried by a proof outline in which each access does to the
tickets what its tag says, and an item that has been installed and not taken is held
by its cell. -/
structure Sound (K : M.Ticketing A) (G : ρ × A → Prop) (L : ι → ρ × A → Option ℓ → Prop)
    (R : ι → ρ × A → ρ × A → Prop) (holds : ρ → ℕ → V → Prop) (null : V) : Prop where
  outline : (M.withGhost K.ghost).Outline G L R
  start : ∃ k, K.tickets K.init = .new k
  knows : ∀ {i s l}, L i s l → K.Holds i s.2 l
  step : ∀ {i ch s l s' l' τ}, G s → L i s (some l) → M.legal s.1 →
    M.step i ch s.1 l = some (s', l', τ) → (K.tickets s.2).Ok i τ ∧
      Tickets.Draws (K.enq l) (K.deq l) τ ∧
      K.tickets (K.next i s.1 s.2 s' τ) = (K.tickets s.2).apply i τ
  holds : ∀ {s t x}, G s → (K.tickets s.2).enq t = .full x → (K.tickets s.2).deq t ≠ .took →
    holds s.1 t x
  fresh : ∀ o, M.result (M.start o) = none
  value : ∀ {i ch s l s' l' τ v}, M.step i ch s l = some (s', l', τ) →
    M.result l' = some (.value v) → v ≠ null → ∃ t, τ = .take t v

namespace Sound

variable {K : M.Ticketing A} {G : ρ × A → Prop} {L : ι → ρ × A → Option ℓ → Prop}
  {R : ι → ρ × A → ρ × A → Prop} {holds : ρ → ℕ → V → Prop} {null : V} [DecidableEq ι]
  (h : K.Sound G L R holds null) {n : ℕ} (r : M.Run n)

/-- The tickets before step `k`. -/
def tickets (_ : K.Sound G L R holds null) (r : M.Run n) (k : ℕ) : Tickets ι V :=
  K.tickets (r.trail K.ghost k)

include h

/-- What the outline asserts along the run. -/
theorem asserts {k : ℕ} (hk : k ≤ n) :
  G ((r.conf k).shared, r.trail K.ghost k) ∧
    ∀ i, L i ((r.conf k).shared, r.trail K.ghost k) ((r.conf k).thread i)
  := h.outline.sound (r.lift K.ghost fun _ _ => trivial) k hk

/-- The tags of a run are a course of the tickets. -/
theorem course :
  Tickets.Course n (h.tickets r) r.who r.tag
  := by
  constructor
  case start => exact h.start
  case step =>
    intro k hk τ hτ
    rw [Run.tag_eq_some] at hτ
    obtain ⟨hG, hL⟩ := h.asserts r (le_of_lt hk)
    have hstep := r.step k hk
    rw [hτ] at hstep
    obtain ⟨l, ch, s, l', hbusy, hs, hc⟩ := hstep.act_inv
    have hself := hL (r.who k)
    rw [hbusy] at hself
    obtain ⟨hok, -, hnext⟩ := h.step hG hself (r.legal k (le_of_lt hk)) hs
    have htrail : r.trail K.ghost (k + 1)
        = K.next (r.who k) (r.conf k).shared (r.trail K.ghost k) s τ := by
      rw [Run.trail, hτ, hbusy, hc, Config.put_thread_self]
      rfl
    exact ⟨hok, (congrArg K.tickets htrail).trans hnext⟩
  case rest =>
    intro k hk hnone
    rw [tickets, tickets, Run.trail]
    cases he : r.event k with
    | act τ =>
        have hsome := (Run.tag_eq_some (r := r)).mpr he
        cases hnone.symm.trans hsome
    | call o => rfl
    | ret v => rfl

/-- A thread that holds a ticket neither returns nor draws another. -/
theorem busy {k : ℕ} (hk : k < n)
    (hheld : (∃ t x, (h.tickets r k).enq t = .held (r.who k) x) ∨
      ∃ t, (h.tickets r k).deq t = .held (r.who k)) :
  ∃ τ, r.event k = .act τ ∧ ¬ τ.Draws
  := by
  obtain ⟨hG, hL⟩ := h.asserts r (le_of_lt hk)
  have hself := hL (r.who k)
  have hstep := r.step k hk
  have hnone : ¬ K.Holds (r.who k) (r.trail K.ghost k) none := by
    intro hold
    rcases hheld with ⟨t, x, ht⟩ | ⟨t, ht⟩
    · cases (hold.enq t x).mp ht
    · cases (hold.deq t).mp ht
  cases he : r.event k with
  | call o =>
      rw [he] at hstep
      obtain ⟨hidle, -, -⟩ := hstep.call_inv
      rw [hidle] at hself
      exact absurd (h.knows hself) hnone
  | ret v =>
      rw [he] at hstep
      obtain ⟨l, hbusy, hv, -⟩ := hstep.ret_inv
      rw [hbusy] at hself
      exact absurd (h.knows (h.outline.ret hG hself hv)) hnone
  | act τ =>
      refine ⟨τ, rfl, fun hdraws => ?_⟩
      rw [he] at hstep
      obtain ⟨l, ch, s, l', hbusy, hs, -⟩ := hstep.act_inv
      rw [hbusy] at hself
      obtain ⟨-, hdraw, -⟩ := h.step hG hself (r.legal k (le_of_lt hk)) hs
      have hold := h.knows hself
      have hfree : K.enq l = none ∧ K.deq l = none := by
        cases τ with
        | drawTail t x => exact hdraw
        | drawHead t => exact hdraw
        | _ => cases hdraws
      rw [Holds, hfree.1, hfree.2] at hold
      exact hnone hold

/-- An access with a tail ticket belongs to the attempt that drew it. -/
theorem tail_attempt {i : ι} {t k : ℕ} {x : V} (hk : k < n)
    (hheld : (h.tickets r k).enq t = .held i x) :
  ∃ d, r.Attempt i (.drawTail t x) d k
  := by
  have hcourse := h.course r
  obtain ⟨m, hm, hi, hdraw, hsince⟩ := hcourse.held_since (le_of_lt hk) hheld
  refine ⟨m, trivial, ⟨hm.trans hk, hi, Run.tag_eq_some.mp hdraw⟩, hm, fun l hml hlk hl => ?_⟩
  have hmid := hsince l hml (le_of_lt hlk)
  rw [← hl] at hmid
  exact h.busy r (hlk.trans hk) (Or.inl ⟨t, x, hmid⟩)

/-- An access with a head ticket belongs to the attempt that drew it. -/
theorem head_attempt {i : ι} {t k : ℕ} (hk : k < n) (hheld : (h.tickets r k).deq t = .held i) :
  ∃ d, r.Attempt i (.drawHead t) d k
  := by
  have hcourse := h.course r
  obtain ⟨m, hm, hi, hdraw, hsince⟩ := hcourse.deq_held_since (le_of_lt hk) hheld
  refine ⟨m, trivial, ⟨hm.trans hk, hi, Run.tag_eq_some.mp hdraw⟩, hm, fun l hml hlk hl => ?_⟩
  have hmid := hsince l hml (le_of_lt hlk)
  rw [← hl] at hmid
  exact h.busy r (hlk.trans hk) (Or.inr ⟨t, hmid⟩)

/-- A ring with a sound ghost is exact. -/
theorem exact :
  r.Exact holds null
  := by
  have hcourse := h.course r
  have htag : ∀ {i τ k}, r.Acts i τ k → r.tag k = some τ :=
    fun ha => Run.tag_eq_some.mpr ha.2.2
  have hacts : ∀ {m k τ}, m < k → k ≤ n → r.tag m = some τ → r.Acts (r.who m) τ m :=
    fun hmk hkn hm => ⟨lt_of_lt_of_le hmk hkn, rfl, Run.tag_eq_some.mp hm⟩
  constructor
  case tail => exact fun i j t x y k m hk hm => hcourse.drawTail_unique hk.1 hm.1 (htag hk) (htag hm)
  case head => exact fun i j t k m hk hm => hcourse.drawHead_unique hk.1 hm.1 (htag hk) (htag hm)
  case install =>
    rintro i t x k ⟨hk, rfl, he⟩
    obtain ⟨⟨hheld, -⟩, -⟩ := hcourse.step k hk _ (Run.tag_eq_some.mpr he)
    exact h.tail_attempt r hk hheld
  case stays =>
    intro i t x k m hk hkm hm hnot
    apply h.holds (h.asserts r hm).1 (hcourse.full_of_install hkm hm (htag hk))
    intro htook
    obtain ⟨l, hlm, y, hl⟩ := hcourse.took_cause hm htook
    have hln := lt_of_lt_of_le hlm hm
    obtain ⟨⟨p, hp, hins⟩, -⟩ := hcourse.take_cause hln hl
    -- the item that was taken is the one installed at step `k`
    obtain rfl := hcourse.install_unique (hp.trans hln) hk.1 hins (htag hk)
    exact hnot _ y l hp hlm (hacts hlm hm hl)
  case take =>
    rintro j t y k ⟨hk, rfl, he⟩
    have hτ := Run.tag_eq_some.mpr he
    obtain ⟨⟨hheld, -⟩, -⟩ := hcourse.step k hk _ hτ
    obtain ⟨⟨m, hm, hins⟩, -⟩ := hcourse.take_cause hk hτ
    exact ⟨h.head_attempt r hk hheld, r.who m, m, hm, hacts hm (le_of_lt hk) hins⟩
  case installs =>
    exact fun i j t x y k m hk hm => hcourse.install_unique hk.1 hm.1 (htag hk) (htag hm)
  case takes => exact fun i j t x y k m hk hm => hcourse.take_unique hk.1 hm.1 (htag hk) (htag hm)
  case value =>
    intro i a v b hret hv
    obtain ⟨l, hl, hres⟩ := hret.result
    obtain ⟨o, a', k, τ, hcalls, hwithin, hak, hkb, hact, t, rfl⟩ := r.cause
      (fun l => M.result l = some (.value v)) (fun τ => ∃ t, τ = .take t v)
      (fun o ho => by rw [h.fresh] at ho; cases ho)
      (fun _ _ _ _ _ _ _ hs hQ => Or.inr (h.value hs hQ hv)) (le_of_lt hret.lt) hl hres
    obtain ⟨rfl, -⟩ := hcalls.unique hret.calls hwithin hret.within
    exact ⟨t, k, hak, hkb, hact⟩
  case ended =>
    intro j t d k hd hdk hk hj hover
    have hheld : (h.tickets r (d + 1)).deq t = .held j := by
      obtain ⟨-, hT⟩ := hcourse.step d hd.1 _ (htag hd)
      rw [hT, hd.2.1]
      apply Function.update_self
    have hnot : (h.tickets r k).deq t ≠ .held j := by
      intro hheld
      rw [← hj] at hheld
      obtain ⟨τ, hτ, hnodraw⟩ := h.busy r hk (Or.inr ⟨t, hheld⟩)
      exact hnodraw (hover τ hτ)
    obtain ⟨l, hdl, hlk, hlj, hl⟩ := hcourse.headHeld_used hdk (le_of_lt hk) hheld hnot
    refine ⟨l, hdl, hlk, ?_⟩
    rcases hl with hl | ⟨x, hl⟩
    · exact Or.inl ⟨hlk.trans hk, hlj, Run.tag_eq_some.mp hl⟩
    · exact Or.inr ⟨x, hlk.trans hk, hlj, Run.tag_eq_some.mp hl⟩
  case miss =>
    intro j t k hk i x m hkm hm
    exact hcourse.not_install_of_miss hkm hm.1 (htag hk) (htag hm)

end Sound

end Ticketing

/-- A ring with a sound ghost, and what a program that calls the ring has to know: which local
states belong to an enqueue, and of which item; which belong to a dequeue that has seen
the ring empty; what results there are; and that `solo i x` accompanies an enqueue of `x`
by thread `i` into a new ring that no other thread knows, which is not refused. -/
structure TicketRing (M : Machine ι ρ ℓ (RingOp V) (RingRes V) (RingTag V) Ch) (A : Type) extends
    M.Ticketing A where
  inv : ρ × A → Prop
  knows : ι → ρ × A → Option ℓ → Prop
  sees : ι → ρ × A → ρ × A → Prop
  holds : ρ → ℕ → V → Prop
  null : V
  enqueuing : ℓ → Bool
  item : ℓ → Option V
  seen : ℓ → Prop
  solo : ι → V → ρ → ℓ → Prop
  sound : toTicketing.Sound inv knows sees holds null
  legal : M.legal M.init
  dequeue_valid : M.valid .dequeue
  sees_refl : ∀ j σ, sees j σ σ
  enqueuing_enqueue : ∀ x, enqueuing (M.start (.enqueue x)) = true
  enqueuing_dequeue : enqueuing (M.start .dequeue) = false
  enqueuing_step : ∀ {i ch s l s' l' τ}, M.step i ch s l = some (s', l', τ) →
    enqueuing l' = enqueuing l
  enqueuing_result : ∀ {l v}, enqueuing l = true → M.result l = some v → v = .ok ∨ v = .closed
  dequeuing_result : ∀ {l v}, enqueuing l = false → M.result l = some v → ∃ x, v = .value x
  enqueuing_deq : ∀ {l}, enqueuing l = true → deq l = none
  dequeuing_enq : ∀ {l}, enqueuing l = false → enq l = none
  ok : ∀ {i ch s l s' l' τ}, M.step i ch s l = some (s', l', τ) → M.result l' = some .ok →
    ∃ t x, τ = .install t x
  installed : ∀ {i ch s l s' l' t x}, M.step i ch s l = some (s', l', .install t x) →
    M.result l' = some .ok
  closed : ∀ {i σ l}, knows i σ (some l) → M.result l = some .closed →
    (tickets σ.2).closed = true
  item_enqueue : ∀ {x y}, item (M.start (.enqueue x)) = some y → y = x
  item_step : ∀ {i ch s l s' l' τ y}, M.step i ch s l = some (s', l', τ) → item l' = some y →
    item l = some y
  item_enq : ∀ {l t y}, enq l = some (t, y) → item l = some y
  seen_start : ∀ o, ¬ seen (M.start o)
  seen_step : ∀ {i ch s l s' l' τ}, M.step i ch s l = some (s', l', τ) → seen l' →
    seen l ∨ ∃ h, τ = .sawEmpty h
  saw_deq : ∀ {i ch s l s' l' h}, M.step i ch s l = some (s', l', .sawEmpty h) → deq l = none
  seen_null : ∀ {i σ l}, knows i σ (some l) → M.result l = some (.value null) → seen l
  solo_start : ∀ {i x}, M.valid (.enqueue x) → solo i x M.init (M.start (.enqueue x))
  solo_step : ∀ {i ch x s l s' l' τ}, solo i x s l → M.step i ch s l = some (s', l', τ) →
    solo i x s' l'
  solo_result : ∀ {i x s l v}, solo i x s l → M.result l = some v → v = .ok

end Machine
