import ConcurrentQueues.Library.Atomic
import ConcurrentQueues.RingQueue.Waiting

/-!
# Queues of rings that look twice are linearizable

An enqueue takes effect when the ticket with which it is going to install its item is drawn, or when
its ring is linked. A dequeue takes effect when the ticket of the item it is going to take is drawn,
or, when it has come first, together with the enqueue. A dequeue that returns `false` takes effect
when it sees the queue empty.
-/

namespace RingQueue

open Machine

variable {ι ρ ℓ A : Type} {M : Machine ι ρ ℓ (RingOp ℕ) (RingRes ℕ) (RingTag ℕ) Unit}
  {dequeue : ι → Shared ρ → Dequeue ℓ → Option (Shared ρ × Dequeue ℓ × Tag)}

/-- A dequeue from a ring returns what it takes, and `null` is not enqueued. -/
structure Gives (T : M.TicketRing A) : Prop where
  take : ∀ {i s l s' l' t x}, M.step i () s l = some (s', l', .take t x) →
    M.result l' = some (.value x)
  null : ¬ M.valid (.enqueue T.null)

variable [DecidableEq ι] {n : ℕ}

/-- At step `k` the item of ticket `t` of ring `p` comes to the end of the list. -/
def ComesIn (T : M.TicketRing A) (r : (machine M dequeue).Run n) (p t k : ℕ) : Prop :=
  (∃ x, r.event k = .act (.ring p (.drawTail t x)) ∧ p ∈ (trail T r k).2.chain) ∨
    r.event k = .act (.link p) ∧ ∃ d < k, ∃ x, r.event d = .act (.ring p (.drawTail t x))

/-- At step `k` the item of ticket `t` of ring `p` leaves the list. -/
def GoesOut (T : M.TicketRing A) (r : (machine M dequeue).Run n) (p t k : ℕ) : Prop :=
  (r.event k = .act (.ring p (.drawHead t)) ∧ t < (tickets T (trail T r k) p).tail) ∨
    ∃ x, r.event k = .act (.ring p (.drawTail t x)) ∧ t < (tickets T (trail T r k) p).head

/-- The enqueue of `x` which thread `i` calls at step `a` installs its item with ticket `t` of ring
`p`, and takes effect at step `k`. -/
structure Puts (T : M.TicketRing A) (r : (machine M dequeue).Run n) (i : ι) (x a p t k : ℕ) :
    Prop where
  calls : r.Calls i (.enqueue x) a
  within : r.Within i a k
  lt : k < n
  install : ∃ m, r.Within i a m ∧ r.Acts i (.ring p (.install t x)) m
  comes : ComesIn T r p t k

/-- The dequeue which thread `j` calls at step `c` draws head ticket `t` of ring `p`, whose item is
`x`, and takes effect at step `k`. -/
structure Gets (T : M.TicketRing A) (r : (machine M dequeue).Run n) (j : ι) (c p t x k : ℕ) :
    Prop where
  calls : ∃ out, r.Calls j (.dequeue out) c
  within : r.Within j c k
  lt : k < n
  draws : ∃ e, c < e ∧ e ≤ k ∧ r.Acts j (.ring p (.drawHead t)) e
  item : awaited T r p t = some x
  goes : GoesOut T r p t k

/-- The calls that take effect at step `k` are those of `e`. -/
structure Turn (T : M.TicketRing A) (r : (machine M dequeue).Run n) (k : ℕ)
    (e : List (ℕ × QueueRes ℕ)) : Prop where
  takes : r.Takes (items T r k) e (items T r (k + 1))
  nodup : (e.map Prod.fst).Nodup
  sound : ∀ a v, (a, v) ∈ e → (v = .enqueued ∧ ∃ i x p t, Puts T r i x a p t k) ∨
    ∃ j p t x, v = .dequeued true x ∧ Gets T r j a p t x k
  puts : ∀ i x a p t, Puts T r i x a p t k → (a, .enqueued) ∈ e
  gets : ∀ j c p t x, Gets T r j c p t x k → (c, .dequeued true x) ∈ e

variable {T : M.TicketRing A} {r : (machine M dequeue).Run n} {i i' j j' : ι} {o : QueueOp ℕ}
  {a b c c' d k k' m p q t u x y : ℕ}

variable (hD : Dequeues M T.null true dequeue) (r)

include hD

/-! ### When an item comes and goes -/

/-- A ring of the chain is not lost. -/
theorem not_lost_of_mem (hk : k ≤ n) (hm : m ≤ n) (hp : p ∈ (trail T r k).2.chain) :
  ¬ Lost (trail T r m) p
  := by
  intro hlost
  rcases le_total m k with hmk | hkm
  · exact ((grows hD r hmk hk).lost p hlost).chain hp
  · exact hlost.chain ((grows hD r hkm hm).mem hp)

/-- A ring that is linked was not in the chain. -/
theorem not_mem_of_link (hk : k < n) (he : r.event k = .act (.link p)) :
  p ∉ (trail T r k).2.chain
  := by
  obtain ⟨x, q, hl, -⟩ := linking r hD hk he (Or.inl rfl)
  obtain ⟨hinv, hknows⟩ := asserts hD r (le_of_lt hk)
  have hself := hknows (r.who k)
  rw [hl] at hself
  obtain ⟨-, -, -, -, howner⟩ := hself
  exact (hinv.owned p _ howner).1

/-- A ring whose item comes in is in the chain from then on. -/
theorem ComesIn.mem (h : ComesIn T r p t k) (hk : k < n) :
  p ∈ (trail T r (k + 1)).2.chain
  := by
  rcases h with ⟨x, he, hp⟩ | ⟨he, -⟩
  · exact (grows hD r (Nat.le_succ k) hk).mem hp
  · rw [trail_act r hk he]
    exact List.mem_append_right _ (List.mem_singleton_self p)

/-- An item comes in once. -/
theorem ComesIn.unique (h : ComesIn T r p t k) (h' : ComesIn T r p t m) (hk : k < n) (hm : m < n) :
  k = m
  := by
  have hcourse := course hD r p
  have hmixed : ∀ {k m x d y : ℕ}, k < n → m < n → r.event k = .act (.ring p (.drawTail t x)) →
      p ∈ (trail T r k).2.chain → r.event m = .act (.link p) → d < m →
      r.event d = .act (.ring p (.drawTail t y)) → False := by
    intro k m x d y hk hm he hp he' hdm hd
    obtain rfl := hcourse.drawTail_unique hk (hdm.trans hm) (ringTag_eq_some.mpr he)
      (ringTag_eq_some.mpr hd)
    exact not_mem_of_link r hD hm he' ((grows hD r (le_of_lt hdm) (le_of_lt hm)).mem hp)
  have hlinks : ∀ {k m : ℕ}, m < n → ComesIn T r p t k → r.event m = .act (.link p) → ¬ k < m := by
    intro k m hm h he hkm
    exact not_mem_of_link r hD hm he
      ((grows hD r hkm (le_of_lt hm)).mem (h.mem r hD (hkm.trans hm)))
  rcases h with ⟨x, he, hp⟩ | ⟨he, d, hdk, x, hd⟩
  · rcases h' with ⟨y, he', -⟩ | ⟨he', d', hdm, y, hd'⟩
    · exact hcourse.drawTail_unique hk hm (ringTag_eq_some.mpr he) (ringTag_eq_some.mpr he')
    · exact absurd hd' fun hd' => hmixed hk hm he hp he' hdm hd'
  · rcases h' with ⟨y, he', hp'⟩ | ⟨he', d', hdm, y, hd'⟩
    · exact absurd hd fun hd => hmixed hm hk he' hp' he hdk hd
    · apply Nat.le_antisymm
      · apply not_lt.mp
        apply hlinks hk (Or.inr ⟨he', d', hdm, y, hd'⟩) he
      · apply not_lt.mp
        apply hlinks hm (Or.inr ⟨he, d, hdk, x, hd⟩) he'

/-- An item goes out once. -/
theorem GoesOut.unique (h : GoesOut T r p t k) (h' : GoesOut T r p t m) (hk : k < n) (hm : m < n) :
  k = m
  := by
  have hcourse := course hD r p
  have hmixed : ∀ {k m x : ℕ}, k < n → m < n → r.event k = .act (.ring p (.drawHead t)) →
      t < (tickets T (trail T r k) p).tail → r.event m = .act (.ring p (.drawTail t x)) →
      t < (tickets T (trail T r m) p).head → False := by
    intro k m x hk hm he htail he' hhead
    have hk' := (hcourse.step k hk _ (ringTag_eq_some.mpr he)).1
    have hm' := (hcourse.step m hm _ (ringTag_eq_some.mpr he')).1.2
    rcases le_total k m with hkm | hmk
    · have hlater := (hcourse.later hkm (le_of_lt hm)).tail
      exact absurd hm' (ne_of_lt (lt_of_lt_of_le htail hlater))
    · have hlater := (hcourse.later hmk (le_of_lt hk)).head
      exact absurd hk' (ne_of_lt (lt_of_lt_of_le hhead hlater))
  rcases h with ⟨he, htail⟩ | ⟨x, he, hhead⟩
  · rcases h' with ⟨he', -⟩ | ⟨y, he', hhead'⟩
    · exact hcourse.drawHead_unique hk hm (ringTag_eq_some.mpr he) (ringTag_eq_some.mpr he')
    · exact absurd hhead' fun hhead' => hmixed hk hm he htail he' hhead'
  · rcases h' with ⟨he', htail'⟩ | ⟨y, he', -⟩
    · exact absurd hhead fun hhead => hmixed hm hk he' htail' he hhead
    · exact hcourse.drawTail_unique hk hm (ringTag_eq_some.mpr he) (ringTag_eq_some.mpr he')

/-! ### Enqueues -/

/-- What an enqueue installs is going to be in its cell. -/
theorem Puts.awaited (h : Puts T r i x a p t k) :
  awaited T r p t = some x
  := by
  obtain ⟨m, -, hact⟩ := h.install
  apply awaited_eq_some.mpr
  exact (course hD r p).full_of_install hact.1 le_rfl (ringTag_eq_some.mpr hact.2.2)

/-- An enqueue takes effect once. -/
theorem Puts.once (h : Puts T r i x a p t k) (h' : Puts T r i y a q u m) :
  k = m
  := by
  obtain ⟨l, hwithin, hact⟩ := h.install
  obtain ⟨l', hwithin', hact'⟩ := h'.install
  obtain rfl := install_once hD r h.calls hwithin hwithin' hact hact'
    (not_lost_of_mem r hD h.lt (le_of_lt hact'.1) (h.comes.mem r hD h.lt))
    (not_lost_of_mem r hD h'.lt (le_of_lt hact.1) (h'.comes.mem r hD h'.lt))
  cases hact.2.2.symm.trans hact'.2.2
  exact h.comes.unique r hD h'.comes h.lt h'.lt

/-- Who installs with a ticket has drawn it in the same call. -/
theorem tail_drawn_of_install (hcalls : r.Calls i o a) (hwithin : r.Within i a m)
    (hact : r.Acts i (.ring p (.install t x)) m) :
  ∃ d, a < d ∧ d < m ∧ r.Acts i (.ring p (.drawTail t x)) d
  := by
  have hheld := ((course hD r p).step m hact.1 _ (ringTag_eq_some.mpr hact.2.2)).1.1
  rw [hact.2.1] at hheld
  apply tail_drawn hD r hcalls (le_of_lt hact.1) hwithin.1 hheld

/-- The enqueue of an item that is going to be installed has drawn its ticket. -/
theorem enqueue_of_awaited (hx : awaited T r p t = some x) :
  ∃ i a d m, r.Calls i (.enqueue x) a ∧ a < d ∧ d < m ∧ r.Within i a m ∧
    r.Acts i (.ring p (.drawTail t x)) d ∧ r.Acts i (.ring p (.install t x)) m
  := by
  obtain ⟨m, hm, hins⟩ := (course hD r p).full_cause le_rfl (awaited_eq_some.mp hx)
  have hact : r.Acts (r.who m) (.ring p (.install t x)) m := ⟨hm, rfl, ringTag_eq_some.mp hins⟩
  obtain ⟨pc, hl, harg, -⟩ := install_arg hD r hact
  obtain ⟨y, a, hcalls, hwithin, rfl, -⟩ := progress hD r (le_of_lt hm) hl
  rw [harg] at hcalls
  obtain ⟨d, had, hdm, hdraw⟩ := tail_drawn_of_install r hD hcalls hwithin hact
  exact ⟨_, a, d, m, hcalls, had, hdm, hwithin, hdraw, hact⟩

/-- An enqueue that returns takes effect. -/
theorem exists_puts (h : r.Returns i (.enqueue x) a .enqueued b) :
  ∃ p t k, k < b ∧ Puts T r i x a p t k
  := by
  obtain ⟨p, t, m, hplaced, hp⟩ := placed hD r h
  have hwithin := h.within.mono hplaced.after (le_of_lt hplaced.before)
  obtain ⟨d, had, hdm, hdraw⟩ := tail_drawn_of_install r hD h.calls hwithin hplaced.install
  have hdb := hdm.trans hplaced.before
  by_cases hd : p ∈ (trail T r d).2.chain
  · exact ⟨p, t, d, hdb, h.calls, h.within.mono had (le_of_lt hdb), hdraw.1,
      ⟨m, hwithin, hplaced.install⟩, Or.inl ⟨x, hdraw.2.2, hd⟩⟩
  · obtain ⟨l, hdl, hlb, hlink, -⟩ := link_of_mem (le_of_lt hdb) (le_of_lt h.lt) hd hp
    have hdl : d < l := by
      apply lt_of_le_of_ne hdl
      rintro rfl
      cases hlink.symm.trans hdraw.2.2
    exact ⟨p, t, l, hlb, h.calls, h.within.mono (had.trans hdl) (le_of_lt hlb), hlb.trans h.lt,
      ⟨m, hwithin, hplaced.install⟩, Or.inr ⟨hlink, d, hdl, x, hdraw.2.2⟩⟩

/-! ### Dequeues -/

/-- A thread whose dequeue is done accesses nothing. -/
theorem not_acts_of_done {τ : Tag} (hl : (r.conf k).thread j = some (.dequeue (.done x))) :
  ¬ r.Acts j τ k
  := by
  intro hact
  obtain ⟨l, ch, s, l', hl', hs, -⟩ := hact.step
  obtain rfl := Option.some.inj (hl'.symm.trans hl)
  rcases step_inv hD hs with ⟨_, _, heq, -⟩ | ⟨pc, _, heq, -, hpc⟩
  · cases heq
  · cases heq
    cases hpc

/-- A dequeue that is done stays so in its call. -/
theorem done_stays (hwithin : r.Within j c m) (hkm : k ≤ m) (hm : m ≤ n) (hck : c < k)
    (hl : (r.conf k).thread j = some (.dequeue (.done x))) :
  (r.conf m).thread j = some (.dequeue (.done x))
  := by
  induction m, hkm using Nat.le_induction with
  | base => exact hl
  | succ m hkm ih =>
      have hcm := lt_of_lt_of_le hck hkm
      have hdone := ih (hwithin.mono hcm (Nat.le_succ m)) (Nat.le_of_succ_le hm)
      rw [← hdone]
      apply (r.step m hm).other
      rintro rfl
      obtain ⟨τ, hτ⟩ := hwithin.2 m hcm (Nat.lt_succ_self m) rfl
      exact not_acts_of_done r hD hdone ⟨hm, rfl, hτ⟩

variable (hT : Gives T)

include hT

/-- A dequeue that takes an item is done. -/
theorem done_of_take (hact : r.Acts j (.ring p (.take t x)) k) :
  (r.conf (k + 1)).thread j = some (.dequeue (.done x))
  := by
  obtain ⟨i, a, m, hcalls, -⟩ := take_source hD r hact
  have hvalid : x ≠ T.null := by
    rintro rfl
    have hstep := r.step a hcalls.1
    rw [hcalls.2.2] at hstep
    exact hT.null hstep.call_inv.2.1
  obtain ⟨l, ch, s, l', hl, hs, hc⟩ := hact.step
  rw [hc, Config.put_thread_self]
  have hcalled : ∀ {p' : ℕ} {l l' : ℓ} {s₁ : Shared ρ},
      call M j (r.conf k).shared p' l = some (s₁, l', .ring p (.take t x)) →
      M.result l' = some (.value x) := by
    intro p' l l' s₁ hcall
    obtain ⟨z, τ, hstep, -, heq⟩ := call_eq_some.mp hcall
    cases heq
    exact hT.take hstep
  rcases step_inv hD hs with ⟨pc, pc', rfl, rfl, hpc⟩ | ⟨pc, pc', rfl, rfl, hpc⟩
  · -- an enqueue takes nothing
    have hself := (asserts hD r (le_of_lt hact.1)).2 j
    rw [hl] at hself
    obtain ⟨hk, rfl, he⟩ := hact
    obtain ⟨l₀, l₁, l₁', hl₀, hin, -, hok, -⟩ := ring_act hD r hk he
    obtain ⟨l₂, l₂', hl₂, hin₂, hold⟩ := held_inside hD r (le_of_lt hk) (Or.inr hok.1)
    obtain rfl := Option.some.inj (hl₂.symm.trans hl)
    obtain ⟨_, heq, -⟩ := hself.dequeuing hin₂ ((hold.deq t).mp hok.1)
    cases heq
  · cases hpc with
    | ring hcall hv => cases (hcalled hcall).symm.trans hv
    | retry hcall hv => cases (hcalled hcall).symm.trans hv
    | give hcall hv =>
        cases (hcalled hcall).symm.trans hv
        rfl
    | retryGive hcall hv =>
        cases (hcalled hcall).symm.trans hv
        rfl
    | empty hcall hv hnull =>
        cases (hcalled hcall).symm.trans hv
        exact absurd (hnull x rfl) hvalid
    | retryEmpty hcall hv hnull =>
        cases (hcalled hcall).symm.trans hv
        exact absurd (hnull x rfl) hvalid

/-- A dequeue that has drawn the ticket of an item and no longer holds it is done. -/
theorem done_of_awaited (hx : awaited T r p t = some x) (hdraw : r.Acts j (.ring p (.drawHead t)) d)
    (hcd : c < d) (hdk : d < k) (hk : k ≤ n) (hwithin : r.Within j c k)
    (hnot : (tickets T (trail T r k) p).deq t ≠ .held j) :
  ∃ y, (r.conf k).thread j = some (.dequeue (.done y))
  := by
  have hcourse := course hD r p
  have hheld : (tickets T (trail T r (d + 1)) p).deq t = .held j := by
    obtain ⟨-, happly⟩ := hcourse.step d hdraw.1 _ (ringTag_eq_some.mpr hdraw.2.2)
    rw [happly, hdraw.2.1]
    apply Function.update_self
  obtain ⟨l, hdl, hlk, hlj, hmiss | ⟨y, htake⟩⟩ := hcourse.headHeld_used hdk hk hheld hnot
  · -- a ticket whose item is going to be there is not missed
    obtain ⟨-, happly⟩ := hcourse.step l (lt_of_lt_of_le hlk hk) _ hmiss
    have hmissed : (tickets T (trail T r (l + 1)) p).deq t = .missed := by
      rw [happly]
      apply Function.update_self
    have hlater := hcourse.later (lt_of_lt_of_le hlk hk) le_rfl
    exact absurd (awaited_eq_some.mp hx) ((hcourse.inv le_rfl).missed t (hlater.missed t hmissed) x)
  · have hact : r.Acts j (.ring p (.take t y)) l :=
      ⟨lt_of_lt_of_le hlk hk, hlj, ringTag_eq_some.mp htake⟩
    exact ⟨y, done_stays r hD hwithin hlk hk (by omega) (done_of_take r hD hT hact)⟩

/-- A dequeue takes effect once. -/
theorem Gets.once (h : Gets T r j c p t x k) (h' : Gets T r j c q u y m) :
  k = m
  := by
  obtain ⟨e, hce, hek, hdraw⟩ := h.draws
  obtain ⟨e', hce', hem, hdraw'⟩ := h'.draws
  have hdone : ∀ {p t x q u y k m e e'}, Gets T r j c p t x k → Gets T r j c q u y m → c < e →
      e' ≤ m → r.Acts j (.ring p (.drawHead t)) e → r.Acts j (.ring q (.drawHead u)) e' →
      ¬ e < e' := by
    intro p t x q u y k m e e' h h' hce hem hdraw hdraw' hlt
    have hnot : (tickets T (trail T r e') p).deq t ≠ .held j := by
      intro hheld
      rw [← hdraw'.2.1] at hheld
      obtain ⟨τ, hτ, hnodraw⟩ := busy hD r hdraw'.1 (Or.inr hheld)
      cases hdraw'.2.2.symm.trans hτ
      exact hnodraw trivial
    obtain ⟨z, hz⟩ := done_of_awaited r hD hT h.item hdraw hce hlt (le_of_lt hdraw'.1)
      (h'.within.mono (hce.trans hlt) hem) hnot
    exact not_acts_of_done r hD hz hdraw'
  obtain rfl : e = e' := Nat.le_antisymm (not_lt.mp (hdone h' h hce' hek hdraw' hdraw))
    (not_lt.mp (hdone h h' hce hem hdraw hdraw'))
  cases hdraw.2.2.symm.trans hdraw'.2.2
  exact h.goes.unique r hD h'.goes h.lt h'.lt

/-- A dequeue that returns `false` draws the ticket of no item. -/
theorem not_gets_of_false (h : r.Returns j o c (.dequeued false y) b) :
  ¬ Gets T r j c p t x k
  := by
  intro hgets
  obtain ⟨e, hce, hek, hdraw⟩ := hgets.draws
  obtain ⟨l, hl, hres⟩ := h.result
  have heb : e < b := h.lt_of_acts (hgets.within.mono hce hek) hdraw
  have hnot : (tickets T (trail T r b) p).deq t ≠ .held j := by
    intro hheld
    obtain ⟨l', l₁, hl', hin, -⟩ := held_inside hD r (le_of_lt h.lt) (Or.inr hheld)
    obtain rfl := Option.some.inj (hl'.symm.trans hl)
    cases (inside_result hin).symm.trans hres
  obtain ⟨z, hz⟩ := done_of_awaited r hD hT hgets.item hdraw hce heb (le_of_lt h.lt) h.within hnot
  obtain rfl := Option.some.inj (hl.symm.trans hz)
  cases hres

omit hT

/-- A dequeue that returns an item takes effect. -/
theorem exists_gets (h : r.Returns j (.dequeue y) c (.dequeued true x) b) :
  ∃ p t k, k < b ∧ Gets T r j c p t x k
  := by
  obtain ⟨p, t, l, hcl, hlb, htake⟩ := value_taken hD r h
  have hcourse := course hD r p
  have hl := le_of_lt htake.1
  have htag := ringTag_eq_some.mpr htake.2.2
  obtain ⟨⟨m, hml, hins⟩, -⟩ := hcourse.take_cause htake.1 htag
  have hx := awaited_eq_some.mpr (hcourse.full_of_install (hml.trans htake.1) le_rfl hins)
  have hheld := (hcourse.step l htake.1 _ htag).1.1
  rw [htake.2.1] at hheld
  obtain ⟨e, hce, hel, hdraw⟩ := head_drawn hD r h.calls hl hcl hheld
  obtain ⟨d, hdm, -, hdraw'⟩ := hcourse.install_cause (hml.trans htake.1) hins
  have hdl := hdm.trans hml
  have hd := hdl.trans htake.1
  have hwithin : ∀ {k}, e ≤ k → k < l → r.Within j c k :=
    fun hek hkl => h.within.mono (lt_of_lt_of_le hce hek) (le_of_lt (hkl.trans hlb))
  rcases lt_or_ge d e with hde | hed
  · refine ⟨p, t, e, hel.trans hlb, ⟨y, h.calls⟩, hwithin le_rfl hel, hdraw.1,
      ⟨e, hce, le_rfl, hdraw⟩, hx, Or.inl ⟨hdraw.2.2, ?_⟩⟩
    have hlater := (hcourse.later hde (le_of_lt hdraw.1)).tail
    obtain ⟨⟨-, ht⟩, happly⟩ := hcourse.step d hd _ hdraw'
    rw [happly] at hlater
    rw [ht]
    exact hlater
  · have hed : e < d := by
      apply lt_of_le_of_ne hed
      rintro rfl
      cases hdraw.2.2.symm.trans (ringTag_eq_some.mp hdraw')
    refine ⟨p, t, d, hdl.trans hlb, ⟨y, h.calls⟩, hwithin (le_of_lt hed) hdl, hd,
      ⟨e, hce, le_of_lt hed, hdraw⟩, hx, Or.inr ⟨x, ringTag_eq_some.mp hdraw', ?_⟩⟩
    have hlater := (hcourse.later hed (le_of_lt hd)).head
    obtain ⟨ht, happly⟩ := hcourse.step e hdraw.1 _ (ringTag_eq_some.mpr hdraw.2.2)
    rw [happly] at hlater
    rw [show t = (tickets T (trail T r e) p).head from ht]
    exact hlater

/-- A dequeue that returns `false` has seen that no items wait. -/
theorem items_refused (h : r.Returns j (.dequeue y) c (.dequeued false x) b) :
  ∃ k, c < k ∧ k ≤ b ∧ items T r k = []
  := by
  obtain ⟨l, hl, hres⟩ := h.result
  cases l with
  | enqueue pc =>
      cases pc with
      | _ => cases hres
  | dequeue pc =>
      obtain ⟨o, c', hcalls, hwithin, hsight⟩ := sight hD r (le_of_lt h.lt) hl
      obtain ⟨rfl, -⟩ := hcalls.unique h.calls hwithin h.within
      cases pc with
      | refused item =>
          obtain ⟨p, k, hck, hkb, hvacant, hnext⟩ := hsight
          exact ⟨k, hck, hkb, items_vacant r hD (hkb.trans (le_of_lt h.lt)) hvacant hnext⟩
      | _ => cases hres

/-! ### What takes effect at a step -/

/-- The enqueue of an item whose ticket is drawn in a ring of the chain takes effect. -/
theorem puts_of_drawTail (hk : k < n) (he : r.event k = .act (.ring p (.drawTail t x)))
    (hp : p ∈ (trail T r k).2.chain) (hy : awaited T r p t = some y) :
  y = x ∧ ∃ a, Puts T r (r.who k) x a p t k
  := by
  obtain ⟨i, a, d, m, hcalls, had, hdm, hwithin, hdraw, hact⟩ := enqueue_of_awaited r hD hy
  obtain rfl := (course hD r p).drawTail_unique hdraw.1 hk (ringTag_eq_some.mpr hdraw.2.2)
    (ringTag_eq_some.mpr he)
  cases hdraw.2.2.symm.trans he
  rw [hdraw.2.1]
  exact ⟨rfl, a, hcalls, hwithin.mono had (le_of_lt hdm), hk, ⟨m, hwithin, hact⟩, Or.inl ⟨_, he, hp⟩⟩

/-- When the ticket of an item is drawn, the enqueue that takes effect is the one that draws it. -/
theorem Puts.drawTail (h : Puts T r i y a q u k)
    (he : r.event k = .act (.ring p (.drawTail t x))) :
  q = p ∧ u = t ∧ i = r.who k ∧ p ∈ (trail T r k).2.chain
  := by
  obtain ⟨m, hwithin, hact⟩ := h.install
  rcases h.comes with ⟨z, he', hp⟩ | ⟨he', -⟩
  · cases he.symm.trans he'
    obtain ⟨d, -, -, hdraw⟩ := tail_drawn_of_install r hD h.calls hwithin hact
    obtain rfl := (course hD r p).drawTail_unique hdraw.1 h.lt (ringTag_eq_some.mpr hdraw.2.2)
      (ringTag_eq_some.mpr he)
    exact ⟨rfl, rfl, hdraw.2.1.symm, hp⟩
  · cases he.symm.trans he'

/-- One enqueue installs with a ticket. -/
theorem Puts.unique (h : Puts T r i x a p t k) (h' : Puts T r i' y b p t k) :
  a = b
  := by
  obtain ⟨m, hwithin, hact⟩ := h.install
  obtain ⟨m', hwithin', hact'⟩ := h'.install
  obtain rfl := (course hD r p).install_unique hact.1 hact'.1 (ringTag_eq_some.mpr hact.2.2)
    (ringTag_eq_some.mpr hact'.2.2)
  obtain rfl : i = i' := hact.2.1.symm.trans hact'.2.1
  exact (h.calls.unique h'.calls hwithin hwithin').1

/-- One dequeue takes what comes with a ticket. -/
theorem Gets.unique (h : Gets T r j c p t x k) (h' : Gets T r j' c' p t y k) :
  c = c' ∧ x = y
  := by
  obtain ⟨e, -, -, hdraw⟩ := h.draws
  obtain ⟨e', -, -, hdraw'⟩ := h'.draws
  obtain rfl := (course hD r p).drawHead_unique hdraw.1 hdraw'.1 (ringTag_eq_some.mpr hdraw.2.2)
    (ringTag_eq_some.mpr hdraw'.2.2)
  obtain rfl : j = j' := hdraw.2.1.symm.trans hdraw'.2.1
  obtain ⟨out, hcalls⟩ := h.calls
  obtain ⟨out', hcalls'⟩ := h'.calls
  exact ⟨(hcalls.unique hcalls' h.within h'.within).1,
    Option.some.inj (h.item.symm.trans h'.item)⟩

/-- A dequeue takes effect in a ring of the chain. -/
theorem Gets.mem (h : Gets T r j c p t x k) :
  p ∈ (trail T r k).2.chain
  := by
  obtain ⟨e, -, hek, hdraw⟩ := h.draws
  exact (grows hD r hek (le_of_lt h.lt)).mem (reached_of_drawHead r hD hdraw.1 hdraw.2.2).mem

/-- The holder of a head ticket has drawn it in its dequeue. -/
theorem dequeue_of_held (hk : k ≤ n) (hheld : (tickets T (trail T r k) p).deq t = .held j) :
  ∃ out c e, r.Calls j (.dequeue out) c ∧ r.Within j c k ∧ c < e ∧ e < k ∧
    r.Acts j (.ring p (.drawHead t)) e
  := by
  obtain ⟨⟨out, c, hcalls, hwithin⟩, -⟩ := claims_of_held hD r hk hheld
  obtain ⟨e, hce, hek, hdraw⟩ := head_drawn hD r hcalls hk hwithin.1 hheld
  exact ⟨out, c, e, hcalls, hwithin, hce, hek, hdraw⟩

omit hD

/-- Nothing takes effect at a step at which no item comes or goes. -/
theorem Turn.rest (hitems : items T r (k + 1) = items T r k)
    (hputs : ∀ i x a p t, ¬ Puts T r i x a p t k) (hgets : ∀ j c p t x, ¬ Gets T r j c p t x k) :
  Turn T r k []
  := by
  constructor
  case takes =>
    rw [hitems]
    apply Run.Takes.nil
  case nodup => exact List.nodup_nil
  case sound => rintro a v ⟨⟩
  case puts => exact fun i x a p t h => absurd h (hputs i x a p t)
  case gets => exact fun j c p t x h => absurd h (hgets j c p t x)

/-- An enqueue takes effect when its item comes to the end. -/
theorem Turn.put (h : Puts T r i x a p t k) (hitems : items T r (k + 1) = items T r k ++ [x])
    (hputs : ∀ i x b p t, Puts T r i x b p t k → a = b)
    (hgets : ∀ j c p t x, ¬ Gets T r j c p t x k) :
  Turn T r k [(a, .enqueued)]
  := by
  constructor
  case takes =>
    rw [hitems]
    exact .enqueue h.calls (.nil _)
  case nodup => exact List.nodup_singleton a
  case sound =>
    intro b v hmem
    cases List.mem_singleton.mp hmem
    exact Or.inl ⟨rfl, i, x, p, t, h⟩
  case puts =>
    intro i x b p t h'
    rw [hputs i x b p t h']
    apply List.mem_singleton_self
  case gets => exact fun j c p t x h => absurd h (hgets j c p t x)

/-- A dequeue takes effect when its item leaves the front. -/
theorem Turn.get (h : Gets T r j c p t x k) (hitems : items T r k = x :: items T r (k + 1))
    (hputs : ∀ i x a p t, ¬ Puts T r i x a p t k)
    (hgets : ∀ j d p t y, Gets T r j d p t y k → c = d ∧ x = y) :
  Turn T r k [(c, .dequeued true x)]
  := by
  constructor
  case takes =>
    rw [hitems]
    obtain ⟨out, hcalls⟩ := h.calls
    exact .dequeue hcalls (.nil _)
  case nodup => exact List.nodup_singleton c
  case sound =>
    intro b v hmem
    cases List.mem_singleton.mp hmem
    exact Or.inr ⟨j, p, t, x, rfl, h⟩
  case puts => exact fun i x a p t h => absurd h (hputs i x a p t)
  case gets =>
    intro j d p t y h'
    obtain ⟨rfl, rfl⟩ := hgets j d p t y h'
    apply List.mem_singleton_self

/-- An enqueue and a dequeue take effect when the item is handed over. -/
theorem Turn.hand (h : Puts T r i x a p t k) (h' : Gets T r j c p t x k)
    (hitems : items T r k = []) (hitems' : items T r (k + 1) = [])
    (hputs : ∀ i x b p t, Puts T r i x b p t k → a = b)
    (hgets : ∀ j d p t y, Gets T r j d p t y k → c = d ∧ x = y) :
  Turn T r k [(a, .enqueued), (c, .dequeued true x)]
  := by
  obtain ⟨out, hcalls⟩ := h'.calls
  constructor
  case takes =>
    rw [hitems, hitems']
    exact .enqueue h.calls (.dequeue hcalls (.nil _))
  case nodup =>
    have hne : a ≠ c := by
      rintro rfl
      cases h.calls.2.2.symm.trans hcalls.2.2
    rw [List.map_cons, List.map_singleton, List.nodup_cons]
    exact ⟨fun hmem => hne (List.mem_singleton.mp hmem), List.nodup_singleton c⟩
  case sound =>
    intro b v hmem
    rcases List.mem_cons.mp hmem with heq | hmem
    · cases heq
      exact Or.inl ⟨rfl, i, x, p, t, h⟩
    · cases List.mem_singleton.mp hmem
      exact Or.inr ⟨j, p, t, x, rfl, h'⟩
  case puts =>
    intro i x b p t h'
    rw [hputs i x b p t h']
    apply List.mem_cons_self
  case gets =>
    intro j d p t y h'
    obtain ⟨rfl, rfl⟩ := hgets j d p t y h'
    apply List.mem_cons_of_mem _ (List.mem_singleton_self _)

include hD

/-- What takes effect when a tail ticket is drawn. -/
theorem turn_drawTail (hk : k < n) (he : r.event k = .act (.ring p (.drawTail t x))) :
  ∃ e, Turn T r k e
  := by
  -- only the calls of this ticket may take effect
  have hputs : ∀ {i y a q u}, Puts T r i y a q u k → q = p ∧ u = t ∧ i = r.who k ∧
      p ∈ (trail T r k).2.chain := fun h => h.drawTail r hD he
  have hgets : ∀ {j c q u y}, Gets T r j c q u y k → q = p ∧ u = t ∧
      t < (tickets T (trail T r k) p).head ∧ p ∈ (trail T r k).2.chain := by
    intro j c q u y h
    have hmem := h.mem r hD
    rcases h.goes with ⟨he', -⟩ | ⟨z, he', hlt⟩
    · cases he.symm.trans he'
    · cases he.symm.trans he'
      exact ⟨rfl, rfl, hlt, hmem⟩
  have hquiet : items T r (k + 1) = items T r k →
      (p ∈ (trail T r k).2.chain → awaited T r p t = none) → ∃ e, Turn T r k e := by
    intro hitems hnone
    refine ⟨[], Turn.rest r hitems ?_ ?_⟩
    · intro i y a q u h
      obtain ⟨rfl, rfl, -, hp⟩ := hputs h
      cases (hnone hp).symm.trans (h.awaited r hD)
    · intro j c q u y h
      obtain ⟨rfl, rfl, -, hp⟩ := hgets h
      cases (hnone hp).symm.trans h.item
  by_cases hp : p ∈ (trail T r k).2.chain
  · cases hy : awaited T r p t with
    | none =>
        apply hquiet _ fun _ => hy
        rcases lt_or_ge t (tickets T (trail T r k) p).head with hlt | hle
        · apply items_rest r hD hk
          · intro q he'
            cases he.symm.trans he'
          · intro q τ he' _
            cases he.symm.trans he'
            apply ringItems_other r hD hk he
            · intro u z hu
              cases hu
              exact hlt
            · rintro u ⟨⟩
        · rw [items_drawTail r hD hk he hp hle, hy, Option.toList_none, List.append_nil]
    | some y =>
        obtain ⟨rfl, a, h⟩ := puts_of_drawTail r hD hk he hp hy
        have honly : ∀ i x b q u, Puts T r i x b q u k → a = b := by
          intro i x b q u h'
          obtain ⟨rfl, rfl, -, -⟩ := hputs h'
          exact h.unique r hD h'
        rcases lt_or_ge t (tickets T (trail T r k) p).head with hlt | hle
        · obtain ⟨hold, hnew, j, hj⟩ := items_handed r hD hk he hp hlt hy
          obtain ⟨out, c, e, hcalls, hwithin, hce, hek, hdraw⟩ :=
            dequeue_of_held r hD (le_of_lt hk) hj
          have h' : Gets T r j c p t y k :=
            ⟨⟨out, hcalls⟩, hwithin, hk, ⟨e, hce, le_of_lt hek, hdraw⟩, hy, Or.inr ⟨y, he, hlt⟩⟩
          refine ⟨_, Turn.hand r h h' hold hnew honly fun j' d q u z h'' => ?_⟩
          obtain ⟨rfl, rfl, -, -⟩ := hgets h''
          exact h'.unique r hD h''
        · refine ⟨_, Turn.put r h ?_ honly fun j c q u z h' => ?_⟩
          · rw [items_drawTail r hD hk he hp hle, hy, Option.toList_some]
          · obtain ⟨-, -, hlt, -⟩ := hgets h'
            exact absurd hlt (not_lt.mpr hle)
  · apply hquiet _ fun h => absurd h hp
    apply items_rest r hD hk
    · intro q he'
      cases he.symm.trans he'
    · intro q τ he' hq
      cases he.symm.trans he'
      exact absurd hq hp

/-- What takes effect when a head ticket is drawn. -/
theorem turn_drawHead (hk : k < n) (he : r.event k = .act (.ring p (.drawHead t))) :
  ∃ e, Turn T r k e
  := by
  have hputs : ∀ i y a q u, ¬ Puts T r i y a q u k := by
    intro i y a q u h
    rcases h.comes with ⟨z, he', -⟩ | ⟨he', -⟩
    · cases he.symm.trans he'
    · cases he.symm.trans he'
  have hgets : ∀ {j c q u y}, Gets T r j c q u y k → q = p ∧ u = t ∧
      t < (tickets T (trail T r k) p).tail := by
    intro j c q u y h
    rcases h.goes with ⟨he', hlt⟩ | ⟨z, he', -⟩
    · cases he.symm.trans he'
      exact ⟨rfl, rfl, hlt⟩
    · cases he.symm.trans he'
  rcases lt_or_ge t (tickets T (trail T r k) p).tail with hlt | hle
  · have hitems := items_drawHead r hD hk he hlt
    cases hy : awaited T r p t with
    | none =>
        rw [hy, Option.toList_none, List.nil_append] at hitems
        refine ⟨[], Turn.rest r hitems.symm hputs fun j c q u y h => ?_⟩
        obtain ⟨rfl, rfl, -⟩ := hgets h
        cases hy.symm.trans h.item
    | some y =>
        rw [hy, Option.toList_some, List.singleton_append] at hitems
        obtain ⟨-, -, -, -, -, -, -, -, happly⟩ := ring_act hD r hk he
        have hheld : (tickets T (trail T r (k + 1)) p).deq t = .held (r.who k) := by
          rw [happly]
          apply Function.update_self
        obtain ⟨out, c, e, hcalls, hwithin, hce, -, hdraw⟩ := dequeue_of_held r hD hk hheld
        obtain rfl := (course hD r p).drawHead_unique hdraw.1 hk (ringTag_eq_some.mpr hdraw.2.2)
          (ringTag_eq_some.mpr he)
        have h : Gets T r (r.who e) c p t y e :=
          ⟨⟨out, hcalls⟩, hwithin.mono hce (Nat.le_succ e), hk, ⟨e, hce, le_rfl, hdraw⟩, hy,
            Or.inl ⟨he, hlt⟩⟩
        refine ⟨_, Turn.get r h hitems hputs fun j d q u z h' => ?_⟩
        obtain ⟨rfl, rfl, -⟩ := hgets h'
        exact h.unique r hD h'
  · refine ⟨[], Turn.rest r ?_ hputs fun j c q u y h => ?_⟩
    · apply items_rest r hD hk
      · intro q he'
        cases he.symm.trans he'
      · intro q τ he' _
        cases he.symm.trans he'
        apply ringItems_other r hD hk he
        · rintro u z ⟨⟩
        · intro u hu
          cases hu
          exact hle
    · obtain ⟨-, -, hlt⟩ := hgets h
      exact absurd hlt (not_lt.mpr hle)

/-- What takes effect when a ring is linked. -/
theorem turn_link (hk : k < n) (he : r.event k = .act (.link p)) :
  ∃ e, Turn T r k e
  := by
  obtain ⟨x, a, t, m, hcalls, hwithin, hplaced, hitem, honly⟩ := ringItems_linked r hD hk he
  have hcourse := course hD r p
  have hwithin' := hwithin.mono hplaced.after (le_of_lt hplaced.before)
  obtain ⟨d, had, hdm, hdraw⟩ := tail_drawn_of_install r hD hcalls hwithin' hplaced.install
  have h : Puts T r (r.who k) x a p t k := ⟨hcalls, hwithin, hk, ⟨m, hwithin', hplaced.install⟩,
    Or.inr ⟨he, d, hdm.trans hplaced.before, x, hdraw.2.2⟩⟩
  refine ⟨_, Turn.put r h ?_ ?_ ?_⟩
  · rw [items_link r hD hk he, hitem]
  · intro i y b q u h'
    rcases h'.comes with ⟨z, he', -⟩ | ⟨he', d', hdk, z, hd'⟩
    · cases he.symm.trans he'
    · cases he.symm.trans he'
      -- the ticket of the other enqueue has been drawn by now
      have hlt : u < (tickets T (trail T r k) p).tail := by
        obtain ⟨⟨-, hu⟩, happly⟩ := hcourse.step d' (hdk.trans hk) _ (ringTag_eq_some.mpr hd')
        have hlater := (hcourse.later hdk (le_of_lt hk)).tail
        rw [happly] at hlater
        rw [hu]
        exact hlater
      obtain rfl := honly u y hlt (h'.awaited r hD)
      exact h.unique r hD h'
  · intro j c q u y h'
    rcases h'.goes with ⟨he', -⟩ | ⟨z, he', -⟩
    · cases he.symm.trans he'
    · cases he.symm.trans he'

/-- Some calls take effect at each step. -/
theorem exists_turn (hk : k < n) :
  ∃ e, Turn T r k e
  := by
  by_cases hlink : ∃ p, r.event k = .act (.link p)
  · obtain ⟨p, he⟩ := hlink
    exact turn_link r hD hk he
  by_cases htail : ∃ p t x, r.event k = .act (.ring p (.drawTail t x))
  · obtain ⟨p, t, x, he⟩ := htail
    exact turn_drawTail r hD hk he
  by_cases hhead : ∃ p t, r.event k = .act (.ring p (.drawHead t))
  · obtain ⟨p, t, he⟩ := hhead
    exact turn_drawHead r hD hk he
  push Not at hlink htail hhead
  refine ⟨[], Turn.rest r ?_ ?_ ?_⟩
  · apply items_rest r hD hk hlink
    intro q τ he _
    apply ringItems_other r hD hk he
    · rintro t x rfl
      exact absurd he (htail q t x)
    · rintro t rfl
      exact absurd he (hhead q t)
  · intro i x a p t h
    rcases h.comes with ⟨z, he, -⟩ | ⟨he, -⟩
    · exact htail p t z he
    · exact hlink p he
  · intro j c p t x h
    rcases h.goes with ⟨he, -⟩ | ⟨z, he, -⟩
    · exact hhead p t he
    · exact htail p t z he

/-! ### Every run -/

/-- A thread that returns is at the end of its operation. -/
theorem served {v : QueueRes ℕ} (h : r.Returns i o a v b) :
  ∃ l, (machine M dequeue).result l = some v ∧ Serves o l
  := by
  obtain ⟨l, hl, hres⟩ := h.result
  obtain ⟨o', a', hcalls, hwithin, hserves⟩ := serves hD r (le_of_lt h.lt) hl
  obtain ⟨rfl, rfl⟩ := hcalls.unique h.calls hwithin h.within
  exact ⟨l, hres, hserves⟩

/-- The calls of a run take effect on the list of the items that wait. -/
theorem schedule (hT : Gives T) :
  ∃ e, r.Schedule (items T r) e
  := by
  have hturn : ∀ k, ∃ e, k < n → Turn T r k e := by
    intro k
    by_cases hk : k < n
    · obtain ⟨e, he⟩ := exists_turn r hD hk
      exact ⟨e, fun _ => he⟩
    · exact ⟨[], fun hk' => absurd hk' hk⟩
  choose e he using hturn
  refine ⟨e, items_start T r, fun k hk => (he k hk).takes, ?_, fun k hk => (he k hk).nodup, ?_, ?_⟩
  · intro k hk a v i o hmem hcalls
    rcases (he k hk).sound a v hmem with ⟨-, i', x, p, t, h⟩ | ⟨j, p, t, x, -, h⟩
    · obtain rfl : i = i' := hcalls.2.1.symm.trans h.calls.2.1
      exact h.within
    · obtain ⟨out, hcalls'⟩ := h.calls
      obtain rfl : i = j := hcalls.2.1.symm.trans hcalls'.2.1
      exact h.within
  · intro k hk m hm a v w hmem hmem'
    rcases (he k hk).sound a v hmem with ⟨-, i, x, p, t, h⟩ | ⟨j, p, t, x, -, h⟩
    · rcases (he m hm).sound a w hmem' with ⟨-, i', y, q, u, h'⟩ | ⟨j', q, u, y, -, h'⟩
      · obtain rfl : i = i' := h.calls.2.1.symm.trans h'.calls.2.1
        exact h.once r hD h'
      · obtain ⟨out, hcalls⟩ := h'.calls
        cases h.calls.2.2.symm.trans hcalls.2.2
    · obtain ⟨out, hcalls⟩ := h.calls
      rcases (he m hm).sound a w hmem' with ⟨-, i', y, q, u, h'⟩ | ⟨j', q, u, y, -, h'⟩
      · cases hcalls.2.2.symm.trans h'.calls.2.2
      · obtain ⟨out', hcalls'⟩ := h'.calls
        obtain rfl : j = j' := hcalls.2.1.symm.trans hcalls'.2.1
        exact h.once r hD hT h'
  · intro i o a v b hret
    cases o with
    | enqueue x =>
        obtain rfl : v = .enqueued := by
          obtain ⟨l, hres, hserves⟩ := served r hD hret
          cases l with
          | enqueue pc =>
              cases pc with
              | done y =>
                  cases hres
                  rfl
              | _ => cases hres
          | dequeue pc =>
              obtain ⟨out, hout⟩ := hserves
              cases hout
        obtain ⟨p, t, k, hkb, h⟩ := exists_puts r hD hret
        exact Or.inl ⟨k, le_of_lt hkb, (he k h.lt).puts _ _ _ _ _ h⟩
    | dequeue out =>
        cases v with
        | enqueued =>
            obtain ⟨l, hres, hserves⟩ := served r hD hret
            cases l with
            | enqueue pc => cases hserves
            | dequeue pc =>
                cases pc with
                | _ => cases hres
        | dequeued success x =>
            cases success with
            | true =>
                obtain ⟨p, t, k, hkb, h⟩ := exists_gets r hD hret
                exact Or.inl ⟨k, le_of_lt hkb, (he k h.lt).gets _ _ _ _ _ h⟩
            | false =>
                obtain ⟨k, hak, hkb, hitems⟩ := items_refused r hD hret
                refine Or.inr ⟨out, x, k, rfl, rfl, hak, hkb, hitems, fun m hm w hmem => ?_⟩
                rcases (he m hm).sound a w hmem with ⟨-, i', y, p, t, h⟩ | ⟨j, p, t, y, -, h⟩
                · cases hret.calls.2.2.symm.trans h.calls.2.2
                · obtain ⟨out', hcalls⟩ := h.calls
                  obtain rfl : i = j := hret.calls.2.1.symm.trans hcalls.2.1
                  exact not_gets_of_false r hD hT hret h

/-- The history of a run is one of the atomic queue. -/
theorem admits (hT : Gives T) :
  (AtomicQueue.machine ι ℕ).Admits (r.history n)
  := by
  obtain ⟨e, he⟩ := schedule r hD hT
  obtain ⟨l, hl⟩ := he.linear
  apply hl.admits

end RingQueue
