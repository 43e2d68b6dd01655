import ConcurrentQueues.Library.Progress
import ConcurrentQueues.Library.TicketRing

/-!
# When a ring is closed

An enqueue whose attempt fails compares its ticket with the head. When they are `capacity`
apart, or when too many attempts have failed, it closes the ring. The distance is computed
on words of 64 bits and wraps around, so that a head which has overtaken the ticket
seems far behind it.
-/

/-- The distance of two words wraps around when the second is ahead of the first. -/
theorem wrapping_distance {c t h : ℕ} (hc : c ≤ 2 ^ 63) (ht : t < 2 ^ 63) (hh : h < 2 ^ 63) :
  c ≤ (t + 2 ^ 64 - h) % 2 ^ 64 ↔ h + c ≤ t ∨ t < h
  := by
  rcases Nat.lt_or_ge t h with hlt | hle
  · have hmod : (t + 2 ^ 64 - h) % 2 ^ 64 = t + 2 ^ 64 - h := Nat.mod_eq_of_lt (by omega)
    rw [hmod]
    omega
  · have hmod : (t + 2 ^ 64 - h) % 2 ^ 64 = t - h := by omega
    rw [hmod]
    omega

/-- Whether an access ends a failed attempt of an enqueue. -/
def RingTag.fails {V : Type} : RingTag V → Bool
  | .giveUp _ => true
  | _ => false

/-- An access of a dequeue neither fails an enqueue nor closes the ring. -/
theorem RingTag.OfDequeue.plain {V : Type} {τ : RingTag V} (h : τ.OfDequeue) :
  τ.fails = false ∧ τ ≠ .close
  := by
  cases τ with
  | giveUp => cases h
  | close => cases h
  | _ => exact ⟨rfl, by rintro ⟨⟩⟩

/-- How far an enqueue is: in an attempt, with the number of those before and with its ticket
once it has drawn one; about to close the ring; or past its last attempt. A dequeue counts
as past it too. -/
inductive RingPhase where
  | trying (iteration : ℕ) (ticket : Option ℕ)
  | closing
  | past

/-- What an access does to the phase when the head is `h`. -/
inductive RingPhase.Step {V : Type} (capacity threshold h : ℕ) :
    RingPhase → RingTag V → RingPhase → Prop where
  | go {it : ℕ} {t t' : Option ℕ} {τ : RingTag V} (hτ : τ.fails = false) (hclose : τ ≠ .close)
      (ht : ∀ u, t' = some u → t = some u ∨ u < 2 ^ 63) :
      Step capacity threshold h (.trying it t) τ (.trying it t')
  | retry {it t : ℕ} (hroom : ¬ (capacity ≤ (t + 2 ^ 64 - h) % 2 ^ 64 ∨ threshold < it)) :
      Step capacity threshold h (.trying it (some t)) (.giveUp t) (.trying (it + 1) none)
  | shut {it t : ℕ} (hfull : capacity ≤ (t + 2 ^ 64 - h) % 2 ^ 64 ∨ threshold < it) :
      Step capacity threshold h (.trying it (some t)) (.giveUp t) .closing
  | close : Step capacity threshold h .closing .close .past
  | pass {p : RingPhase} {τ : RingTag V} (hp : p ≠ .closing) (hτ : τ.fails = false)
      (hclose : τ ≠ .close) : Step capacity threshold h p τ .past

namespace Machine

variable {ι ρ ℓ V Ch A : Type} {M : Machine ι ρ ℓ (RingOp V) (RingRes V) (RingTag V) Ch}

/-- A ring of `capacity` cells whose enqueues go through the phases. -/
structure Closer (M : Machine ι ρ ℓ (RingOp V) (RingRes V) (RingTag V) Ch) where
  capacity : ℕ
  threshold : ℕ
  head : ρ → ℕ
  phase : ℓ → RingPhase
  small : capacity ≤ 2 ^ 63
  head_lt : ∀ {s}, M.legal s → head s < 2 ^ 63
  enqueue : ∀ x, phase (M.start (.enqueue x)) = .trying 0 none
  dequeue : phase (M.start .dequeue) = .past
  closing : ∀ {l}, phase l = .closing → M.result l = none
  step : ∀ {i ch s l s' l' τ}, M.step i ch s l = some (s', l', τ) →
    RingPhase.Step capacity threshold (head s) (phase l) τ (phase l')

namespace Run

variable [DecidableEq ι] {n : ℕ} (r : M.Run n)

/-- At step `k` the enqueue of thread `i` from step `a` gives up the attempt with ticket `t`, and
reads the head. -/
structure Check (i : ι) (a t k : ℕ) : Prop where
  call : ∃ x, r.Calls i (.enqueue x) a
  within : r.Within i a k
  fails : r.Acts i (.giveUp t) k

/-- Step `m` is the next one of thread `i` after step `k`. -/
structure Next (i : ι) (k m : ℕ) : Prop where
  lt : k < m
  stop : m < n
  who : r.who m = i
  since : ∀ j, k < j → j < m → r.who j ≠ i

variable {r}

/-- A thread stays where it is until its next step. -/
theorem Next.thread {i : ι} {k m : ℕ} (h : r.Next i k m) :
  (r.conf m).thread i = (r.conf (k + 1)).thread i
  := by
  have hstay : ∀ j, k + 1 ≤ j → j ≤ m → (r.conf j).thread i = (r.conf (k + 1)).thread i := by
    intro j hkj
    induction hkj with
    | refl => exact fun _ => rfl
    | @step j hkj ih =>
        intro hjm
        have hne := h.since j hkj hjm
        rw [(r.step j (lt_of_lt_of_le hjm (le_of_lt h.stop))).other (Ne.symm hne)]
        exact ih (Nat.le_of_succ_le hjm)
  exact hstay m h.lt le_rfl

/-- The step before is determined. -/
theorem Next.unique {i : ι} {k k' m : ℕ} (h : r.Next i k m) (h' : r.Next i k' m)
    (hk : r.who k = i) (hk' : r.who k' = i) :
  k = k'
  := by
  rcases lt_trichotomy k k' with hlt | heq | hlt
  · exact absurd hk' (h.since k' hlt h'.lt)
  · exact heq
  · exact absurd hk (h'.since k hlt h.lt)

/-- The call and the ticket of a failed attempt are determined. -/
theorem Check.unique {i : ι} {a a' t t' k : ℕ} (h : r.Check i a t k) (h' : r.Check i a' t' k) :
  a = a' ∧ t = t'
  := by
  obtain ⟨x, hx⟩ := h.call
  obtain ⟨x', hx'⟩ := h'.call
  use (hx.unique hx' h.within h'.within).1
  have heq := h.fails.2.2.symm.trans h'.fails.2.2
  cases heq
  rfl

end Run

namespace Closer

variable [DecidableEq ι] {n : ℕ} (C : Closer M) (r : M.Run n)

/-- The head just read says that the ring is full for ticket `t`, or more than `threshold`
attempts of the call have failed before. -/
def FullOrStarving (i : ι) (a t k : ℕ) : Prop :=
  C.head (r.conf k).shared + C.capacity ≤ t ∨ C.threshold < r.made RingTag.fails i a k

/-- The head just read has not overtaken ticket `t`, or more than `threshold` attempts of the
call have failed before. -/
def BehindOrStarving (i : ι) (a t k : ℕ) : Prop :=
  C.head (r.conf k).shared ≤ t ∨ C.threshold < r.made RingTag.fails i a k

/-- An enqueue closes the ring only where its attempt has just failed on a full ring, or where
the call is starving. -/
def ClosesWhenFull : Prop :=
  ∀ i m, r.Acts i .close m →
    ∃ a t k, r.Check i a t k ∧ r.Next i k m ∧ C.FullOrStarving r i a t k

/-- What the code makes of this: it is right at exactly those failed attempts whose ticket the
head has not overtaken. -/
structure ClosesUnlessOvertaken : Prop where
  /-- The ticket of a failed attempt was drawn for it. -/
  drawn : ∀ i a t k, r.Check i a t k → ∃ d x, r.Attempt i (.drawTail t x) d k
  checks : ∀ i a t k m, r.Check i a t k → r.Next i k m →
    ((r.Acts i .close m → C.FullOrStarving r i a t k) ↔ C.BehindOrStarving r i a t k)
  run : C.ClosesWhenFull r ↔
    ∀ i a t k m, r.Check i a t k → r.Next i k m → C.BehindOrStarving r i a t k

/-! ### What a thread knows -/

/-- What has happened in a call whose thread is in a phase. -/
def Knows (i : ι) (o : RingOp V) (a k : ℕ) : RingPhase → Prop
  | .trying it t =>
      (∃ x, o = .enqueue x) ∧ r.made RingTag.fails i a k = it ∧ ∀ u, t = some u → u < 2 ^ 63
  | .closing => ∃ t e, r.Check i a t e ∧ e < k ∧ ∀ j, e < j → j < k → r.who j ≠ i
  | .past => True

variable {r}

/-- An access of the thread keeps what it knows. -/
theorem knows_own {i : ι} {o : RingOp V} {a k : ℕ} {p p' : RingPhase} {τ : RingTag V} {h : ℕ}
    (hcalls : r.Calls i o a) (hwithin : r.Within i a k) (hknows : Knows r i o a k p)
    (hacts : r.Acts i τ k) (hs : RingPhase.Step C.capacity C.threshold h p τ p') :
  Knows r i o a (k + 1) p'
  := by
  have hmade := r.made_succ (p := RingTag.fails) hwithin.1 hacts.2.1
  rw [Run.tag_eq_some.mpr hacts.2.2, Option.any_some] at hmade
  cases hs with
  | go hτ _ ht =>
      obtain ⟨ho, hit, hsmall⟩ := hknows
      rw [hτ, hit] at hmade
      refine ⟨ho, hmade, fun u hu => ?_⟩
      rcases ht u hu with hu | hu
      · exact hsmall u hu
      · exact hu
  | retry =>
      obtain ⟨ho, hit, -⟩ := hknows
      rw [hit] at hmade
      exact ⟨ho, hmade, by rintro u ⟨⟩⟩
  | shut =>
      obtain ⟨⟨x, rfl⟩, -, -⟩ := hknows
      exact ⟨_, k, ⟨⟨x, hcalls⟩, hwithin, hacts⟩, Nat.lt_succ_self k, fun j hj hj' => by omega⟩
  | close => trivial
  | pass => trivial

/-- The steps of other threads keep what a thread knows. -/
theorem knows_other {i : ι} {o : RingOp V} {a k : ℕ} {p : RingPhase} (hknows : Knows r i o a k p)
    (hi : r.who k ≠ i) :
  Knows r i o a (k + 1) p
  := by
  cases p with
  | trying it t =>
      obtain ⟨ho, hit, hsmall⟩ := hknows
      exact ⟨ho, (r.made_other hi).trans hit, hsmall⟩
  | closing =>
      obtain ⟨t, e, hcheck, he, hsince⟩ := hknows
      refine ⟨t, e, hcheck, Nat.lt_succ_of_lt he, fun j hj hj' => ?_⟩
      rcases Nat.lt_succ_iff_lt_or_eq.mp hj' with hj' | rfl
      · exact hsince j hj hj'
      · exact hi
  | past => trivial

variable (r) in
theorem knows {k : ℕ} (hk : k ≤ n) {i : ι} {l : ℓ} (hl : (r.conf k).thread i = some l) :
  ∃ o a, r.Calls i o a ∧ r.Within i a k ∧ Knows r i o a k (C.phase l)
  := by
  apply r.busy_induction (fun i o a k l => Knows r i o a k (C.phase l)) _ _ _ k hk i l hl
  · intro i o a _
    cases o with
    | enqueue x =>
        rw [C.enqueue]
        exact ⟨⟨x, rfl⟩, r.made_start _ i a, by rintro u ⟨⟩⟩
    | dequeue =>
        rw [C.dequeue]
        trivial
  · intro i o a k l ch s l' τ hcalls hwithin hknows hacts _ hs _
    exact C.knows_own hcalls hwithin hknows hacts (C.step hs)
  · intro i o a k l _ _ hknows _ _ hi
    exact knows_other hknows hi

/-- At a failed attempt the code compares the ticket, which is a word, with the head. -/
theorem check_step {i : ι} {a t k : ℕ} (h : r.Check i a t k) :
  ∃ l l', (r.conf (k + 1)).thread i = some l' ∧
    C.phase l = .trying (r.made RingTag.fails i a k) (some t) ∧ t < 2 ^ 63 ∧
    RingPhase.Step C.capacity C.threshold (C.head (r.conf k).shared) (C.phase l)
      (.giveUp t : RingTag V) (C.phase l')
  := by
  obtain ⟨l, ch, s, l', hl, hs, hc⟩ := h.fails.step
  have hstep := C.step hs
  obtain ⟨o, a', hcalls, hwithin, hknows⟩ := C.knows r (le_of_lt h.fails.1) hl
  obtain ⟨x, hx⟩ := h.call
  obtain ⟨rfl, -⟩ := hcalls.unique hx hwithin h.within
  refine ⟨l, l', ?_, ?_⟩
  · rw [hc, Config.put_thread_self]
  · generalize C.phase l = p at hknows hstep
    generalize C.phase l' = p' at hstep
    cases hstep with
    | go hτ => cases hτ
    | retry hroom =>
        obtain ⟨-, rfl, hsmall⟩ := hknows
        exact ⟨rfl, hsmall t rfl, .retry hroom⟩
    | shut hfull =>
        obtain ⟨-, rfl, hsmall⟩ := hknows
        exact ⟨rfl, hsmall t rfl, .shut hfull⟩
    | pass _ hτ => cases hτ

/-! ### The law -/

/-- What the code computes at a failed attempt. -/
theorem full_iff {i : ι} {a t k : ℕ} (hk : k ≤ n) (ht : t < 2 ^ 63) :
  (C.capacity ≤ (t + 2 ^ 64 - C.head (r.conf k).shared) % 2 ^ 64 ∨
      C.threshold < r.made RingTag.fails i a k) ↔
    C.FullOrStarving r i a t k ∨ t < C.head (r.conf k).shared
  := by
  rw [wrapping_distance C.small ht (C.head_lt (r.legal k hk)), FullOrStarving]
  tauto

/-- After a failed attempt the next step of the thread closes the ring exactly if the head is too
far behind the ticket or ahead of it, or the call is starving. -/
theorem closes_iff {i : ι} {a t k m : ℕ} (h : r.Check i a t k) (hm : r.Next i k m) :
  r.Acts i .close m ↔ C.FullOrStarving r i a t k ∨ t < C.head (r.conf k).shared
  := by
  obtain ⟨l, l', hl', hphase, ht, hstep⟩ := C.check_step h
  rw [← C.full_iff (le_of_lt h.fails.1) ht]
  rw [← hm.thread] at hl'
  generalize hp' : C.phase l' = p' at hstep
  rw [hphase] at hstep
  constructor
  · intro hclose
    obtain ⟨l₀, ch, s, l'', hl₀, hs, -⟩ := hclose.step
    obtain rfl := Option.some.inj (hl'.symm.trans hl₀)
    have hs := C.step hs
    rw [hp'] at hs
    cases hstep with
    | go hτ => cases hτ
    | retry =>
        generalize C.phase l'' = p'' at hs
        cases hs with
        | go _ hclose => exact absurd rfl hclose
        | pass _ _ hclose => exact absurd rfl hclose
    | shut hfull => exact hfull
    | pass _ hτ => cases hτ
  · intro hfull
    cases hstep with
    | go hτ => cases hτ
    | retry hroom => exact absurd hfull hroom
    | shut =>
        have hwho := hm.who
        subst hwho
        obtain ⟨τ, ch, s, l'', he, hs, -⟩ := Run.act_of_busy hm.stop hl' (C.closing hp')
        have hs := C.step hs
        rw [hp'] at hs
        generalize C.phase l'' = p'' at hs
        cases hs with
        | close => exact ⟨hm.stop, rfl, he⟩
        | pass hp => exact absurd rfl hp
    | pass _ hτ => cases hτ

include C in
/-- Every closing of a ring follows a failed attempt. -/
theorem close_cause {i : ι} {m : ℕ} (h : r.Acts i .close m) :
  ∃ a t k, r.Check i a t k ∧ r.Next i k m
  := by
  obtain ⟨l, ch, s, l', hl, hs, -⟩ := h.step
  have hstep := C.step hs
  obtain ⟨o, a, -, -, hknows⟩ := C.knows r (le_of_lt h.1) hl
  generalize C.phase l = p at hknows hstep
  generalize C.phase l' = p' at hstep
  cases hstep with
  | go _ hclose => exact absurd rfl hclose
  | close =>
      obtain ⟨t, k, hcheck, hk, hsince⟩ := hknows
      exact ⟨a, t, k, hcheck, hk, h.1, h.2.1, hsince⟩
  | pass _ _ hclose => exact absurd rfl hclose

variable (r) in
/-- A ring is closed where it should not be exactly at the failed attempts whose ticket the head
has overtaken. -/
theorem closesUnlessOvertaken {K : M.Ticketing A} {G : ρ × A → Prop}
    {L : ι → ρ × A → Option ℓ → Prop} {R : ι → ρ × A → ρ × A → Prop} {holds : ρ → ℕ → V → Prop}
    {null : V} (hK : K.Sound G L R holds null) :
  C.ClosesUnlessOvertaken r
  := by
  have hchecks : ∀ i a t k m, r.Check i a t k → r.Next i k m →
      ((r.Acts i .close m → C.FullOrStarving r i a t k) ↔ C.BehindOrStarving r i a t k) := by
    intro i a t k m hcheck hnext
    rw [C.closes_iff hcheck hnext]
    constructor
    · intro h
      rcases Nat.lt_or_ge t (C.head (r.conf k).shared) with hlt | hle
      · apply (h (Or.inr hlt)).imp_left
        omega
      · exact Or.inl hle
    · rintro (hle | hstarving) (hfull | hlt)
      · exact hfull
      · exact absurd hle (Nat.not_le.mpr hlt)
      · exact hfull
      · exact Or.inr hstarving
  constructor
  case drawn =>
    rintro i a t k ⟨-, -, hk, rfl, he⟩
    obtain ⟨⟨x, hheld⟩, -⟩ := (hK.course r).step k hk _ (Run.tag_eq_some.mpr he)
    obtain ⟨d, hd⟩ := hK.tail_attempt r hk hheld
    exact ⟨d, x, hd⟩
  case checks => exact hchecks
  case run =>
    constructor
    · intro h i a t k m hcheck hnext
      apply (hchecks i a t k m hcheck hnext).mp
      intro hclose
      obtain ⟨a', t', k', hcheck', hnext', hfull⟩ := h i m hclose
      obtain rfl := hnext'.unique hnext hcheck'.fails.2.1 hcheck.fails.2.1
      obtain ⟨rfl, rfl⟩ := hcheck'.unique hcheck
      exact hfull
    · intro h i m hclose
      obtain ⟨a, t, k, hcheck, hnext⟩ := close_cause C hclose
      exact ⟨a, t, k, hcheck, hnext,
        (hchecks i a t k m hcheck hnext).mpr (h i a t k m hcheck hnext) hclose⟩

end Closer

end Machine
