import ConcurrentQueues.Library.Machine

/-!
# Proof outlines and history variables

A proof outline of a machine consists of an invariant of the shared state, an assertion
for each local state of each thread, and a relation that bounds what the other
threads may do to the shared state while a thread rests. The obligations of an outline
are about one step of one thread; they carry over to every run of any number of threads.

A `Ghost` adds to the shared state a variable that no step reads. Every run of a machine
in which the ghost stays within its bound lifts to a run of the machine with the ghost.
-/

variable {ι σ ℓ Op Res Tag Ch A : Type}

namespace Machine

/-- A proof outline. `G` holds of the shared state, and `L i` of the shared state and the
local state of thread `i`, where `none` is the local state of a thread in no call. A
step of a thread is seen by each other thread `j` as a step of `R j`, which must keep
the assertions of `j`. -/
structure Outline (M : Machine ι σ ℓ Op Res Tag Ch) (G : σ → Prop)
    (L : ι → σ → Option ℓ → Prop) (R : ι → σ → σ → Prop) : Prop where
  init : G M.init
  idle : ∀ i, L i M.init none
  call : ∀ {i s o}, G s → L i s none → M.valid o → L i s (some (M.start o))
  ret : ∀ {i s l v}, G s → L i s (some l) → M.result l = some v → L i s none
  step : ∀ {i ch s l s' l' t}, G s → L i s (some l) → M.legal s → M.legal s' →
    M.step i ch s l = some (s', l', t) → G s' ∧ L i s' (some l') ∧ ∀ j, j ≠ i → R j s s'
  stable : ∀ {j s s' l}, G s → G s' → R j s s' → L j s l → L j s' l

variable [DecidableEq ι] {M : Machine ι σ ℓ Op Res Tag Ch} {G : σ → Prop}
  {L : ι → σ → Option ℓ → Prop} {R : ι → σ → σ → Prop}

/-- The assertions of an outline hold at every moment of every run. -/
theorem Outline.sound (h : M.Outline G L R) {n : ℕ} (r : M.Run n) :
  ∀ k ≤ n, G (r.conf k).shared ∧ ∀ i, L i (r.conf k).shared ((r.conf k).thread i)
  := by
  intro k
  induction k with
  | zero =>
      intro _
      rw [r.start]
      exact ⟨h.init, h.idle⟩
  | succ k ih =>
      intro hk
      obtain ⟨hG, hL⟩ := ih (Nat.le_of_succ_le hk)
      have hstep := r.step k hk
      have hother : ∀ j, j ≠ r.who k → (r.conf (k + 1)).thread j = (r.conf k).thread j :=
        fun j hj => hstep.other hj
      have hself := hL (r.who k)
      cases he : r.event k with
      | call o =>
          rw [he] at hstep
          obtain ⟨hidle, hvalid, hc⟩ := hstep.call_inv
          rw [hidle] at hself
          have hs : (r.conf (k + 1)).shared = (r.conf k).shared := by rw [hc]; rfl
          rw [hs]
          use hG
          intro j
          by_cases hj : j = r.who k
          · subst hj
            rw [hc, Config.put_thread_self]
            apply h.call hG hself hvalid
          · rw [hother j hj]
            apply hL
      | ret v =>
          rw [he] at hstep
          obtain ⟨l, hbusy, hv, hc⟩ := hstep.ret_inv
          rw [hbusy] at hself
          have hs : (r.conf (k + 1)).shared = (r.conf k).shared := by rw [hc]; rfl
          rw [hs]
          use hG
          intro j
          by_cases hj : j = r.who k
          · subst hj
            rw [hc, Config.put_thread_self]
            apply h.ret hG hself hv
          · rw [hother j hj]
            apply hL
      | act t =>
          rw [he] at hstep
          obtain ⟨l, ch, s, l', hbusy, hs, hc⟩ := hstep.act_inv
          rw [hbusy] at hself
          have hshared : (r.conf (k + 1)).shared = s := by rw [hc]; rfl
          have hlegal := r.legal (k + 1) hk
          rw [hshared] at hlegal ⊢
          obtain ⟨hG', hL', hR⟩ := h.step hG hself (r.legal k (Nat.le_of_succ_le hk)) hlegal hs
          use hG'
          intro j
          by_cases hj : j = r.who k
          · subst hj
            rw [hc, Config.put_thread_self]
            apply hL'
          · rw [hother j hj]
            apply h.stable hG hG' (hR j hj) (hL j)

/-- An access of a run, with what an outline asserts before it. -/
theorem Outline.acts (h : M.Outline G L R) {n : ℕ} {r : M.Run n} {i : ι} {t : Tag} {k : ℕ}
    (ht : r.Acts i t k) :
  ∃ l ch s l', (r.conf k).thread i = some l ∧
    M.step i ch (r.conf k).shared l = some (s, l', t) ∧
    r.conf (k + 1) = (r.conf k).put i s (some l') ∧
    G (r.conf k).shared ∧ L i (r.conf k).shared (some l) ∧ G s ∧ L i s (some l')
  := by
  obtain ⟨l, ch, s, l', hl, hs, hc⟩ := ht.step
  obtain ⟨hG, hL⟩ := h.sound r k (le_of_lt ht.1)
  obtain ⟨hG', hL'⟩ := h.sound r (k + 1) ht.1
  have hLi := hL i
  have hLi' := hL' i
  rw [hl] at hLi
  rw [hc, Config.put_thread_self, Config.put_shared] at hLi'
  rw [hc, Config.put_shared] at hG'
  exact ⟨l, ch, s, l', hl, hs, hc, hG, hLi, hG', hLi'⟩

/-! ### History variables -/

/-- A variable that records the history of the steps of a machine, and a bound on it to
which the runs of interest keep. -/
structure Ghost (M : Machine ι σ ℓ Op Res Tag Ch) (A : Type) where
  init : A
  bound : A → Prop
  next : ι → σ → A → ℓ → σ → ℓ → Tag → A

/-- The machine `M` with the ghost `g` beside its shared state. -/
def withGhost (M : Machine ι σ ℓ Op Res Tag Ch) (g : M.Ghost A) :
    Machine ι (σ × A) ℓ Op Res Tag Ch where
  init := (M.init, g.init)
  legal s := M.legal s.1 ∧ g.bound s.2
  valid := M.valid
  start := M.start
  result := M.result
  step i ch s l :=
    (M.step i ch s.1 l).map fun p => ((p.1, g.next i s.1 s.2 l p.1 p.2.1 p.2.2), p.2.1, p.2.2)

omit [DecidableEq ι] in
/-- A step of a machine with a ghost is a step of the machine. -/
theorem withGhost_step {g : M.Ghost A} {i : ι} {ch : Ch} {s s' : σ × A} {l l' : ℓ} {t : Tag} :
  (M.withGhost g).step i ch s l = some (s', l', t) ↔
    M.step i ch s.1 l = some (s'.1, l', t) ∧ s'.2 = g.next i s.1 s.2 l s'.1 l' t
  := by
  obtain ⟨s₁, a⟩ := s'
  simp only [withGhost, Option.map_eq_some_iff, Prod.mk.injEq]
  constructor
  · rintro ⟨⟨_, _, _⟩, h, ⟨rfl, rfl⟩, rfl, rfl⟩
    exact ⟨h, rfl⟩
  · rintro ⟨h, rfl⟩
    exact ⟨_, h, ⟨rfl, rfl⟩, rfl, rfl⟩

/-- The values the ghost takes along a run. -/
def Run.trail {n : ℕ} (r : M.Run n) (g : M.Ghost A) : ℕ → A
  | 0 => g.init
  | k + 1 =>
      match r.event k, (r.conf k).thread (r.who k), (r.conf (k + 1)).thread (r.who k) with
      | .act t, some l, some l' =>
          g.next (r.who k) (r.conf k).shared (r.trail g k) l (r.conf (k + 1)).shared l' t
      | _, _, _ => r.trail g k

/-- The run `r` with the ghost `g` beside it. -/
def Run.lift {n : ℕ} (r : M.Run n) (g : M.Ghost A) (h : ∀ k ≤ n, g.bound (r.trail g k)) :
    (M.withGhost g).Run n where
  conf k := ⟨((r.conf k).shared, r.trail g k), (r.conf k).thread⟩
  who := r.who
  event := r.event
  start := by
    rw [r.start]
    rfl
  step := by
    intro k hk
    have hstep := r.step k hk
    cases he : r.event k with
    | call o =>
        rw [he] at hstep
        obtain ⟨hidle, hvalid, hc⟩ := hstep.call_inv
        have ha : r.trail g (k + 1) = r.trail g k := by rw [Run.trail, he]
        rw [hc, ha]
        apply Step.call (M := M.withGhost g) hidle hvalid
    | ret v =>
        rw [he] at hstep
        obtain ⟨l, hbusy, hv, hc⟩ := hstep.ret_inv
        have ha : r.trail g (k + 1) = r.trail g k := by rw [Run.trail, he]
        rw [hc, ha]
        apply Step.ret (M := M.withGhost g) hbusy hv
    | act t =>
        rw [he] at hstep
        obtain ⟨l, ch, s, l', hbusy, hs, hc⟩ := hstep.act_inv
        have ha : r.trail g (k + 1) = g.next (r.who k) (r.conf k).shared (r.trail g k) l s l' t := by
          rw [Run.trail, he, hbusy, hc, Config.put_thread_self]
          rfl
        rw [hc, ha]
        exact Step.act (M := M.withGhost g) hbusy (withGhost_step.mpr ⟨hs, rfl⟩)
  legal k hk := ⟨r.legal k hk, h k hk⟩

@[simp]
theorem Run.lift_shared {n : ℕ} (r : M.Run n) (g : M.Ghost A)
    (h : ∀ k ≤ n, g.bound (r.trail g k)) (k : ℕ) :
  ((r.lift g h).conf k).shared = ((r.conf k).shared, r.trail g k)
  := rfl

@[simp]
theorem Run.lift_thread {n : ℕ} (r : M.Run n) (g : M.Ghost A)
    (h : ∀ k ≤ n, g.bound (r.trail g k)) (k : ℕ) :
  ((r.lift g h).conf k).thread = (r.conf k).thread
  := rfl

end Machine
