import ConcurrentQueues.Library.Outline

/-!
# Threads that go on

A machine has no step where its program would follow a null pointer or a pointer to memory that has
been given back. Its runs say nothing about such a program, unless no thread comes to such a point.
A thread in a call goes on when its call has a result or it can make an access. At a lock it may
have to wait, for a thread that goes on.
-/

variable {ι σ ℓ Op Res Tag Ch A : Type}

namespace Machine

variable (M : Machine ι σ ℓ Op Res Tag Ch)

/-- Thread `i`, at `l` in the shared state `s`, can go on. -/
def GoesOn (i : ι) (s : σ) (l : ℓ) : Prop :=
  (∃ v, M.result l = some v) ∨ ∃ ch s' l' t, M.step i ch s l = some (s', l', t)

/-- In no run a thread is stuck. A thread that cannot go on waits for one that can, where
`waits i j s l` says that thread `i`, at `l`, waits for `j`. -/
def NeverStuck [DecidableEq ι] (waits : ι → ι → σ → ℓ → Prop) : Prop :=
  ∀ n (r : M.Run n), ∀ k ≤ n, ∀ i l, (r.conf k).thread i = some l →
    M.GoesOn i (r.conf k).shared l ∨ ∃ j l', waits i j (r.conf k).shared l ∧
      (r.conf k).thread j = some l' ∧ M.GoesOn j (r.conf k).shared l'

variable {M} [DecidableEq ι]

omit [DecidableEq ι] in
/-- A ghost does not stop a thread. -/
theorem withGhost_goesOn {g : M.Ghost A} {i : ι} {s : σ × A} {l : ℓ}
    (h : M.GoesOn i s.1 l) :
  (M.withGhost g).GoesOn i s l
  := by
  rcases h with h | ⟨ch, s', l', t, hs⟩
  · exact Or.inl h
  · exact Or.inr ⟨ch, (s', g.next i s.1 s.2 l s' l' t), l', t, withGhost_step.mpr ⟨hs, rfl⟩⟩

/-- If what an outline asserts lets each thread go on, then none is stuck. -/
theorem Outline.neverStuck {g : M.Ghost A} {G : σ × A → Prop} {L : ι → σ × A → Option ℓ → Prop}
    {R : ι → σ × A → σ × A → Prop} (h : (M.withGhost g).Outline G L R) (hbound : ∀ a, g.bound a)
    (hgo : ∀ i s l, G s → L i s (some l) → M.GoesOn i s.1 l) :
  M.NeverStuck fun _ _ _ _ => False
  := by
  intro n r k hk i l hl
  obtain ⟨hG, hL⟩ := h.sound (r.lift g fun _ _ => hbound _) k hk
  have hLi := hL i
  rw [Run.lift_thread, hl] at hLi
  exact Or.inl (hgo i _ l hG hLi)

/-- An outline whose assertions are about the local states alone, and are kept by each step. -/
theorem neverStuck_of_local {K : ℓ → Prop} (hstart : ∀ o, K (M.start o))
    (hstep : ∀ i ch s l s' l' t, K l → M.step i ch s l = some (s', l', t) → K l')
    (hgo : ∀ i s l, K l → M.GoesOn i s l) :
  M.NeverStuck fun _ _ _ _ => False
  := by
  have houtline : M.Outline (fun _ => True) (fun _ _ l => ∀ x, l = some x → K x)
      fun _ _ _ => True := by
    constructor
    case init => trivial
    case idle =>
      rintro i x ⟨⟩
    case call =>
      rintro i s o - - - x ⟨⟩
      apply hstart
    case ret =>
      rintro i s l v - - - x ⟨⟩
    case step =>
      intro i ch s l s' l' t _ hl _ _ hs
      refine ⟨trivial, ?_, fun _ _ => trivial⟩
      rintro x ⟨⟩
      apply hstep _ _ _ _ _ _ _ (hl l rfl) hs
    case stable => exact fun _ _ _ hl => hl
  intro n r k hk i l hl
  exact Or.inl (hgo i _ l ((houtline.sound r k hk).2 i l hl))

/-! ### Locks -/

/-- A lock: `held` says which thread holds it, and the points between taking it and letting it go
are `inside`. -/
structure Lock (M : Machine ι σ ℓ Op Res Tag Ch) (held : σ → Option ι) (inside : ℓ → Prop) :
    Prop where
  init : held M.init = none
  start : ∀ o, ¬ inside (M.start o)
  result : ∀ l v, M.result l = some v → ¬ inside l
  step : ∀ i ch s l s' l' t, M.step i ch s l = some (s', l', t) →
    held s' = held s ∧ (inside l' ↔ inside l) ∨
      held s = none ∧ held s' = some i ∧ ¬ inside l ∧ inside l' ∨
      inside l ∧ held s' = none ∧ ¬ inside l'

variable {held : σ → Option ι} {inside : ℓ → Prop}

omit [DecidableEq ι] in
theorem Lock.outline (h : M.Lock held inside) :
  M.Outline (fun _ => True) (fun i s l => held s = some i ↔ ∃ x, l = some x ∧ inside x)
    fun j s s' => held s = some j ↔ held s' = some j
  := by
  constructor
  case init => trivial
  case idle =>
    intro i
    rw [h.init]
    simp
  case call =>
    intro i s o _ hl _
    simpa [h.start] using hl
  case ret =>
    intro i s l v _ hl hv
    simpa [h.result l v hv] using hl
  case step =>
    intro i ch s l s' l' t _ hl _ _ hs
    have hin : held s = some i ↔ inside l := by simpa using hl
    suffices hout : (held s' = some i ↔ inside l') ∧
        ∀ j, j ≠ i → (held s = some j ↔ held s' = some j) by simpa using hout
    rcases h.step _ _ _ _ _ _ _ hs with ⟨hheld, hiff⟩ | ⟨hfree, hheld, -, hin'⟩ | ⟨hl, hfree, hout⟩
    · rw [hheld, hiff]
      exact ⟨hin, fun _ _ => Iff.rfl⟩
    · rw [hheld, hfree]
      refine ⟨iff_of_true rfl hin', fun j hj => ?_⟩
      simp [hj.symm]
    · rw [hin.mpr hl, hfree]
      refine ⟨iff_of_false (by simp) hout, fun j hj => ?_⟩
      simp [hj.symm]
  case stable =>
    intro j s s' l _ _ hR hl
    rw [← hR]
    exact hl

/-- The thread that holds a lock, and no other, is between taking it and letting it go. -/
theorem Lock.held_iff (h : M.Lock held inside) {n : ℕ} (r : M.Run n) {k : ℕ} (hk : k ≤ n) (i : ι) :
  held (r.conf k).shared = some i ↔ ∃ l, (r.conf k).thread i = some l ∧ inside l
  := (h.outline.sound r k hk).2 i

/-- A thread that cannot go on is at a lock that is taken, and between taking a lock and letting it
go a thread can go on. Then none is stuck. The assertion `F` is about the states alone. -/
theorem neverStuck_of_locks {κ : Type} {held : κ → σ → Option ι} {inside : κ → ℓ → Prop}
    {waits : ι → ι → σ → ℓ → Prop} {g : M.Ghost A} {G : σ × A → Prop}
    {L : ι → σ × A → Option ℓ → Prop} {R : ι → σ × A → σ × A → Prop} {F : σ → Prop}
    (h : (M.withGhost g).Outline G L R) (hbound : ∀ a, g.bound a)
    (hlock : ∀ x, M.Lock (held x) (inside x)) (hF : ∀ n (r : M.Run n), ∀ k ≤ n, F (r.conf k).shared)
    (hgo : ∀ i s l, G s → L i s (some l) → F s.1 →
      M.GoesOn i s.1 l ∨ ∃ x j, held x s.1 = some j ∧ waits i j s.1 l)
    (hinside : ∀ x i s l, G s → L i s (some l) → F s.1 → inside x l → M.GoesOn i s.1 l) :
  M.NeverStuck waits
  := by
  intro n r k hk i l hl
  obtain ⟨hG, hL⟩ := h.sound (r.lift g fun _ _ => hbound _) k hk
  have hthread : ∀ j l', (r.conf k).thread j = some l' →
      L j ((r.lift g fun _ _ => hbound _).conf k).shared (some l') := by
    intro j l' hj
    have hLj := hL j
    rwa [Run.lift_thread, hj] at hLj
  rcases hgo i _ l hG (hthread i l hl) (hF n r k hk) with hgoes | ⟨x, j, hheld, hwaits⟩
  · exact Or.inl hgoes
  · obtain ⟨l', hl', hin⟩ := ((hlock x).held_iff r hk j).mp hheld
    exact Or.inr ⟨j, l', hwaits, hl', hinside x j _ l' hG (hthread j l' hl') (hF n r k hk) hin⟩

end Machine

namespace Machine

variable [DecidableEq ι] {M : Machine ι σ ℓ Op Res Tag ℕ} {F : σ → ℕ → Prop}

/-- Where each access occupies at most the place it has chosen, there is always a free one. -/
theorem exists_free (hinit : ∃ N, ∀ x ≥ N, F M.init x)
    (hstep : ∀ i x s l s' l' t y, M.step i x s l = some (s', l', t) → y ≠ x → F s y → F s' y)
    (n : ℕ) (r : M.Run n) (k : ℕ) (hk : k ≤ n) :
  ∃ x, F (r.conf k).shared x
  := by
  have houtline : M.Outline (fun s => ∃ N, ∀ x ≥ N, F s x) (fun _ _ _ => True)
      fun _ _ _ => True := by
    constructor
    case init => exact hinit
    case idle => exact fun _ => trivial
    case call => exact fun _ _ _ => trivial
    case ret => exact fun _ _ _ => trivial
    case stable => exact fun _ _ _ _ => trivial
    case step =>
      rintro i x s l s' l' t ⟨N, hN⟩ - - - hs
      refine ⟨⟨max N (x + 1), fun y hy => ?_⟩, trivial, fun _ _ => trivial⟩
      have hyN : N ≤ y := (le_max_left N (x + 1)).trans hy
      have hyx : x + 1 ≤ y := (le_max_right N (x + 1)).trans hy
      exact hstep i x s l s' l' t y hs (by omega) (hN y hyN)
  obtain ⟨N, hN⟩ := (houtline.sound r k hk).1
  exact ⟨N, hN N le_rfl⟩

end Machine
