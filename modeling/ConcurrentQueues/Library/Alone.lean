import ConcurrentQueues.Library.ListProgress
import Mathlib.Order.Interval.Finset.Nat
import Mathlib.Algebra.Order.Interval.Finset.SuccPred
import Mathlib.Tactic.Ring

/-!
# Threads that are left alone

An object is obstruction-free when a thread returns from its call as soon as the others leave it
alone for long enough, wherever they rest. A rank of the states and the points of the calls that
goes down with each access of a thread bounds how long that is. The rank may speak of the history of
the run. Accesses that fail for no reason may be set apart.
-/

variable {ι σ ℓ Op Res Tag Ch A : Type} [DecidableEq ι]

namespace Machine

variable {M : Machine ι σ ℓ Op Res Tag Ch}

/-- No access fails for no reason. -/
def never (_ : σ) (_ _ : ℓ) : Prop := False

namespace Run

variable {n : ℕ}

/-- The steps of thread `i` from step `k` on and before step `m`. -/
def steps (r : M.Run n) (i : ι) (k m : ℕ) : Finset ℕ := (Finset.Ico k m).filter fun j => r.who j = i

/-- Among any `N` steps of a thread there is one at which it returns from a call, whatever the
others do between them. -/
def ReturnsWithin (r : M.Run n) (N : ℕ) : Prop :=
  ∀ i k m, m ≤ n → N ≤ (r.steps i k m).card → ∃ j ∈ r.steps i k m, ∃ v, r.event j = .ret v

/-- The `m` steps from step `k` on are steps of thread `i`. -/
def Alone (r : M.Run n) (i : ι) (k m : ℕ) : Prop :=
  k + m ≤ n ∧ ∀ j, k ≤ j → j < k + m → r.who j = i

/-- Step `j` is an access of thread `i` that is `spurious`. -/
def Fails (r : M.Run n) (spurious : σ → ℓ → ℓ → Prop) (i : ι) (j : ℕ) : Prop :=
  ∃ l l', (r.conf j).thread i = some l ∧ (r.conf (j + 1)).thread i = some l' ∧
    spurious (r.conf j).shared l l'

/-- A thread that makes `N` steps in a row, none of which is `spurious`, returns from a call at one
of them. -/
def ReturnsAlone (r : M.Run n) (spurious : σ → ℓ → ℓ → Prop) (N : ℕ) : Prop :=
  ∀ i k, r.Alone i k N → (∀ j, k ≤ j → j < k + N → ¬ r.Fails spurious i j) →
    ∃ j, k ≤ j ∧ j < k + N ∧ ∃ v, r.event j = .ret v

/-- A rank of the points of a call, at each step of a run, that is at most `N` and that each access
makes smaller. -/
structure Ranked (r : M.Run n) (spurious : σ → ℓ → ℓ → Prop) (rank : ℕ → ℓ → ℕ) (N : ℕ) : Prop where
  le : ∀ k ≤ n, ∀ i l, (r.conf k).thread i = some l → rank k l ≤ N
  lt : ∀ k < n, ∀ l l' t, (r.conf k).thread (r.who k) = some l →
    (r.conf (k + 1)).thread (r.who k) = some l' → r.event k = .act t →
    ¬ spurious (r.conf k).shared l l' → rank (k + 1) l' < rank k l

/-- The rank of a thread, which has to begin a call when it is in none. -/
def standing (rank : ℓ → ℕ) (N : ℕ) : Option ℓ → ℕ
  | none => N + 1
  | some l => rank l

variable {r : M.Run n} {spurious : σ → ℓ → ℓ → Prop} {rank : ℕ → ℓ → ℕ} {N : ℕ} {i : ι} {k m : ℕ}

theorem card_steps_succ (hkm : k ≤ m) :
  (r.steps i k (m + 1)).card = (r.steps i k m).card + if r.who m = i then 1 else 0
  := by
  rw [steps, ← Finset.insert_Ico_right_eq_Ico_add_one hkm, Finset.filter_insert]
  split
  · rw [Finset.card_insert_of_notMem (by simp)]
    rfl
  · rfl

theorem Alone.card_steps (h : r.Alone i k m) :
  (r.steps i k (k + m)).card = m
  := by
  rw [steps, Finset.filter_true_of_mem, Nat.card_Ico, Nat.add_sub_cancel_left]
  intro j hj
  obtain ⟨hkj, hjm⟩ := Finset.mem_Ico.mp hj
  exact h.2 j hkj hjm

/-- A thread returns when a measure goes down with each of its other steps and never goes up. -/
theorem returns_of_measure {f : ℕ → ℕ}
    (hf : ∀ j, k ≤ j → j < m → (r.who j = i → ∀ v, r.event j ≠ .ret v) →
      f (j + 1) + (if r.who j = i then 1 else 0) ≤ f j)
    (hlt : f k < (r.steps i k m).card) :
  ∃ j ∈ r.steps i k m, ∃ v, r.event j = .ret v
  := by
  by_contra hnone
  have hret : ∀ j, k ≤ j → j < m → r.who j = i → ∀ v, r.event j ≠ .ret v := by
    intro j hkj hjm hi v he
    exact hnone ⟨j, Finset.mem_filter.mpr ⟨Finset.mem_Ico.mpr ⟨hkj, hjm⟩, hi⟩, v, he⟩
  have hkm : k ≤ m := by
    obtain ⟨j, hj⟩ := Finset.card_pos.mp (Nat.zero_lt_of_lt hlt)
    obtain ⟨hkj, hjm⟩ := Finset.mem_Ico.mp (Finset.mem_filter.mp hj).1
    omega
  have hsum : ∀ j, k ≤ j → j ≤ m → f j + (r.steps i k j).card ≤ f k := by
    intro j hkj hjm
    induction j, hkj using Nat.le_induction with
    | base => simp [steps]
    | succ j hkj ih =>
        have hstep := hf j hkj hjm (hret j hkj hjm)
        have hle := ih (Nat.le_of_succ_le hjm)
        rw [card_steps_succ hkj]
        omega
  have hle := hsum m hkm le_rfl
  omega

theorem Ranked.standing_le (h : r.Ranked spurious rank N) (hk : k ≤ n) :
  standing (rank k) N ((r.conf k).thread i) ≤ N + 1
  := by
  cases hl : (r.conf k).thread i with
  | none => exact le_rfl
  | some l => exact Nat.le_succ_of_le (h.le k hk i l hl)

/-- A step of a thread at which it does not return lowers its rank. -/
theorem Ranked.standing_lt (h : r.Ranked spurious rank N) (hk : k < n) (hi : r.who k = i)
    (hfails : ¬ r.Fails spurious i k) (hret : ∀ v, r.event k ≠ .ret v) :
  standing (rank (k + 1)) N ((r.conf (k + 1)).thread i) < standing (rank k) N ((r.conf k).thread i)
  := by
  subst hi
  have hstep := r.step k hk
  cases he : r.event k with
  | call o =>
      rw [he] at hstep
      obtain ⟨hidle, -, hc⟩ := hstep.call_inv
      have hl' : (r.conf (k + 1)).thread (r.who k) = some (M.start o) := by
        rw [hc, Config.put_thread_self]
      rw [hidle, hl']
      exact Nat.lt_succ_of_le (h.le (k + 1) hk _ _ hl')
  | ret v => exact absurd he (hret v)
  | act t =>
      rw [he] at hstep
      obtain ⟨l, ch, s, l', hl, -, hc⟩ := hstep.act_inv
      have hl' : (r.conf (k + 1)).thread (r.who k) = some l' := by
        rw [hc, Config.put_thread_self]
      rw [hl, hl']
      apply h.lt k hk l l' t hl hl' he
      intro hspurious
      exact hfails ⟨l, l', hl, hl', hspurious⟩

/-- A thread that is left alone begins a call, makes its accesses and returns. -/
theorem Ranked.returnsAlone (h : r.Ranked spurious rank N) :
  r.ReturnsAlone spurious (N + 2)
  := by
  intro i k halone hfails
  have hle : k + (N + 2) ≤ n := halone.1
  have hreturns : ∃ j ∈ r.steps i k (k + (N + 2)), ∃ v, r.event j = .ret v := by
    apply returns_of_measure (f := fun j => standing (rank j) N ((r.conf j).thread i))
    · intro j hkj hjm hret
      have hi : r.who j = i := halone.2 j hkj hjm
      rw [if_pos hi]
      exact h.standing_lt (by omega) hi (hfails j hkj hjm) (hret hi)
    · rw [halone.card_steps]
      exact Nat.lt_succ_of_le (h.standing_le (by omega))
  obtain ⟨j, hj, hret⟩ := hreturns
  obtain ⟨hkj, hjm⟩ := Finset.mem_Ico.mp (Finset.mem_filter.mp hj).1
  exact ⟨j, hkj, hjm, hret⟩

/-- When the rank is one of the points alone, the others may make steps between. -/
theorem Ranked.returnsWithin {left : ℓ → ℕ} (h : r.Ranked never (fun _ => left) N) :
  r.ReturnsWithin (N + 2)
  := by
  intro i k m hm hcard
  have hkn : k ≤ n := by
    obtain ⟨j, hj⟩ := Finset.card_pos.mp (show 0 < (r.steps i k m).card by omega)
    obtain ⟨hkj, hjm⟩ := Finset.mem_Ico.mp (Finset.mem_filter.mp hj).1
    omega
  have hstand := h.standing_le (i := i) hkn
  apply returns_of_measure (f := fun j => standing left N ((r.conf j).thread i))
  · intro j hkj hjm hret
    have hjn : j < n := lt_of_lt_of_le hjm hm
    split
    case isTrue hi => exact h.standing_lt hjn hi (fun ⟨_, _, _, _, hnever⟩ => hnever) (hret hi)
    case isFalse hi =>
      rw [(r.step j hjn).other (Ne.symm hi)]
      exact le_rfl
  · omega

/-- An access of a thread, from where it was to where it is after. -/
theorem step_of_act (hk : k < n) {l l' : ℓ} {t : Tag} (hl : (r.conf k).thread (r.who k) = some l)
    (hl' : (r.conf (k + 1)).thread (r.who k) = some l') (he : r.event k = .act t) :
  ∃ ch, M.step (r.who k) ch (r.conf k).shared l = some ((r.conf (k + 1)).shared, l', t)
  := by
  have hstep := r.step k hk
  rw [he] at hstep
  obtain ⟨l₀, ch, s, l₁, hl₀, hs, hc⟩ := hstep.act_inv
  rw [hc, Config.put_thread_self] at hl'
  cases hl.symm.trans hl₀
  cases hl'
  use ch
  rwa [hc, Config.put_shared]

/-- Where each access leaves a thread fewer of them to make, it returns whatever the others do. -/
theorem returnsWithin_of_left {left : ℓ → ℕ} (hle : ∀ l, left l ≤ N)
    (hlt : ∀ {i ch s l s' l' t}, M.step i ch s l = some (s', l', t) → left l' < left l)
    (r : M.Run n) :
  r.ReturnsWithin (N + 2)
  := by
  suffices hranked : r.Ranked never (fun _ => left) N from hranked.returnsWithin
  constructor
  case le => exact fun k hk i l hl => hle l
  case lt =>
    intro k hk l l' t hl hl' he _
    obtain ⟨ch, hs⟩ := step_of_act hk hl hl' he
    exact hlt hs

end Run

variable (M) in
/-- In every run, a thread returns within any `N` of its steps. -/
def ReturnsWithin (N : ℕ) : Prop := ∀ n (r : M.Run n), r.ReturnsWithin N

variable (M) in
/-- In every run of which `P` holds, a thread that is left alone returns within `N` steps. -/
def ReturnsAlone (P : ∀ n, M.Run n → Prop) (spurious : σ → ℓ → ℓ → Prop) (N : ℕ) : Prop :=
  ∀ n (r : M.Run n), P n r → r.ReturnsAlone spurious N

/-- A rank of the states and the points of a call that goes down where an outline holds. -/
structure Descends (M : Machine ι σ ℓ Op Res Tag Ch) (G : σ → Prop) (L : ι → σ → Option ℓ → Prop)
    (spurious : σ → ℓ → ℓ → Prop) (rank : σ → ℓ → ℕ) (N : ℕ) : Prop where
  le : ∀ {i s l}, G s → L i s (some l) → rank s l ≤ N
  lt : ∀ {i ch s l s' l' t}, G s → L i s (some l) → G s' → L i s' (some l') →
    M.step i ch s l = some (s', l', t) → ¬ spurious s l l' → rank s' l' < rank s l

variable {G : σ × A → Prop} {L : ι → σ × A → Option ℓ → Prop} {R : ι → σ × A → σ × A → Prop}
  {spurious : σ → ℓ → ℓ → Prop} {rank : σ × A → ℓ → ℕ} {N n : ℕ}

/-- The rank may speak of a ghost, in a run in which this stays within its bound. -/
theorem Descends.returnsAlone {g : M.Ghost A} (ho : (M.withGhost g).Outline G L R)
    (hd : (M.withGhost g).Descends G L (fun s => spurious s.1) rank N) (r : M.Run n)
    (hbound : ∀ k ≤ n, g.bound (r.trail g k)) :
  r.ReturnsAlone spurious (N + 2)
  := by
  have hasserts := ho.sound (r.lift g hbound)
  suffices hranked : r.Ranked spurious (fun k => rank ((r.conf k).shared, r.trail g k)) N from
    hranked.returnsAlone
  constructor
  case le =>
    intro k hk i l hl
    obtain ⟨hG, hL⟩ := hasserts k hk
    have hLi := hL i
    rw [Run.lift_thread, hl] at hLi
    exact hd.le hG hLi
  case lt =>
    intro k hk l l' t hl hl' he hspurious
    obtain ⟨ch, hs⟩ := Run.step_of_act (r := r.lift g hbound) hk hl hl' he
    obtain ⟨hG, hL⟩ := hasserts k (le_of_lt hk)
    obtain ⟨hG', hL'⟩ := hasserts (k + 1) hk
    have hLi := hL (r.who k)
    have hLi' := hL' (r.who k)
    rw [Run.lift_thread, hl] at hLi
    rw [Run.lift_thread, hl'] at hLi'
    exact hd.lt hG hLi hG' hLi' hs hspurious

/-! ### Loops -/

/-- What an access does for a thread in a loop. When the operation has taken effect the thread is
`settled`, and has less left to do. Before, it may have completed something that is `due`. Otherwise
it comes nearer to the end of its round, unless it has read something that is no longer `Fresh`,
which makes it start afresh once. -/
inductive Advances (settled : ℓ → Prop) (Fresh : σ → ℓ → Prop) (due : σ → ℕ) (left : σ → ℓ → ℕ)
    (s : σ) (l : ℓ) (s' : σ) (l' : ℓ) : Prop where
  | settle (hl' : settled l') (hleft : left s' l' < left s l) :
      Advances settled Fresh due left s l s' l'
  | help (hl : ¬ settled l) (hdue : due s' < due s) (hleft : Fresh s' l' ∨ left s' l' < left s l) :
      Advances settled Fresh due left s l s' l'
  | forward (hl : ¬ settled l) (hdue : due s' = due s) (hfresh : Fresh s l → Fresh s' l')
      (hleft : left s' l' < left s l ∨ ¬ Fresh s l ∧ Fresh s' l') :
      Advances settled Fresh due left s l s' l'

open Classical in
/-- The rank of a thread in a loop, with rounds of fewer than `B` accesses: there is a round for
each change that is due, and one for what is not fresh. -/
noncomputable def loopRank (settled : ℓ → Prop) (Fresh : σ → ℓ → Prop) (due : σ → ℕ)
    (left : σ → ℓ → ℕ) (B : ℕ) (s : σ) (l : ℓ) : ℕ :=
  if settled l then left s l
  else B * (due s + if Fresh s l then 0 else 1) + left s l

section loop

variable {settled : ℓ → Prop} {Fresh : σ → ℓ → Prop} {due : σ → ℕ} {left : σ → ℓ → ℕ} {B D : ℕ}
  {s s' : σ} {l l' : ℓ}

theorem left_le_loopRank :
  left s l ≤ loopRank settled Fresh due left B s l
  := by
  rw [loopRank]
  split <;> omega

/-- A thread that has started afresh has the rank of what is due and of its round. -/
theorem loopRank_fresh (hfresh : Fresh s l) :
  loopRank settled Fresh due left B s l ≤ B * due s + left s l
  := by
  rw [loopRank, if_pos hfresh, Nat.add_zero]
  split <;> omega

theorem loopRank_of_not_settled (hl : ¬ settled l) :
  B * due s + left s l ≤ loopRank settled Fresh due left B s l ∧
    (¬ Fresh s l → B * due s + B + left s l = loopRank settled Fresh due left B s l)
  := by
  rw [loopRank, if_neg hl, Nat.mul_add]
  constructor
  · omega
  · intro hfresh
    rw [if_neg hfresh, Nat.mul_one]

theorem loopRank_le_stale :
  loopRank settled Fresh due left B s l ≤ B * due s + B + left s l
  := by
  rw [loopRank, Nat.mul_add]
  split
  · omega
  · split <;> omega

theorem loopRank_le (hdue : due s ≤ D) (hleft : left s l < B) :
  loopRank settled Fresh due left B s l ≤ B * (D + 2)
  := by
  apply le_trans loopRank_le_stale
  have hround : B * (D + 2) = B * D + B + B := by ring
  have hmono : B * due s ≤ B * D := Nat.mul_le_mul_left B hdue
  omega

/-- The rank goes down whatever an access does. -/
theorem Advances.lt (h : Advances settled Fresh due left s l s' l') (hleft : ∀ s l, left s l < B) :
  loopRank settled Fresh due left B s' l' < loopRank settled Fresh due left B s l
  := by
  cases h with
  | settle hl' hlt =>
      apply lt_of_lt_of_le _ left_le_loopRank
      rwa [loopRank, if_pos hl']
  | help hl hdue hnear =>
      apply lt_of_lt_of_le _ (loopRank_of_not_settled hl).1
      have hround : B * due s' + B ≤ B * due s := Nat.mul_le_mul_left B hdue
      rcases hnear with hfresh | hlt
      · apply lt_of_le_of_lt (loopRank_fresh hfresh)
        have hlt := hleft s' l'
        omega
      · apply lt_of_le_of_lt loopRank_le_stale
        omega
  | forward hl hdue hfresh hnear =>
      have hrank : B * due s' + left s l ≤ loopRank settled Fresh due left B s l ∧
          (¬ Fresh s l → B * due s' + B + left s l = loopRank settled Fresh due left B s l) := by
        rw [hdue]
        exact loopRank_of_not_settled hl
      rcases hnear with hlt | ⟨hstale, hfresh'⟩
      · by_cases hl : Fresh s l
        · apply lt_of_le_of_lt (loopRank_fresh (hfresh hl))
          have hle := hrank.1
          omega
        · apply lt_of_le_of_lt loopRank_le_stale
          rw [← hrank.2 hl]
          omega
      · apply lt_of_le_of_lt (loopRank_fresh hfresh')
        have hlt := hleft s' l'
        have heq := hrank.2 hstale
        omega

end loop

omit [DecidableEq ι] in
/-- A machine whose threads advance with each access, where at most `D` changes are due,
descends. -/
theorem descends_of_advances {L : ι → σ → Option ℓ → Prop} {G : σ → Prop} {settled : ℓ → Prop}
    {Fresh : σ → ℓ → Prop} {due : σ → ℕ} {left : σ → ℓ → ℕ} {B D : ℕ}
    (hleft : ∀ s l, left s l < B) (hdue : ∀ s, G s → due s ≤ D)
    (hstep : ∀ {i ch s l s' l' t}, G s → L i s (some l) → G s' →
      M.step i ch s l = some (s', l', t) → ¬ spurious s l l' →
      Advances settled Fresh due left s l s' l') :
  M.Descends G L spurious (loopRank settled Fresh due left B) (B * (D + 2))
  := by
  constructor
  case le => exact fun hG _ => loopRank_le (hdue _ hG) (hleft _ _)
  case lt => exact fun hG hL hG' _ hs hspurious => (hstep hG hL hG' hs hspurious).lt hleft

end Machine

/-! ### Linked lists -/

namespace Spine

variable {V : Type} {i : ι} {v : ListView V} {a : Spine ι}

/-- The number of nodes behind the tail. -/
def lag (a : Spine ι) : ℕ := a.nodes.length - (a.tail + 1)

omit [DecidableEq ι] in
theorem Fits.lag_le (h : a.Fits v) :
  a.lag ≤ 1
  := by
  have hle := h.length_le
  rw [lag]
  omega

omit [DecidableEq ι] in
/-- When the tail is swung it comes nearer to the last node. -/
theorem Fits.lag_swingTail (h : a.swingTail.Fits v) :
  a.swingTail.lag < a.lag
  := by
  have hlt : a.tail + 1 < a.nodes.length := h.tail_lt
  have heq : a.swingTail.lag = a.nodes.length - (a.tail + 1 + 1) := rfl
  rw [heq, lag]
  omega

omit [DecidableEq ι] in
theorem lag_next {c : ListChange} (h : c.isChange = false) :
  (a.next i c).lag = a.lag
  := by
  cases c with
  | none | alloc p => rfl
  | _ => cases h

end Spine

/-- What an access with the change `c` does for a thread in a loop on a linked list. It completes
the operation or what follows it, or it swings the tail for another thread, or it changes
nothing. -/
inductive ListMove (settled : ℓ → Prop) (Top : Option ℓ → ℓ → Prop) (left : σ → ℓ → ℕ)
    (c : ListChange) (s : σ) (l : ℓ) (s' : σ) (l' : ℓ) : Prop where
  | settle (hl' : settled l') (hleft : left s' l' < left s l) :
      ListMove settled Top left c s l s' l'
  | help (hl : ¬ settled l) (hc : c = .swingTail) (htop : Top (some l) l') :
      ListMove settled Top left c s l s' l'
  | forward (hl : ¬ settled l) (hc : c.isChange = false)
      (hleft : Top (some l) l' ∨ left s' l' < left s l) : ListMove settled Top left c s l s' l'

namespace Machine

variable {M : Machine ι σ ℓ Op Res Tag Ch} {V : Type} {view : σ → ListView V}
  {change : Tag → ListChange} {g : M.Ghost (Spine ι)} {L : ι → σ × Spine ι → Option ℓ → Prop}
  {Top : Option ℓ → ℓ → Prop} {Fresh : σ × Spine ι → ℓ → Prop} {settled : ℓ → Prop}
  {left : σ → ℓ → ℕ}

omit [DecidableEq ι] in
/-- What is due in a linked list is that the tail is swung to the last node. -/
theorem advances_of_listMove
    (hr : (M.withGhost g).Retries (fun x => x.2.Fits (view x.1)) L Top
      (fun t => (change t).isChange) Fresh)
    (hnext : ∀ i s a l s' l' t, g.next i s a l s' l' t = a.next i (change t)) {i : ι} {ch : Ch}
    {x x' : σ × Spine ι} {l l' : ℓ} {t : Tag} (hx : x.2.Fits (view x.1)) (hL : L i x (some l))
    (hx' : x'.2.Fits (view x'.1)) (hs : (M.withGhost g).step i ch x l = some (x', l', t))
    (h : ListMove settled Top left (change t) x.1 l x'.1 l') :
  Advances settled Fresh (fun y => y.2.lag) (fun y => left y.1) x l x' l'
  := by
  have hspine : x'.2 = x.2.next i (change t) := by
    rw [(withGhost_step.mp hs).2, hnext]
  cases h with
  | settle hl' hleft => exact .settle hl' hleft
  | help hl hc htop =>
      apply Advances.help hl _ (Or.inl (hr.top htop))
      rw [hspine, hc] at hx'
      rw [hspine, hc]
      exact hx'.lag_swingTail
  | forward hl hc hleft =>
      have hown : Fresh x l → Fresh x' l' ∧ ¬ Top (some l) l' :=
        fun hfresh => hr.own hx hL hfresh hs hc
      apply Advances.forward hl
      · rw [hspine, Spine.lag_next hc]
      · exact fun hfresh => (hown hfresh).1
      · rcases hleft with htop | hlt
        · exact Or.inr ⟨fun hfresh => (hown hfresh).2 htop, hr.top htop⟩
        · exact Or.inl hlt

omit [DecidableEq ι] in
/-- A linked list whose accesses are moves of this kind descends. -/
theorem descends_of_listMove {spurious : σ → ℓ → ℓ → Prop} {B : ℕ}
    (hr : (M.withGhost g).Retries (fun x => x.2.Fits (view x.1)) L Top
      (fun t => (change t).isChange) Fresh)
    (hnext : ∀ i s a l s' l' t, g.next i s a l s' l' t = a.next i (change t))
    (hleft : ∀ s l, left s l < B)
    (hmove : ∀ {i ch s l s' l' t}, M.step i ch s l = some (s', l', t) → ¬ spurious s l l' →
      ListMove settled Top left (change t) s l s' l') :
  (M.withGhost g).Descends (fun x => x.2.Fits (view x.1)) L (fun x => spurious x.1)
    (loopRank settled Fresh (fun x => x.2.lag) (fun x => left x.1) B) (B * (1 + 2))
  := by
  apply descends_of_advances
  · exact fun x l => hleft x.1 l
  · exact fun x hx => hx.lag_le
  · intro i ch x l x' l' t hx hL hx' hs hspurious
    apply advances_of_listMove hr hnext hx hL hx' hs
    exact hmove (withGhost_step.mp hs).1 hspurious

end Machine
