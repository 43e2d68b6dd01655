import ConcurrentQueues.Library.Outline
import Mathlib.Data.Finset.Range
import Mathlib.Data.Finset.Card
import Mathlib.Data.Finset.Prod
import Mathlib.Data.Set.Card

/-!
# Rounds of a loop and lock-freedom

A round of a thread is one iteration of a loop that does not end the operation: the thread
starts at the top of the loop and comes back to it. An object is lock-free when every round
contains a change of the shared state, made by any thread, and changes are bounded. The
rounds of one thread do not overlap, so there are at most as many of them as changes.
-/

variable {ι σ ℓ Op Res Tag Ch A : Type} [DecidableEq ι]

namespace Machine

variable {M : Machine ι σ ℓ Op Res Tag Ch}

namespace Run

variable {n : ℕ} (r : M.Run n)

/-! ### Counting steps -/

/-- The number of accesses before step `k` whose tag satisfies `p`. -/
def count (p : Tag → Bool) (k : ℕ) : ℕ :=
  ((Finset.range k).filter fun j => (r.tag j).any p).card

theorem count_succ (p : Tag → Bool) (k : ℕ) :
  r.count p (k + 1) = r.count p k + ((r.tag k).any p).toNat
  := by
  rw [count, Finset.range_add_one, Finset.filter_insert]
  cases hp : (r.tag k).any p with
  | false => rfl
  | true =>
      rw [if_pos rfl, Finset.card_insert_of_notMem]
      · rfl
      · simp

theorem count_mono (p : Tag → Bool) {k m : ℕ} (h : k ≤ m) :
  r.count p k ≤ r.count p m
  := by
  apply Finset.card_le_card
  apply Finset.filter_subset_filter
  exact Finset.range_subset_range.mpr h

theorem count_lt {p : Tag → Bool} {k m : ℕ} (h : k < m) (hp : (r.tag k).any p) :
  r.count p k < r.count p m
  := by
  apply lt_of_lt_of_le _ (r.count_mono p h)
  rw [count_succ, hp]
  apply Nat.lt_succ_self

theorem count_or_le (p q : Tag → Bool) (k : ℕ) :
  r.count (fun t => p t || q t) k ≤ r.count p k + r.count q k
  := by
  induction k with
  | zero => apply Nat.zero_le
  | succ k ih =>
      simp only [count_succ]
      have hor : ((r.tag k).any fun t => p t || q t).toNat
          ≤ ((r.tag k).any p).toNat + ((r.tag k).any q).toNat := by
        cases r.tag k with
        | none => apply Nat.zero_le
        | some t =>
            simp only [Option.any_some]
            cases p t with
            | false => simp
            | true => simp
      omega

variable {r} in
theorem any_tag_iff {p : Tag → Bool} {k : ℕ} :
  (r.tag k).any p ↔ ∃ t, r.event k = .act t ∧ p t
  := by
  rw [Option.any_eq_true]
  constructor
  · rintro ⟨t, ht, hp⟩
    exact ⟨t, tag_eq_some.mp ht, hp⟩
  · rintro ⟨t, ht, hp⟩
    exact ⟨t, tag_eq_some.mpr ht, hp⟩

/-- The number of accesses of thread `i` after step `a` and before step `k` whose tag satisfies
`p`. -/
def made (p : Tag → Bool) (i : ι) (a k : ℕ) : ℕ :=
  ((Finset.range k).filter fun j => a < j ∧ r.who j = i ∧ (r.tag j).any p).card

theorem made_start (p : Tag → Bool) (i : ι) (a : ℕ) :
  r.made p i a (a + 1) = 0
  := by
  rw [made, Finset.card_eq_zero, Finset.filter_eq_empty_iff]
  rintro j hj ⟨haj, -⟩
  rw [Finset.mem_range] at hj
  omega

theorem made_succ {p : Tag → Bool} {i : ι} {a k : ℕ} (ha : a < k) (hi : r.who k = i) :
  r.made p i a (k + 1) = r.made p i a k + ((r.tag k).any p).toNat
  := by
  rw [made, Finset.range_add_one, Finset.filter_insert]
  cases hp : (r.tag k).any p with
  | false =>
      rw [if_neg (by simp)]
      rfl
  | true =>
      rw [if_pos ⟨ha, hi, rfl⟩, Finset.card_insert_of_notMem]
      · rfl
      · simp

theorem made_other {p : Tag → Bool} {i : ι} {a k : ℕ} (hi : r.who k ≠ i) :
  r.made p i a (k + 1) = r.made p i a k
  := by
  rw [made, Finset.range_add_one, Finset.filter_insert, if_neg fun h => hi h.2.1]
  rfl

/-- A number kept in a ghost that goes up by one exactly at the accesses whose tag satisfies `p`
counts them. -/
theorem trail_count (g : M.Ghost A) (f : A → ℕ) (p : Tag → Bool)
    (hnext : ∀ i s a l s' l' t, f (g.next i s a l s' l' t) = f a + (p t).toNat) :
  ∀ k ≤ n, f (r.trail g k) = f g.init + r.count p k
  := by
  intro k
  induction k with
  | zero =>
      intro _
      rfl
  | succ k ih =>
      intro hk
      have ih := ih (Nat.le_of_succ_le hk)
      have hstep := r.step k hk
      rw [count_succ, Run.trail, tag]
      cases he : r.event k with
      | call o => exact ih
      | ret v => exact ih
      | act t =>
          rw [he] at hstep
          obtain ⟨l, ch, s, l', hl, hs, hc⟩ := hstep.act_inv
          rw [hl, hc, Config.put_thread_self]
          change f (g.next _ _ _ _ _ _ t) = _
          rw [hnext, ih, Option.any_some, Nat.add_assoc]

/-- If the steps of a ghost go up in an order then so does the ghost along a run. -/
theorem trail_mono (g : M.Ghost A) (R : A → A → Prop) (hrefl : ∀ a, R a a)
    (htrans : ∀ a b c, R a b → R b c → R a c)
    (hnext : ∀ i s a l s' l' t, R a (g.next i s a l s' l' t)) {k m : ℕ} (hkm : k ≤ m) :
  R (r.trail g k) (r.trail g m)
  := by
  induction hkm with
  | refl => apply hrefl
  | @step m _ ih =>
      apply htrans _ _ _ ih
      rw [Run.trail]
      split
      · apply hnext
      · apply hrefl

/-! ### Rounds -/

/-- At step `k` thread `i` comes to the top of its loop. -/
def Comes (Top : Option ℓ → ℓ → Prop) (i : ι) (k : ℕ) : Prop :=
  r.who k = i ∧ ∃ l, (r.conf (k + 1)).thread i = some l ∧ Top ((r.conf k).thread i) l

/-- The steps after `e` up to `k` are a round of thread `i`: at `e` the thread comes to the top of
its loop and at `k` it comes back to it, within one call and not in between. -/
structure Round (Top : Option ℓ → ℓ → Prop) (i : ι) (e k : ℕ) : Prop where
  lt : e < k
  stop : k < n
  within : ∀ j, e < j → j ≤ k → r.who j = i → ∃ t, r.event j = .act t
  comes : r.Comes Top i e
  back : r.Comes Top i k
  inside : ∀ j, e < j → j < k → ¬ r.Comes Top i j

/-- The threads that take part in a run. -/
def threads : Finset ι := (Finset.range n).image r.who

variable {r}

/-- Two rounds of a thread that have a step in common are the same. -/
theorem Round.unique {Top : Option ℓ → ℓ → Prop} {i : ι} {e k e' k' j : ℕ}
    (h : r.Round Top i e k) (h' : r.Round Top i e' k') (hej : e < j) (hjk : j ≤ k) (hej' : e' < j)
    (hjk' : j ≤ k') :
  e = e' ∧ k = k'
  := by
  constructor
  · rcases lt_trichotomy e e' with hlt | heq | hlt
    · exact absurd h'.comes (h.inside e' hlt (lt_of_lt_of_le hej' hjk))
    · exact heq
    · exact absurd h.comes (h'.inside e hlt (lt_of_lt_of_le hej hjk'))
  · rcases lt_trichotomy k k' with hlt | heq | hlt
    · exact absurd h.back (h'.inside k (lt_of_lt_of_le hej' hjk) hlt)
    · exact heq
    · exact absurd h'.back (h.inside k' (lt_of_lt_of_le hej hjk') hlt)

/-- If every round contains a step whose tag satisfies `p`, there are at most as many rounds of
each thread as such steps. -/
theorem rounds_le {Top : Option ℓ → ℓ → Prop} {p : Tag → Bool}
    (h : ∀ i e k, r.Round Top i e k → ∃ j, e < j ∧ j ≤ k ∧ (r.tag j).any p) :
  {x : ι × ℕ × ℕ | r.Round Top x.1 x.2.1 x.2.2}.encard ≤ (r.threads.card * r.count p n : ℕ)
  := by
  choose! f hef hfk hp using h
  -- a round is charged to its thread and a change in it
  have hinj : Set.InjOn (fun x : ι × ℕ × ℕ => (x.1, f x.1 x.2.1 x.2.2))
      {x : ι × ℕ × ℕ | r.Round Top x.1 x.2.1 x.2.2} := by
    rintro ⟨i, e, k⟩ hx ⟨i', e', k'⟩ hx' heq
    obtain ⟨rfl, hj⟩ := Prod.mk.inj heq
    have hej := hef _ _ _ hx'
    have hjk := hfk _ _ _ hx'
    rw [← show f i e k = f i e' k' from hj] at hej hjk
    obtain ⟨rfl, rfl⟩ := Round.unique hx hx' (hef _ _ _ hx) (hfk _ _ _ hx) hej hjk
    rfl
  rw [← hinj.encard_image]
  apply le_trans (Set.encard_le_encard (t := ↑(r.threads ×ˢ
    (Finset.range n).filter fun j => (r.tag j).any p)) _)
  · rw [Set.encard_coe_eq_coe_finsetCard, Finset.card_product]
    rfl
  · rintro _ ⟨⟨i, e, k⟩, hx, rfl⟩
    have hlt : f i e k < n := lt_of_le_of_lt (hfk _ _ _ hx) hx.stop
    simp only [Finset.coe_product, Set.mem_prod, Finset.mem_coe, threads, Finset.mem_image,
      Finset.mem_range, Finset.mem_filter]
    exact ⟨⟨k, hx.stop, hx.back.1⟩, hlt, hp _ _ _ hx⟩

end Run

/-! ### Rounds without a change -/

/-- What a thread has read in its present round is `Fresh` as long as no access with a tag that
satisfies `p` happens, and while it is so the thread does not come to the top of the loop. -/
structure Retries (M : Machine ι σ ℓ Op Res Tag Ch) (G : σ → Prop)
    (L : ι → σ → Option ℓ → Prop) (Top : Option ℓ → ℓ → Prop) (p : Tag → Bool)
    (Fresh : σ → ℓ → Prop) : Prop where
  top : ∀ {s l₀ l}, Top l₀ l → Fresh s l
  own : ∀ {i ch s l s' l' t}, G s → L i s (some l) → Fresh s l →
    M.step i ch s l = some (s', l', t) → p t = false → Fresh s' l' ∧ ¬ Top (some l) l'
  other : ∀ {i j ch s l l₂ s' l₂' t}, G s → L i s (some l) → L j s (some l₂) → j ≠ i →
    Fresh s l → M.step j ch s l₂ = some (s', l₂', t) → p t = false → Fresh s' l

/-- Every round contains a step whose tag satisfies `p`. -/
theorem Retries.round {G : σ → Prop} {L : ι → σ → Option ℓ → Prop} {R : ι → σ → σ → Prop}
    {Top : Option ℓ → ℓ → Prop} {p : Tag → Bool} {Fresh : σ → ℓ → Prop}
    (h : M.Retries G L Top p Fresh) (ho : M.Outline G L R) {n : ℕ} {r : M.Run n} {i : ι} {e k : ℕ}
    (hround : r.Round Top i e k) :
  ∃ j, e < j ∧ j ≤ k ∧ (r.tag j).any p
  := by
  by_contra hnone
  have hquiet : ∀ j t, e < j → j ≤ k → r.event j = .act t → p t = false := by
    intro j t hej hjk ht
    apply Bool.eq_false_iff.mpr
    intro hp
    apply hnone
    use j, hej, hjk
    exact Run.any_tag_iff.mpr ⟨t, ht, hp⟩
  -- an own step of the round keeps what has been read fresh and does not end the round
  have hown : ∀ j l, e < j → j ≤ k → r.who j = i → (r.conf j).thread i = some l →
      Fresh (r.conf j).shared l → ∃ l', (r.conf (j + 1)).thread i = some l' ∧
        Fresh (r.conf (j + 1)).shared l' ∧ ¬ Top (some l) l' := by
    intro j l hej hjk hi hl hf
    have hjn : j < n := lt_of_le_of_lt hjk hround.stop
    obtain ⟨hG, hL⟩ := ho.sound r j (le_of_lt hjn)
    obtain ⟨t, ht⟩ := hround.within j hej hjk hi
    have hstep := r.step j hjn
    rw [ht] at hstep
    obtain ⟨l₀, ch, s, l', hl₀, hs, hc⟩ := hstep.act_inv
    rw [hi] at hl₀ hs hc
    obtain rfl := Option.some.inj (hl.symm.trans hl₀)
    have hLi := hL i
    rw [hl] at hLi
    use l'
    rw [hc, Config.put_thread_self, Config.put_shared]
    exact ⟨rfl, h.own hG hLi hf hs (hquiet j t hej hjk ht)⟩
  have hfresh : ∀ d, e + 1 + d ≤ k → ∃ l, (r.conf (e + 1 + d)).thread i = some l ∧
      Fresh (r.conf (e + 1 + d)).shared l := by
    intro d
    induction d with
    | zero =>
        intro _
        obtain ⟨-, l, hl, htop⟩ := hround.comes
        exact ⟨l, hl, h.top htop⟩
    | succ d ih =>
        intro hd
        obtain ⟨l, hl, hf⟩ := ih (Nat.le_of_succ_le hd)
        have hjn : e + 1 + d < n := lt_of_lt_of_le hd (le_of_lt hround.stop)
        have hstep := r.step (e + 1 + d) hjn
        rw [← Nat.add_assoc]
        by_cases hi : r.who (e + 1 + d) = i
        · obtain ⟨l', hl', hf', -⟩ := hown (e + 1 + d) l (by omega) (Nat.le_of_succ_le hd) hi hl hf
          exact ⟨l', hl', hf'⟩
        · use l
          rw [hstep.other (Ne.symm hi)]
          use hl
          rcases r.rests_or_acts hjn with ⟨-, hrest⟩ | ⟨t, ht⟩
          · rw [hrest]
            exact hf
          · obtain ⟨hG, hL⟩ := ho.sound r (e + 1 + d) (le_of_lt hjn)
            obtain ⟨l₀, ch, s, l', hl₀, hs, hc⟩ := ht.step
            have hLi := hL i
            have hLj := hL (r.who (e + 1 + d))
            rw [hl] at hLi
            rw [hl₀] at hLj
            rw [hc]
            exact h.other hG hLi hLj hi hf hs
              (hquiet (e + 1 + d) t (by omega) (Nat.le_of_succ_le hd) ht.2.2)
  obtain ⟨d, rfl⟩ := Nat.exists_eq_add_of_le hround.lt
  obtain ⟨l, hl, hf⟩ := hfresh d le_rfl
  obtain ⟨hi, l₁, hl₁, htop⟩ := hround.back
  obtain ⟨l', hl', -, hnot⟩ := hown _ l hround.lt le_rfl hi hl hf
  obtain rfl := Option.some.inj (hl'.symm.trans hl₁)
  rw [hl] at htop
  exact hnot htop

end Machine
