import ConcurrentQueues.Library.Fifo

/-!
# The output variable of a dequeue

A dequeue may write the caller's output variable before it knows whether the item is its own,
and may then lose the item. What the variable holds when it returns `false` is the last item
it lost in this way, if any.
-/

variable {ι σ ℓ V Tag Ch : Type} [DecidableEq ι]

namespace Machine

variable {M : Machine ι σ ℓ (QueueOp V) (QueueRes V) Tag Ch} {n : ℕ}

namespace Run

/-- Every dequeue that returns `false` leaves the output variable as it was. -/
def KeepsOutput (r : M.Run n) : Prop :=
  ∀ i out a v b, r.Returns i (.dequeue out) a (.dequeued false v) b → v = out

/-- Where `loses` tells the item that the next access of a thread fails to take: `x` is the last
item that thread `i` has lost after step `a` and before step `k`. -/
def LastLost (r : M.Run n) (loses : σ → ℓ → Option V) (i : ι) (a k : ℕ) (x : V) : Prop :=
  ∃ m l, a < m ∧ m < k ∧ r.who m = i ∧ (r.conf m).thread i = some l ∧
    loses (r.conf m).shared l = some x ∧
    ∀ m' l', m < m' → m' < k → r.who m' = i → (r.conf m').thread i = some l' →
      loses (r.conf m').shared l' = none

/-- A dequeue that returns `false` leaves the output variable as it was exactly when it has lost no
item, or the last one it lost is what the variable held anyway. -/
def KeepsOutputUnlessLost (r : M.Run n) (loses : σ → ℓ → Option V) : Prop :=
  ∀ i out a v b, r.Returns i (.dequeue out) a (.dequeued false v) b →
    (v = out ↔ ∀ x, r.LastLost loses i a b x → x = out)

variable {r : M.Run n} {loses : σ → ℓ → Option V} {i : ι} {a k : ℕ} {x y : V} {l : ℓ}

/-- A step at which thread `i` loses nothing changes nothing about what it has lost. -/
theorem lastLost_succ
    (h : r.who k = i → ∀ l, (r.conf k).thread i = some l → loses (r.conf k).shared l = none) :
  r.LastLost loses i a (k + 1) x ↔ r.LastLost loses i a k x
  := by
  constructor
  · rintro ⟨m, l, ham, hm, hi, hl, hx, hlast⟩
    rcases Nat.lt_succ_iff_lt_or_eq.mp hm with hm | rfl
    · exact ⟨m, l, ham, hm, hi, hl, hx,
        fun m' l' hm' hk => hlast m' l' hm' (Nat.lt_succ_of_lt hk)⟩
    · cases hx.symm.trans (h hi l hl)
  · rintro ⟨m, l, ham, hm, hi, hl, hx, hlast⟩
    refine ⟨m, l, ham, Nat.lt_succ_of_lt hm, hi, hl, hx, fun m' l' hm' hk hi' hl' => ?_⟩
    rcases Nat.lt_succ_iff_lt_or_eq.mp hk with hk | rfl
    · exact hlast m' l' hm' hk hi' hl'
    · exact h hi' l' hl'

/-- The item that is lost at a step is the last one after it. -/
theorem lastLost_self (hak : a < k) (hi : r.who k = i) (hl : (r.conf k).thread i = some l)
    (hy : loses (r.conf k).shared l = some y) :
  r.LastLost loses i a (k + 1) x ↔ x = y
  := by
  constructor
  · rintro ⟨m, l', -, hm, -, hl', hx, hlast⟩
    rcases Nat.lt_succ_iff_lt_or_eq.mp hm with hm | rfl
    · cases hy.symm.trans (hlast k l hm (Nat.lt_succ_self k) hi hl)
    · obtain rfl := Option.some.inj (hl.symm.trans hl')
      exact Option.some.inj (hx.symm.trans hy)
  · rintro rfl
    refine ⟨k, l, hak, Nat.lt_succ_self k, hi, hl, hy, fun m' l' hm' hk => ?_⟩
    exact absurd hm' (Nat.not_lt.mpr (Nat.lt_succ_iff.mp hk))

/-- Nothing has been lost when a call starts. -/
theorem not_lastLost_start :
  ¬ r.LastLost loses i a (a + 1) x
  := by
  rintro ⟨m, l, ham, hm, -⟩
  exact absurd ham (Nat.not_lt.mpr (Nat.lt_succ_iff.mp hm))

variable (r) in
/-- Let `kept` be the content of the output variable of a dequeue which has not just written it. If
an access keeps this content, or loses an item which is the content then, the content at the
end is the last item lost or what it was at the start. -/
theorem keepsOutputUnlessLost (loses : σ → ℓ → Option V) (kept : ℓ → Option V)
    (hdequeue : ∀ out, kept (M.start (.dequeue out)) = some out)
    (hresult : ∀ {l v}, M.result l = some (.dequeued false v) → kept l = some v)
    (hstep : ∀ k < n, ∀ l ch s l' t y, (r.conf k).thread (r.who k) = some l →
      M.step (r.who k) ch (r.conf k).shared l = some (s, l', t) → kept l' = some y →
      loses (r.conf k).shared l = some y ∨ loses (r.conf k).shared l = none ∧ kept l = some y) :
  r.KeepsOutputUnlessLost loses
  := by
  intro i out a v b hret
  have hinv := r.busy_induction
    (fun i o a k l => ∀ out y, o = .dequeue out → kept l = some y →
      (∀ x, r.LastLost loses i a k x → x = y) ∧ (y = out ∨ r.LastLost loses i a k y))
    (fun i o a _ out y ho hy => by
      subst ho
      obtain rfl := Option.some.inj ((hdequeue out).symm.trans hy)
      exact ⟨fun x hx => absurd hx not_lastLost_start, Or.inl rfl⟩)
    (fun i o a k l ch s l' t _ hwithin hH hacts hl hs _ out y ho hy => by
      obtain ⟨hk, rfl, -⟩ := hacts
      rcases hstep k hk l ch s l' t y hl hs hy with hlost | ⟨hnone, hkept⟩
      · have hself : ∀ x, r.LastLost loses (r.who k) a (k + 1) x ↔ x = y :=
          fun x => lastLost_self hwithin.1 rfl hl hlost
        exact ⟨fun x hx => (hself x).mp hx, Or.inr ((hself y).mpr rfl)⟩
      · have hsame : ∀ x, r.LastLost loses (r.who k) a (k + 1) x ↔
            r.LastLost loses (r.who k) a k x := by
          intro x
          apply lastLost_succ
          intro _ l₀ hl₀
          obtain rfl := Option.some.inj (hl.symm.trans hl₀)
          exact hnone
        obtain ⟨hlast, hout⟩ := hH out y ho hkept
        exact ⟨fun x hx => hlast x ((hsame x).mp hx), hout.imp_right (hsame y).mpr⟩)
    (fun i o a k l _ _ hH _ _ hi out y ho hy => by
      have hsame : ∀ x, r.LastLost loses i a (k + 1) x ↔ r.LastLost loses i a k x :=
        fun x => lastLost_succ fun h => absurd h hi
      obtain ⟨hlast, hout⟩ := hH out y ho hy
      exact ⟨fun x hx => hlast x ((hsame x).mp hx), hout.imp_right (hsame y).mpr⟩)
  obtain ⟨l, hl, hv⟩ := hret.result
  obtain ⟨o, a', hcalls, hwithin, hH⟩ := hinv b (le_of_lt hret.lt) i l hl
  obtain ⟨rfl, rfl⟩ := hret.calls.unique hcalls hret.within hwithin
  obtain ⟨hlast, hout⟩ := hH out v rfl (hresult hv)
  constructor
  · rintro rfl
    exact hlast
  · intro h
    rcases hout with hout | hlost
    · exact hout
    · exact h v hlost

variable (r) in
/-- A dequeue which writes the output variable only when the item is its own leaves the variable as
it was when it returns `false`. -/
theorem keepsOutput (kept : ℓ → Option V)
    (hdequeue : ∀ out, kept (M.start (.dequeue out)) = some out)
    (hresult : ∀ {l v}, M.result l = some (.dequeued false v) → kept l = some v)
    (hstep : ∀ {i ch s l s' l' t y}, M.step i ch s l = some (s', l', t) → kept l' = some y →
      kept l = some y) :
  r.KeepsOutput
  := by
  have h := r.keepsOutputUnlessLost (fun _ _ => none) kept hdequeue hresult
    fun k _ l ch s l' t y _ hs hy => Or.inr ⟨rfl, hstep hs hy⟩
  intro i out a v b hret
  apply (h i out a v b hret).mpr
  rintro x ⟨m, l, -, -, -, -, hx, -⟩
  cases hx

end Run

end Machine
