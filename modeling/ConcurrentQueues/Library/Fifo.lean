import ConcurrentQueues.Library.Outline
import Mathlib.Data.Set.Insert
import Mathlib.Data.Set.Subsingleton

/-!
# Linearizable queues

The operations of a queue, what it means for a run that it behaves as an atomic FIFO
list, and a way to prove it: a proof outline together with a list read off the shared
state, and a phase of each call which changes exactly when the list does.
-/

/-- A queue operation. The argument of `dequeue` is the content of the caller's output
variable. -/
inductive QueueOp (V : Type) where
  | enqueue (x : V)
  | dequeue (out : V)
  deriving DecidableEq

instance {V : Type} [Inhabited V] : Inhabited (QueueOp V) := ⟨.dequeue default⟩

/-- What a queue operation returns. A `dequeue` returns its boolean and the content of the
caller's output variable. -/
inductive QueueRes (V : Type) where
  | enqueued
  | dequeued (ok : Bool) (out : V)
  deriving DecidableEq

/-- What an access does to the list a queue stands for. -/
inductive Effect where
  | none
  | append
  | remove
  deriving DecidableEq

variable {ι σ ℓ V Tag Ch A : Type} [DecidableEq ι]

namespace Machine

variable {M : Machine ι σ ℓ (QueueOp V) (QueueRes V) Tag Ch} {n : ℕ}

/-- The accesses with an effect that thread `i` performs after step `a` and before `b`. -/
def Run.effects (r : M.Run n) (eff : Tag → Effect) (i : ι) (a b : ℕ) : Set ℕ :=
  {k | a < k ∧ k < b ∧ ∃ t, r.Acts i t k ∧ eff t ≠ .none}

/-- The run `r` is linearized by the lists `q`, where `q k` is the list before step `k`.
The list is empty at the start and changed only by accesses with an effect; these append
the argument of the enqueue call, or remove the front during the dequeue call, that
the thread is in. A call that returns has one access with an effect, the one it should
have, except that a dequeue returning `false` has none, and finds the list empty at some
moment of the call. -/
structure Run.Fifo (r : M.Run n) (eff : Tag → Effect) (q : ℕ → List V) : Prop where
  empty : q 0 = []
  quiet : ∀ k < n, (∀ i t, r.Acts i t k → eff t = .none) → q (k + 1) = q k
  append : ∀ i t k, r.Acts i t k → eff t = .append →
    ∃ x a, r.Calls i (.enqueue x) a ∧ r.Within i a k ∧ q (k + 1) = q k ++ [x]
  remove : ∀ i t k, r.Acts i t k → eff t = .remove →
    ∃ out a x, r.Calls i (.dequeue out) a ∧ r.Within i a k ∧ q k = x :: q (k + 1)
  once : ∀ i o a k, r.Calls i o a → r.Within i a k → k ≤ n → (r.effects eff i a k).Subsingleton
  enqueue : ∀ i x a v b, r.Returns i (.enqueue x) a v b → v = .enqueued ∧
    ∃ k t, r.effects eff i a b = {k} ∧ r.Acts i t k ∧ eff t = .append ∧ q (k + 1) = q k ++ [x]
  dequeue : ∀ i out a v b, r.Returns i (.dequeue out) a v b →
    (∃ x k t, v = .dequeued true x ∧ r.effects eff i a b = {k} ∧ r.Acts i t k ∧
      eff t = .remove ∧ q k = x :: q (k + 1)) ∨
    (∃ x k, v = .dequeued false x ∧ r.effects eff i a b = ∅ ∧ a < k ∧ k ≤ b ∧ q k = [])

/-- How far a call has come: an enqueue of `x` before or after `x` is appended, a dequeue
before anything is removed, with a flag that it has seen the list empty, and a
dequeue that has removed `x`. -/
inductive Phase (V : Type) where
  | appending (x : V)
  | appended (x : V)
  | removing (seen : Bool)
  | removed (x : V)

/-- An access with the given effect takes the list and the phase of its call to a list and a
phase. An access without effect may see that the list is empty, or forget it. -/
inductive Phase.Step : Effect → List V → Phase V → List V → Phase V → Prop where
  | append (q : List V) (x : V) : Step .append q (.appending x) (q ++ [x]) (.appended x)
  | remove (q : List V) (x : V) (b : Bool) :
      Step .remove (x :: q) (.removing b) q (.removed x)
  | same (q : List V) (p : Phase V) : Step .none q p q p
  | forget (q : List V) (b : Bool) : Step .none q (.removing b) q (.removing false)
  | see (b : Bool) : Step .none [] (.removing b) [] (.removing true)

theorem Phase.Step.keep {q q' : List V} (h : q' = q) (p : Phase V) :
  Phase.Step .none q p q' p
  := h ▸ .same q p

theorem Phase.Step.appendTo {q q' : List V} {x : V} (h : q' = q ++ [x]) :
  Phase.Step .append q (.appending x) q' (.appended x)
  := h ▸ .append q x

theorem Phase.Step.removeFrom {q q' : List V} {x : V} (h : q = x :: q') (b : Bool) :
  Phase.Step .remove q (.removing b) q' (.removed x)
  := h ▸ .remove q' x b

/-- Two accesses without effect, one after the other. -/
theorem Phase.Step.trans {q q' q'' : List V} {p p' p'' : Phase V}
    (h : Phase.Step .none q p q' p') (h' : Phase.Step .none q' p' q'' p'') :
  Phase.Step .none q p q'' p''
  := by
  cases h with
  | same => exact h'
  | forget =>
      cases h' with
      | same => apply Phase.Step.forget
      | forget => apply Phase.Step.forget
      | see => apply Phase.Step.see
  | see =>
      cases h' with
      | same => apply Phase.Step.see
      | forget => apply Phase.Step.forget
      | see => apply Phase.Step.see

theorem Phase.Step.quiet {q q' : List V} {p p' : Phase V} (h : Phase.Step .none q p q' p') :
  q' = q
  := by
  cases h with
  | same => rfl
  | forget => rfl
  | see => rfl

theorem Phase.Step.append_inv {q q' : List V} {p p' : Phase V}
    (h : Phase.Step .append q p q' p') :
  ∃ x, p = .appending x ∧ p' = .appended x ∧ q' = q ++ [x]
  := by
  cases h with
  | append q x => exact ⟨x, rfl, rfl, rfl⟩

theorem Phase.Step.remove_inv {q q' : List V} {p p' : Phase V}
    (h : Phase.Step .remove q p q' p') :
  ∃ b x, p = .removing b ∧ p' = .removed x ∧ q = x :: q'
  := by
  cases h with
  | remove q x b => exact ⟨b, x, rfl, rfl, rfl⟩

/-- What an outline with the list `abs` and the phases `phase` has to satisfy for its
machine to be a queue. -/
structure Linearizes (M : Machine ι σ ℓ (QueueOp V) (QueueRes V) Tag Ch) (eff : Tag → Effect)
    (G : σ → Prop) (L : ι → σ → Option ℓ → Prop) (abs : σ → List V)
    (phase : ι → σ → ℓ → Phase V) : Prop where
  init : abs M.init = []
  enqueue : ∀ i s x, phase i s (M.start (.enqueue x)) = .appending x
  dequeue : ∀ i s out, phase i s (M.start (.dequeue out)) = .removing false
  frame : ∀ {i ch s l s' l' t j l₂}, G s → L i s (some l) → M.step i ch s l = some (s', l', t) →
    j ≠ i → L j s (some l₂) → phase j s' l₂ = phase j s l₂
  step : ∀ {i ch s l s' l' t}, G s → L i s (some l) → M.step i ch s l = some (s', l', t) →
    Phase.Step (eff t) (abs s) (phase i s l) (abs s') (phase i s' l')
  result : ∀ {i s l v}, G s → L i s (some l) → M.result l = some v →
    (∃ x, phase i s l = .appended x ∧ v = .enqueued) ∨
    (∃ x, phase i s l = .removed x ∧ v = .dequeued true x) ∨
    (∃ x, phase i s l = .removing true ∧ v = .dequeued false x)

/-! ### The effects of a call -/

section effects

variable {r : M.Run n} {eff : Tag → Effect} {i : ι} {a k : ℕ}

theorem Run.effects_start :
  r.effects eff i a (a + 1) = ∅
  := by
  apply Set.eq_empty_of_forall_notMem
  rintro m ⟨ham, hm, -⟩
  exact absurd ham (Nat.not_lt.mpr (Nat.lt_succ_iff.mp hm))

/-- A step which is no access of `i` with an effect adds nothing to the effects of `i`. -/
theorem Run.effects_succ_of_quiet (h : ∀ t, r.Acts i t k → eff t = .none) :
  r.effects eff i a (k + 1) = r.effects eff i a k
  := by
  ext m
  constructor
  · rintro ⟨ham, hm, t, ht, hne⟩
    rcases Nat.lt_succ_iff_lt_or_eq.mp hm with hm | rfl
    · exact ⟨ham, hm, t, ht, hne⟩
    · exact absurd (h t ht) hne
  · rintro ⟨ham, hm, h⟩
    exact ⟨ham, Nat.lt_succ_of_lt hm, h⟩

/-- The first access of a call with an effect is the only one so far. -/
theorem Run.effects_succ_of_acts {t : Tag} (hk : a < k) (h : r.Acts i t k) (ht : eff t ≠ .none)
    (hempty : r.effects eff i a k = ∅) :
  r.effects eff i a (k + 1) = {k}
  := by
  ext m
  constructor
  · rintro ⟨ham, hm, hacts⟩
    rcases Nat.lt_succ_iff_lt_or_eq.mp hm with hm | rfl
    · have hmem : m ∈ r.effects eff i a k := ⟨ham, hm, hacts⟩
      rw [hempty] at hmem
      cases hmem
    · rfl
  · rintro rfl
    exact ⟨hk, Nat.lt_succ_self m, t, h, ht⟩

end effects

/-! ### From phases to linearizations -/

/-- What the phase of a call of `o`, made at step `a`, says at step `k` about its effects. -/
def Run.Tells (r : M.Run n) (eff : Tag → Effect) (q : ℕ → List V) (i : ι) (o : QueueOp V)
    (a k : ℕ) : Phase V → Prop
  | .appending x => o = .enqueue x ∧ r.effects eff i a k = ∅
  | .appended x => o = .enqueue x ∧ ∃ m t, r.effects eff i a k = {m} ∧ r.Acts i t m ∧
      eff t = .append ∧ q (m + 1) = q m ++ [x]
  | .removing b => (∃ out, o = .dequeue out) ∧ r.effects eff i a k = ∅ ∧
      (b = true → ∃ m, a < m ∧ m ≤ k ∧ q m = [])
  | .removed x => (∃ out, o = .dequeue out) ∧ ∃ m t, r.effects eff i a k = {m} ∧
      r.Acts i t m ∧ eff t = .remove ∧ q m = x :: q (m + 1)

section tells

variable {r : M.Run n} {eff : Tag → Effect} {q : ℕ → List V} {i : ι} {o : QueueOp V} {a k : ℕ}
  {p p' : Phase V}

theorem Run.Tells.subsingleton (h : r.Tells eff q i o a k p) :
  (r.effects eff i a k).Subsingleton
  := by
  cases p with
  | appending x =>
      rw [h.2]
      apply Set.subsingleton_empty
  | appended x =>
      obtain ⟨-, m, t, hm, -⟩ := h
      rw [hm]
      apply Set.subsingleton_singleton
  | removing b =>
      rw [h.2.1]
      apply Set.subsingleton_empty
  | removed x =>
      obtain ⟨-, m, t, hm, -⟩ := h
      rw [hm]
      apply Set.subsingleton_singleton

/-- What a phase tells stays true when the call has no effect. -/
theorem Run.Tells.succ (h : r.Tells eff q i o a k p)
    (hk : ∀ t, r.Acts i t k → eff t = .none) :
  r.Tells eff q i o a (k + 1) p
  := by
  cases p with
  | appending x =>
      obtain ⟨ho, he⟩ := h
      exact ⟨ho, (effects_succ_of_quiet hk).trans he⟩
  | appended x =>
      obtain ⟨ho, m, t, he, h⟩ := h
      exact ⟨ho, m, t, (effects_succ_of_quiet hk).trans he, h⟩
  | removing b =>
      obtain ⟨ho, he, hb⟩ := h
      use ho, (effects_succ_of_quiet hk).trans he
      intro hb'
      obtain ⟨m, ham, hmk, hq⟩ := hb hb'
      exact ⟨m, ham, Nat.le_succ_of_le hmk, hq⟩
  | removed x =>
      obtain ⟨ho, m, t, he, h⟩ := h
      exact ⟨ho, m, t, (effects_succ_of_quiet hk).trans he, h⟩

theorem Run.Tells.quiet {q' : List V} (h : r.Tells eff q i o a k p) (hak : a < k)
    (hp : Phase.Step .none (q k) p q' p') :
  r.Tells eff q i o a k p'
  := by
  generalize hq : q k = qk at hp
  cases hp with
  | same => apply h
  | forget b => exact ⟨h.1, h.2.1, fun hb => absurd hb Bool.false_ne_true⟩
  | see b => exact ⟨h.1, h.2.1, fun _ => ⟨k, hak, le_rfl, hq⟩⟩

end tells

variable {eff : Tag → Effect} {G : σ → Prop} {L : ι → σ → Option ℓ → Prop}
  {R : ι → σ → σ → Prop} {abs : σ → List V} {phase : ι → σ → ℓ → Phase V}

/-- Every call in progress is where its phase says. -/
theorem Linearizes.tells (h : Linearizes M eff G L abs phase) (hM : M.Outline G L R)
    (r : M.Run n) :
  ∀ k ≤ n, ∀ i l, (r.conf k).thread i = some l →
    ∃ o a, r.Calls i o a ∧ r.Within i a k ∧
      r.Tells eff (fun k => abs (r.conf k).shared) i o a k (phase i (r.conf k).shared l)
  := by
  apply r.busy_induction fun i o a k l =>
    r.Tells eff (fun k => abs (r.conf k).shared) i o a k (phase i (r.conf k).shared l)
  case call =>
    intro i o a hcalls
    cases o with
    | enqueue x =>
        rw [h.enqueue]
        exact ⟨rfl, Run.effects_start⟩
    | dequeue out =>
        rw [h.dequeue]
        exact ⟨⟨out, rfl⟩, Run.effects_start, fun hb => absurd hb Bool.false_ne_true⟩
  case own =>
    intro i o a k l ch s l' t hcalls hwithin hH ht hl hs hc
    obtain ⟨hG, hL⟩ := hM.sound r k (le_of_lt ht.1)
    have hLi := hL i
    rw [hl] at hLi
    have hshared : (r.conf (k + 1)).shared = s := by rw [hc]; rfl
    have hphase := h.step hG hLi hs
    rw [hshared]
    cases he : eff t with
    | none =>
        rw [he] at hphase
        apply (hH.quiet hwithin.1 hphase).succ
        intro t' ht'
        have htt := ht.2.2.symm.trans ht'.2.2
        cases htt
        apply he
    | append =>
        have hne : eff t ≠ .none := by rw [he]; exact fun h => Effect.noConfusion h
        rw [he] at hphase
        obtain ⟨x, hp, hp', habs⟩ := hphase.append_inv
        rw [hp']
        rw [hp] at hH
        use hH.1, k, t, Run.effects_succ_of_acts hwithin.1 ht hne hH.2, ht, he
        simp only [hshared, habs]
    | remove =>
        have hne : eff t ≠ .none := by rw [he]; exact fun h => Effect.noConfusion h
        rw [he] at hphase
        obtain ⟨b, x, hp, hp', habs⟩ := hphase.remove_inv
        rw [hp']
        rw [hp] at hH
        use hH.1, k, t, Run.effects_succ_of_acts hwithin.1 ht hne hH.2.1, ht, he
        simp only [hshared, habs]
  case other =>
    intro i o a k l hcalls hwithin hH hk hl hne
    have hframe : phase i (r.conf (k + 1)).shared l = phase i (r.conf k).shared l := by
      rcases r.rests_or_acts hk with ⟨-, hrest⟩ | ⟨t, ht⟩
      · rw [hrest]
      · obtain ⟨l₀, ch, s, l', -, hs, hc, hG, hL₀, -, -⟩ := hM.acts ht
        rw [hc, Config.put_shared]
        have hLi := (hM.sound r k (le_of_lt hk)).2 i
        rw [hl] at hLi
        apply h.frame hG hL₀ hs (Ne.symm hne) hLi
    rw [hframe]
    apply hH.succ
    intro t ht
    exact absurd ht.2.1 hne

/-- An outline with a list and phases linearizes every run. -/
theorem Linearizes.fifo (h : Linearizes M eff G L abs phase) (hM : M.Outline G L R)
    (r : M.Run n) :
  r.Fifo eff fun k => abs (r.conf k).shared
  := by
  constructor
  case empty =>
    rw [r.start]
    apply h.init
  case quiet =>
    intro k hk hquiet
    rcases r.rests_or_acts hk with ⟨-, hrest⟩ | ⟨t, ht⟩
    · rw [hrest]
    · obtain ⟨l, ch, s, l', -, hs, hc, hG, hL, -, -⟩ := hM.acts ht
      rw [hc, Config.put_shared]
      have hphase := h.step hG hL hs
      rw [hquiet _ t ht] at hphase
      apply hphase.quiet
  case append =>
    intro i t k ht he
    obtain ⟨l, ch, s, l', hl, hs, hc, hG, hL, -, -⟩ := hM.acts ht
    have hphase := h.step hG hL hs
    rw [he] at hphase
    obtain ⟨x, hp, -, habs⟩ := hphase.append_inv
    obtain ⟨o, a, hcalls, hwithin, htells⟩ := h.tells hM r k (le_of_lt ht.1) i l hl
    rw [hp] at htells
    rw [htells.1] at hcalls
    use x, a, hcalls, hwithin
    rw [hc, Config.put_shared, habs]
  case remove =>
    intro i t k ht he
    obtain ⟨l, ch, s, l', hl, hs, hc, hG, hL, -, -⟩ := hM.acts ht
    have hphase := h.step hG hL hs
    rw [he] at hphase
    obtain ⟨b, x, hp, -, habs⟩ := hphase.remove_inv
    obtain ⟨o, a, hcalls, hwithin, htells⟩ := h.tells hM r k (le_of_lt ht.1) i l hl
    rw [hp] at htells
    obtain ⟨⟨out, rfl⟩, -⟩ := htells
    use out, a, x, hcalls, hwithin
    rw [hc, Config.put_shared, habs]
  case once =>
    intro i o a k hcalls hwithin hk
    -- up to the last access of the call the thread is in it
    rintro m₁ ⟨ham₁, hm₁, t₁, ht₁, hne₁⟩ m₂ ⟨ham₂, hm₂, t₂, ht₂, hne₂⟩
    have key : ∀ {m₁ m₂ : ℕ} {t₁ t₂ : Tag}, a < m₁ → m₁ < m₂ → m₂ < k → r.Acts i t₁ m₁ →
        r.Acts i t₂ m₂ → eff t₁ ≠ .none → eff t₂ ≠ .none → False := by
      intro m₁ m₂ t₁ t₂ ham hlt hm₂ ht₁ ht₂ hne₁ hne₂
      obtain ⟨l, ch, s, l', hl, hs, hc⟩ := ht₂.step
      have hl' : (r.conf (m₂ + 1)).thread i = some l' := by rw [hc, Config.put_thread_self]
      obtain ⟨o', a', hcalls', hwithin', htells⟩ := h.tells hM r (m₂ + 1) ht₂.1 i l' hl'
      obtain ⟨rfl, rfl⟩ := hcalls.unique hcalls'
        (hwithin.mono (Nat.lt_succ_of_lt (ham.trans hlt)) hm₂) hwithin'
      have hmem₁ : m₁ ∈ r.effects eff i a (m₂ + 1) :=
        ⟨ham, Nat.lt_succ_of_lt hlt, t₁, ht₁, hne₁⟩
      have hmem₂ : m₂ ∈ r.effects eff i a (m₂ + 1) :=
        ⟨ham.trans hlt, Nat.lt_succ_self m₂, t₂, ht₂, hne₂⟩
      exact absurd (htells.subsingleton hmem₁ hmem₂) (ne_of_lt hlt)
    rcases lt_trichotomy m₁ m₂ with hlt | heq | hlt
    · exact (key ham₁ hlt hm₂ ht₁ ht₂ hne₁ hne₂).elim
    · exact heq
    · exact (key ham₂ hlt hm₁ ht₂ ht₁ hne₂ hne₁).elim
  case enqueue =>
    intro i x a v b hret
    obtain ⟨l, hl, hv⟩ := hret.result
    obtain ⟨hG, hL⟩ := hM.sound r b (le_of_lt hret.lt)
    have hLi := hL i
    rw [hl] at hLi
    obtain ⟨o, a', hcalls, hwithin, htells⟩ := h.tells hM r b (le_of_lt hret.lt) i l hl
    obtain ⟨rfl, rfl⟩ := hret.calls.unique hcalls hret.within hwithin
    rcases h.result hG hLi hv with ⟨y, hp, rfl⟩ | ⟨y, hp, rfl⟩ | ⟨y, hp, rfl⟩
    · rw [hp] at htells
      obtain ⟨ho, h⟩ := htells
      cases ho
      exact ⟨rfl, h⟩
    · rw [hp] at htells
      obtain ⟨⟨out, ho⟩, -⟩ := htells
      cases ho
    · rw [hp] at htells
      obtain ⟨⟨out, ho⟩, -⟩ := htells
      cases ho
  case dequeue =>
    intro i out a v b hret
    obtain ⟨l, hl, hv⟩ := hret.result
    obtain ⟨hG, hL⟩ := hM.sound r b (le_of_lt hret.lt)
    have hLi := hL i
    rw [hl] at hLi
    obtain ⟨o, a', hcalls, hwithin, htells⟩ := h.tells hM r b (le_of_lt hret.lt) i l hl
    obtain ⟨rfl, rfl⟩ := hret.calls.unique hcalls hret.within hwithin
    rcases h.result hG hLi hv with ⟨y, hp, rfl⟩ | ⟨y, hp, rfl⟩ | ⟨y, hp, rfl⟩
    · rw [hp] at htells
      obtain ⟨ho, -⟩ := htells
      cases ho
    · rw [hp] at htells
      obtain ⟨-, k, t, he, ht, hr, hq⟩ := htells
      exact Or.inl ⟨y, k, t, rfl, he, ht, hr, hq⟩
    · rw [hp] at htells
      obtain ⟨-, he, hseen⟩ := htells
      obtain ⟨k, hak, hkb, hq⟩ := hseen rfl
      exact Or.inr ⟨y, k, rfl, he, hak, hkb, hq⟩

/-- A run is linearized when it is linearized with a ghost beside it. -/
theorem Run.Fifo.of_lift {r : M.Run n} {g : M.Ghost A} {q : ℕ → List V}
    {hg : ∀ k ≤ n, g.bound (r.trail g k)} (h : (r.lift g hg).Fifo eff q) :
  r.Fifo eff q
  := ⟨h.empty, h.quiet, h.append, h.remove, h.once, h.enqueue, h.dequeue⟩

end Machine
