import Mathlib.Logic.Function.Basic
import Mathlib.Data.Set.Basic
import Mathlib.Order.Basic
import Mathlib.Order.Nat
import Mathlib.Tactic.Common

/-!
# Machines of threads over a shared state

A `Machine` is a concurrent object: a shared state, the operations a thread may
call, and a step function which lets one thread perform one atomic access. A `Run`
is an interleaving of the steps of any number of threads, and the calls of a run are
found by looking at its events.
-/

/-- A concurrent object whose threads are named by `ι`, with shared state `σ` and local
states `ℓ`. A run is confined to the `legal` shared states. A thread that is in no
call may start a `valid` operation; a call ends when `result` gives its value. In
between, `step` performs one access, where `Ch` resolves what the environment
decides, and reports what it did as a tag. -/
structure Machine (ι σ ℓ Op Res Tag Ch : Type) where
  init : σ
  legal : σ → Prop
  valid : Op → Prop
  start : Op → ℓ
  result : ℓ → Option Res
  step : ι → Ch → σ → ℓ → Option (σ × ℓ × Tag)

/-- A shared state and, for each thread in a call, its local state. -/
structure Config (ι σ ℓ : Type) where
  shared : σ
  thread : ι → Option ℓ

/-- What a thread does in one step of a run. -/
inductive Event (Op Res Tag : Type) where
  | call (o : Op)
  | ret (v : Res)
  | act (t : Tag)
  deriving DecidableEq

variable {ι σ ℓ Op Res Tag Ch : Type} [DecidableEq ι]

/-- The configuration in which the shared state is `s` and thread `i` is at `l`. -/
def Config.put (c : Config ι σ ℓ) (i : ι) (s : σ) (l : Option ℓ) : Config ι σ ℓ :=
  ⟨s, Function.update c.thread i l⟩

@[simp]
theorem Config.put_shared (c : Config ι σ ℓ) (i : ι) (s : σ) (l : Option ℓ) :
  (c.put i s l).shared = s
  := rfl

@[simp]
theorem Config.put_thread_self (c : Config ι σ ℓ) (i : ι) (s : σ) (l : Option ℓ) :
  (c.put i s l).thread i = l
  := Function.update_self ..

theorem Config.put_thread_of_ne {c : Config ι σ ℓ} {i j : ι} (h : j ≠ i) (s : σ)
    (l : Option ℓ) :
  (c.put i s l).thread j = c.thread j
  := Function.update_of_ne h ..

namespace Machine

variable (M : Machine ι σ ℓ Op Res Tag Ch)

/-- Thread `i` takes configuration `c` to `c'` with the event `e`. -/
inductive Step : Config ι σ ℓ → ι → Event Op Res Tag → Config ι σ ℓ → Prop where
  | call {c : Config ι σ ℓ} {i : ι} {o : Op} (idle : c.thread i = none) (valid : M.valid o) :
      Step c i (.call o) (c.put i c.shared (some (M.start o)))
  | ret {c : Config ι σ ℓ} {i : ι} {l : ℓ} {v : Res} (busy : c.thread i = some l)
      (result : M.result l = some v) : Step c i (.ret v) (c.put i c.shared none)
  | act {c : Config ι σ ℓ} {i : ι} {l l' : ℓ} {ch : Ch} {s : σ} {t : Tag}
      (busy : c.thread i = some l) (step : M.step i ch c.shared l = some (s, l', t)) :
      Step c i (.act t) (c.put i s (some l'))

variable {M}

/-- A step leaves the other threads where they are. -/
theorem Step.other {c c' : Config ι σ ℓ} {i j : ι} {e : Event Op Res Tag}
    (h : M.Step c i e c') (hij : j ≠ i) :
  c'.thread j = c.thread j
  := by
  cases h with
  | call => apply Config.put_thread_of_ne hij
  | ret => apply Config.put_thread_of_ne hij
  | act => apply Config.put_thread_of_ne hij

theorem Step.call_inv {c c' : Config ι σ ℓ} {i : ι} {o : Op} (h : M.Step c i (.call o) c') :
  c.thread i = none ∧ M.valid o ∧ c' = c.put i c.shared (some (M.start o))
  := by
  cases h with
  | call idle valid => exact ⟨idle, valid, rfl⟩

theorem Step.ret_inv {c c' : Config ι σ ℓ} {i : ι} {v : Res} (h : M.Step c i (.ret v) c') :
  ∃ l, c.thread i = some l ∧ M.result l = some v ∧ c' = c.put i c.shared none
  := by
  cases h with
  | ret busy result => exact ⟨_, busy, result, rfl⟩

theorem Step.act_inv {c c' : Config ι σ ℓ} {i : ι} {t : Tag} (h : M.Step c i (.act t) c') :
  ∃ l ch s l', c.thread i = some l ∧ M.step i ch c.shared l = some (s, l', t) ∧
    c' = c.put i s (some l')
  := by
  cases h with
  | act busy step => exact ⟨_, _, _, _, busy, step, rfl⟩

variable (M) in
/-- A run of `n` steps from the initial state, in which no thread is in a call. -/
structure Run (n : ℕ) where
  conf : ℕ → Config ι σ ℓ
  who : ℕ → ι
  event : ℕ → Event Op Res Tag
  start : conf 0 = ⟨M.init, fun _ => none⟩
  step : ∀ k < n, M.Step (conf k) (who k) (event k) (conf (k + 1))
  legal : ∀ k ≤ n, M.legal (conf k).shared

namespace Run

variable {n : ℕ} (r : M.Run n)

/-- Thread `i` calls `o` at step `a`. -/
def Calls (i : ι) (o : Op) (a : ℕ) : Prop :=
  a < n ∧ r.who a = i ∧ r.event a = .call o

/-- The call thread `i` makes at step `a` has not returned before step `k`. -/
def Within (i : ι) (a k : ℕ) : Prop :=
  a < k ∧ ∀ m, a < m → m < k → r.who m = i → ∃ t, r.event m = .act t

/-- The call of `o` thread `i` makes at step `a` returns `v` at step `b`. -/
def Returns (i : ι) (o : Op) (a : ℕ) (v : Res) (b : ℕ) : Prop :=
  r.Calls i o a ∧ r.Within i a b ∧ b < n ∧ r.who b = i ∧ r.event b = .ret v

/-- At step `k` thread `i` performs an access with tag `t`. -/
def Acts (i : ι) (t : Tag) (k : ℕ) : Prop :=
  k < n ∧ r.who k = i ∧ r.event k = .act t

/-- The tag of step `k`, if it is an access. -/
def tag (k : ℕ) : Option Tag :=
  match r.event k with
  | .act t => some t
  | _ => none

theorem tag_eq_some {r : M.Run n} {k : ℕ} {t : Tag} :
  r.tag k = some t ↔ r.event k = .act t
  := by
  rw [tag]
  cases r.event k with
  | act t' => simp
  | call o => simp
  | ret v => simp

variable {r}

theorem Returns.calls {i : ι} {o : Op} {a b : ℕ} {v : Res} (h : r.Returns i o a v b) :
  r.Calls i o a
  := h.1

theorem Returns.within {i : ι} {o : Op} {a b : ℕ} {v : Res} (h : r.Returns i o a v b) :
  r.Within i a b
  := h.2.1

theorem Returns.lt {i : ι} {o : Op} {a b : ℕ} {v : Res} (h : r.Returns i o a v b) :
  b < n
  := h.2.2.1

theorem Within.mono {i : ι} {a k m : ℕ} (h : r.Within i a m) (hak : a < k) (hkm : k ≤ m) :
  r.Within i a k
  := ⟨hak, fun j haj hjk => h.2 j haj (lt_of_lt_of_le hjk hkm)⟩

theorem Within.succ {i : ι} {a k : ℕ} (h : r.Within i a k)
    (hk : r.who k = i → ∃ t, r.event k = .act t) :
  r.Within i a (k + 1)
  := by
  use Nat.lt_succ_of_lt h.1
  intro m ham hm hi
  rcases Nat.lt_succ_iff_lt_or_eq.mp hm with hm | rfl
  · apply h.2 m ham hm hi
  · apply hk hi

theorem Calls.within {i : ι} {o : Op} {a : ℕ} (_ : r.Calls i o a) :
  r.Within i a (a + 1)
  := ⟨Nat.lt_succ_self a, fun _ h h' => absurd h' (Nat.not_lt.mpr h)⟩

/-- A thread is in at most one call at a time. -/
theorem Calls.unique {i : ι} {o o' : Op} {a a' k : ℕ} (h : r.Calls i o a)
    (h' : r.Calls i o' a') (hk : r.Within i a k) (hk' : r.Within i a' k) :
  a = a' ∧ o = o'
  := by
  have key : ∀ {o o' : Op} {a a' : ℕ}, r.Calls i o a → r.Calls i o' a' → r.Within i a k →
      r.Within i a' k → ¬ a < a' := by
    intro o o' a a' _ h' hk hk' hlt
    obtain ⟨t, ht⟩ := hk.2 a' hlt hk'.1 h'.2.1
    rw [h'.2.2] at ht
    cases ht
  have haa : a = a' := by
    rcases lt_trichotomy a a' with hlt | rfl | hlt
    · exact absurd hlt (key h h' hk hk')
    · rfl
    · exact absurd hlt (key h' h hk' hk)
  subst haa
  have ho := h.2.2.symm.trans h'.2.2
  cases ho
  exact ⟨rfl, rfl⟩

theorem Returns.result {i : ι} {o : Op} {a b : ℕ} {v : Res} (h : r.Returns i o a v b) :
  ∃ l, (r.conf b).thread i = some l ∧ M.result l = some v
  := by
  obtain ⟨-, -, hb, rfl, he⟩ := h
  have hs := r.step b hb
  rw [he] at hs
  obtain ⟨l, hl, hv, -⟩ := hs.ret_inv
  use l

theorem Acts.step {i : ι} {t : Tag} {k : ℕ} (h : r.Acts i t k) :
  ∃ l ch s l', (r.conf k).thread i = some l ∧
    M.step i ch (r.conf k).shared l = some (s, l', t) ∧
    r.conf (k + 1) = (r.conf k).put i s (some l')
  := by
  obtain ⟨hk, rfl, he⟩ := h
  have hs := r.step k hk
  rw [he] at hs
  apply hs.act_inv

/-- A step of a run is an access, or it leaves the shared state as it is. -/
theorem rests_or_acts (r : M.Run n) {k : ℕ} (hk : k < n) :
  (r.tag k = none ∧ (r.conf (k + 1)).shared = (r.conf k).shared) ∨ ∃ t, r.Acts (r.who k) t k
  := by
  have hstep := r.step k hk
  rw [tag]
  cases he : r.event k with
  | call o =>
      rw [he] at hstep
      obtain ⟨-, -, hc⟩ := hstep.call_inv
      rw [hc, Config.put_shared]
      exact Or.inl ⟨rfl, rfl⟩
  | ret v =>
      rw [he] at hstep
      obtain ⟨_, -, -, hc⟩ := hstep.ret_inv
      rw [hc, Config.put_shared]
      exact Or.inl ⟨rfl, rfl⟩
  | act t => exact Or.inr ⟨t, hk, rfl, he⟩

/-- A step of a thread whose call has no result yet is an access. -/
theorem act_of_busy {k : ℕ} {l : ℓ} (hk : k < n) (hl : (r.conf k).thread (r.who k) = some l)
    (hnone : M.result l = none) :
  ∃ t ch s l', r.event k = .act t ∧ M.step (r.who k) ch (r.conf k).shared l = some (s, l', t) ∧
    r.conf (k + 1) = (r.conf k).put (r.who k) s (some l')
  := by
  have hstep := r.step k hk
  cases he : r.event k with
  | call o =>
      rw [he] at hstep
      obtain ⟨hidle, -⟩ := hstep.call_inv
      cases hidle.symm.trans hl
  | ret v =>
      rw [he] at hstep
      obtain ⟨l', hl', hv, -⟩ := hstep.ret_inv
      obtain rfl := Option.some.inj (hl.symm.trans hl')
      cases hnone.symm.trans hv
  | act t =>
      rw [he] at hstep
      obtain ⟨l₀, ch, s, l', hl₀, hs, hc⟩ := hstep.act_inv
      obtain rfl := Option.some.inj (hl.symm.trans hl₀)
      exact ⟨t, ch, s, l', rfl, hs, hc⟩

/-- A thread in a call has a local state. -/
theorem Within.busy {i : ι} {o : Op} {a k : ℕ} (hcalls : r.Calls i o a) (h : r.Within i a k)
    (hk : k ≤ n) :
  ∃ l, (r.conf k).thread i = some l
  := by
  obtain ⟨hak, hacts⟩ := h
  induction k, hak using Nat.le_induction with
  | base =>
      have hstep := r.step a hcalls.1
      rw [hcalls.2.2, hcalls.2.1] at hstep
      obtain ⟨-, -, hc⟩ := hstep.call_inv
      rw [hc, Config.put_thread_self]
      exact ⟨_, rfl⟩
  | succ k hak ih =>
      by_cases hi : r.who k = i
      · obtain ⟨t, ht⟩ := hacts k hak (Nat.lt_succ_self k) hi
        have hstep := r.step k hk
        rw [ht, hi] at hstep
        obtain ⟨_, _, _, l', -, -, hc⟩ := hstep.act_inv
        rw [hc, Config.put_thread_self]
        exact ⟨l', rfl⟩
      · rw [(r.step k hk).other (Ne.symm hi)]
        exact ih (Nat.le_of_succ_le hk) fun m ham hmk => hacts m ham (Nat.lt_succ_of_lt hmk)

/-- A call goes on or has returned. -/
theorem Within.or_returns {i : ι} {o : Op} {a k m : ℕ} (hcalls : r.Calls i o a)
    (h : r.Within i a k) (hkm : k ≤ m) (hm : m ≤ n) :
  r.Within i a m ∨ ∃ v b, k ≤ b ∧ b < m ∧ r.Returns i o a v b
  := by
  induction m, hkm using Nat.le_induction with
  | base => exact Or.inl h
  | succ m hkm ih =>
      rcases ih (Nat.le_of_succ_le hm) with hwithin | ⟨v, b, hkb, hbm, hret⟩
      · by_cases hi : r.who m = i
        · cases he : r.event m with
          | call o' =>
              have hstep := r.step m hm
              rw [he, hi] at hstep
              obtain ⟨hidle, -⟩ := hstep.call_inv
              obtain ⟨l, hl⟩ := hwithin.busy hcalls (Nat.le_of_succ_le hm)
              cases hidle.symm.trans hl
          | ret v => exact Or.inr ⟨v, m, hkm, Nat.lt_succ_self m, hcalls, hwithin, hm, hi, he⟩
          | act t => exact Or.inl (hwithin.succ fun _ => ⟨t, he⟩)
        · exact Or.inl (hwithin.succ fun h => absurd h hi)
      · exact Or.inr ⟨v, b, hkb, Nat.lt_succ_of_lt hbm, hret⟩

variable (r)

/-- A property of a thread in a call, relative to the call and to the moment. If calling
establishes it, and the thread's own steps and the steps of the others keep it, then
it holds of every thread in a call at every moment. -/
theorem busy_induction (H : ι → Op → ℕ → ℕ → ℓ → Prop)
    (call : ∀ i o a, r.Calls i o a → H i o a (a + 1) (M.start o))
    (own : ∀ i o a k l ch s l' t, r.Calls i o a → r.Within i a k → H i o a k l →
      r.Acts i t k → (r.conf k).thread i = some l →
      M.step i ch (r.conf k).shared l = some (s, l', t) →
      r.conf (k + 1) = (r.conf k).put i s (some l') → H i o a (k + 1) l')
    (other : ∀ i o a k l, r.Calls i o a → r.Within i a k → H i o a k l → k < n →
      (r.conf k).thread i = some l → r.who k ≠ i → H i o a (k + 1) l) :
  ∀ k ≤ n, ∀ i l, (r.conf k).thread i = some l →
    ∃ o a, r.Calls i o a ∧ r.Within i a k ∧ H i o a k l
  := by
  intro k
  induction k with
  | zero =>
      intro _ i l hl
      rw [r.start] at hl
      cases hl
  | succ k ih =>
      intro hk i l hl
      have hstep := r.step k hk
      by_cases hi : r.who k = i
      · cases he : r.event k with
        | call o =>
            rw [he] at hstep
            obtain ⟨-, -, hc⟩ := hstep.call_inv
            rw [hc, hi, Config.put_thread_self] at hl
            obtain rfl := Option.some.inj hl
            have hcalls : r.Calls i o k := ⟨hk, hi, he⟩
            exact ⟨o, k, hcalls, hcalls.within, call i o k hcalls⟩
        | ret v =>
            rw [he] at hstep
            obtain ⟨_, -, -, hc⟩ := hstep.ret_inv
            rw [hc, hi, Config.put_thread_self] at hl
            cases hl
        | act t =>
            rw [he] at hstep
            obtain ⟨l₀, ch, s, l', hl₀, hs, hc⟩ := hstep.act_inv
            have hl' := hl
            rw [hc, hi, Config.put_thread_self] at hl'
            obtain rfl := Option.some.inj hl'
            rw [hi] at hl₀ hs hc
            obtain ⟨o, a, hcalls, hwithin, hH⟩ := ih (Nat.le_of_succ_le hk) i l₀ hl₀
            exact ⟨o, a, hcalls, hwithin.succ fun _ => ⟨t, he⟩,
              own i o a k l₀ ch s l' t hcalls hwithin hH ⟨hk, hi, he⟩ hl₀ hs hc⟩
      · rw [hstep.other (Ne.symm hi)] at hl
        obtain ⟨o, a, hcalls, hwithin, hH⟩ := ih (Nat.le_of_succ_le hk) i l hl
        exact ⟨o, a, hcalls, hwithin.succ fun h => absurd h hi,
          other i o a k l hcalls hwithin hH hk hl hi⟩

/-- If a thread's local state satisfies `Q`, no call starts in `Q`, and only accesses with
a tag in `E` lead into `Q`, then the thread performed such an access in its present call. -/
theorem cause (Q : ℓ → Prop) (E : Tag → Prop) (hstart : ∀ o, ¬ Q (M.start o))
    (hstep : ∀ i ch s l s' l' t, M.step i ch s l = some (s', l', t) → Q l' → Q l ∨ E t)
    {k : ℕ} (hk : k ≤ n) {i : ι} {l : ℓ} (hl : (r.conf k).thread i = some l) (hQ : Q l) :
  ∃ o a m t, r.Calls i o a ∧ r.Within i a k ∧ a < m ∧ m < k ∧ r.Acts i t m ∧ E t
  := by
  have h := r.busy_induction
    (fun i _ a k l => Q l → ∃ m t, a < m ∧ m < k ∧ r.Acts i t m ∧ E t)
    (fun _ o _ _ hQ => absurd hQ (hstart o))
    (fun i o a k l ch s l' t _ hw hH ht _ hs _ hQ => by
      rcases hstep i ch _ l s l' t hs hQ with hQ | hE
      · obtain ⟨m, t', ham, hmk, ht', hE⟩ := hH hQ
        exact ⟨m, t', ham, Nat.lt_succ_of_lt hmk, ht', hE⟩
      · exact ⟨k, t, hw.1, Nat.lt_succ_self k, ht, hE⟩)
    (fun i o a k l _ _ hH _ _ _ hQ => by
      obtain ⟨m, t', ham, hmk, ht', hE⟩ := hH hQ
      exact ⟨m, t', ham, Nat.lt_succ_of_lt hmk, ht', hE⟩)
  obtain ⟨o, a, hcalls, hwithin, hH⟩ := h k hk i l hl
  obtain ⟨m, t, ham, hmk, ht, hE⟩ := hH hQ
  exact ⟨o, a, m, t, hcalls, hwithin, ham, hmk, ht, hE⟩

/-- A thread that performs an access is in a call. -/
theorem Acts.calls {r : M.Run n} {i : ι} {t : Tag} {k : ℕ} (h : r.Acts i t k) :
  ∃ o a, r.Calls i o a ∧ r.Within i a k
  := by
  obtain ⟨l, _, _, _, hl, -, -⟩ := h.step
  obtain ⟨o, a, hcalls, hwithin, -⟩ := r.busy_induction (fun _ _ _ _ _ => True)
    (fun _ _ _ _ => trivial) (fun _ _ _ _ _ _ _ _ _ _ _ _ _ _ _ _ => trivial)
    (fun _ _ _ _ _ _ _ _ _ _ _ => trivial) k (le_of_lt h.1) i l hl
  exact ⟨o, a, hcalls, hwithin⟩

end Run

end Machine
