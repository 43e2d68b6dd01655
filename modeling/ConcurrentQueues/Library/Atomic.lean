import ConcurrentQueues.Library.Fifo
import ConcurrentQueues.Library.History
import Mathlib.Data.List.Nodup

/-!
# The atomic queue

A queue whose operations take effect in one step each, on a list. A queue implements it when its
histories are histories of the atomic queue. To see this of a run it is enough to say, for each
moment, which of the calls in progress take effect then, one after the other, so that each call
takes effect at most once, and with the value that it returns.
-/

namespace AtomicQueue

/-- A thread in a call before and after the call has taken effect. -/
inductive Local (V : Type) where
  | pending (o : QueueOp V)
  | done (v : QueueRes V)

/-- The atomic queue. What a dequeue from the empty queue leaves in the output variable is up to
the environment. -/
def machine (ι V : Type) : Machine ι (List V) (Local V) (QueueOp V) (QueueRes V) Unit V where
  init := []
  legal _ := True
  valid _ := True
  start := .pending
  result
    | .pending _ => none
    | .done v => some v
  step _ x q
    | .pending (.enqueue y) => some (q ++ [y], .done .enqueued, ())
    | .pending (.dequeue _) =>
        match q with
        | [] => some ([], .done (.dequeued false x), ())
        | y :: q => some (q, .done (.dequeued true y), ())
    | .done _ => none

end AtomicQueue

variable {ι σ ℓ V Tag Ch : Type} [DecidableEq ι]

namespace Machine

variable {M : Machine ι σ ℓ (QueueOp V) (QueueRes V) Tag Ch} {n : ℕ}

/-- The calls named by the steps at which they are made take effect one after the other, and with
the given results. -/
inductive Run.Takes (r : M.Run n) : List V → List (ℕ × QueueRes V) → List V → Prop where
  | nil (q : List V) : Takes r q [] q
  | enqueue {q q' : List V} {l : List (ℕ × QueueRes V)} {i : ι} {x : V} {a : ℕ}
      (call : r.Calls i (.enqueue x) a) (rest : Takes r (q ++ [x]) l q') :
      Takes r q ((a, .enqueued) :: l) q'
  | dequeue {q q' : List V} {l : List (ℕ × QueueRes V)} {i : ι} {x out : V} {a : ℕ}
      (call : r.Calls i (.dequeue out) a) (rest : Takes r q l q') :
      Takes r (x :: q) ((a, .dequeued true x) :: l) q'
  | empty {q' : List V} {l : List (ℕ × QueueRes V)} {i : ι} {x out : V} {a : ℕ}
      (call : r.Calls i (.dequeue out) a) (rest : Takes r [] l q') :
      Takes r [] ((a, .dequeued false x) :: l) q'

/-- The calls of the run `r` take effect as `l` says, where `q k` is the list before step `k` and
`l k` are the calls that take effect then. -/
structure Run.Linear (r : M.Run n) (q : ℕ → List V) (l : ℕ → List (ℕ × QueueRes V)) : Prop where
  empty : q 0 = []
  takes : ∀ k < n, r.Takes (q k) (l k) (q (k + 1))
  within : ∀ k < n, ∀ a v i o, (a, v) ∈ l k → r.Calls i o a → r.Within i a k
  nodup : ∀ k < n, ((l k).map Prod.fst).Nodup
  once : ∀ k < n, ∀ m < n, ∀ a v w, (a, v) ∈ l k → (a, w) ∈ l m → k = m
  returns : ∀ i o a v b, r.Returns i o a v b → ∃ k ≤ b, (a, v) ∈ l k

/-! ### The atomic queue beside a run -/

/-- The atomic queue is at `c` and its list is `q`, when the calls for which `S` holds have taken
effect before step `k` of `r`. -/
structure Run.Beside (r : M.Run n) (k : ℕ) (S : ℕ → QueueRes V → Prop) (q : List V)
    (c : Config ι (List V) (AtomicQueue.Local V)) : Prop where
  shared : c.shared = q
  idle : ∀ i, (r.conf k).thread i = none → c.thread i = none
  pending : ∀ i o a, r.Calls i o a → r.Within i a k → (∀ v, ¬ S a v) →
    c.thread i = some (.pending o)
  done : ∀ i o a v, r.Calls i o a → r.Within i a k → S a v → c.thread i = some (.done v)

variable {r : M.Run n} {k : ℕ} {S S' : ℕ → QueueRes V → Prop} {q q' : List V}
  {c : Config ι (List V) (AtomicQueue.Local V)} {h : List (ι × Report (QueueOp V) (QueueRes V))}

theorem Run.Beside.congr (hc : r.Beside k S q c) (hS : ∀ a v, S a v ↔ S' a v) :
  r.Beside k S' q c
  := by
  obtain rfl : S = S' := by
    funext a v
    exact propext (hS a v)
  exact hc

/-- One call takes effect. -/
theorem Run.Beside.act (hc : r.Beside k S q c) (htraces : (AtomicQueue.machine ι V).Traces h c)
    {i : ι} {o : QueueOp V} {a : ℕ} {v : QueueRes V} {x : V} (hcalls : r.Calls i o a)
    (hwithin : r.Within i a k) (hnew : ∀ v, ¬ S a v)
    (hstep : (AtomicQueue.machine ι V).step i x q (.pending o) = some (q', .done v, ())) :
  ∃ c', (AtomicQueue.machine ι V).Traces h c' ∧
    r.Beside k (fun b w => S b w ∨ (b, w) = (a, v)) q' c'
  := by
  have hbusy := hc.pending i o a hcalls hwithin hnew
  have hact : (AtomicQueue.machine ι V).Step c i (.act ()) (c.put i q' (some (.done v))) := by
    apply Step.act hbusy
    rw [hc.shared]
    exact hstep
  refine ⟨_, htraces.act hact, ?_⟩
  constructor
  case shared => rfl
  case idle =>
    intro j hj
    have hne : j ≠ i := by
      rintro rfl
      cases (hc.idle j hj).symm.trans hbusy
    rw [Config.put_thread_of_ne hne]
    exact hc.idle j hj
  case pending =>
    intro j o' b hcalls' hwithin' hnew'
    have hne : j ≠ i := by
      rintro rfl
      obtain ⟨rfl, -⟩ := hcalls.unique hcalls' hwithin hwithin'
      exact hnew' v (Or.inr rfl)
    rw [Config.put_thread_of_ne hne]
    exact hc.pending j o' b hcalls' hwithin' fun w hw => hnew' w (Or.inl hw)
  case done =>
    intro j o' b w hcalls' hwithin' hw
    by_cases hj : j = i
    · subst hj
      obtain ⟨rfl, -⟩ := hcalls.unique hcalls' hwithin hwithin'
      rcases hw with hw | hw
      · exact absurd hw (hnew w)
      · cases hw
        apply Config.put_thread_self
    · rw [Config.put_thread_of_ne hj]
      rcases hw with hw | hw
      · exact hc.done j o' b w hcalls' hwithin' hw
      · cases hw
        exact absurd (hcalls'.2.1.symm.trans hcalls.2.1) hj

/-- The calls of a list take effect one after the other. -/
theorem Run.Beside.takes {l : List (ℕ × QueueRes V)} (htakes : r.Takes q l q')
    (hc : r.Beside k S q c) (htraces : (AtomicQueue.machine ι V).Traces h c)
    (hwithin : ∀ a v i o, (a, v) ∈ l → r.Calls i o a → r.Within i a k)
    (hnodup : (l.map Prod.fst).Nodup) (hnew : ∀ a v, (a, v) ∈ l → ∀ w, ¬ S a w) :
  ∃ c', (AtomicQueue.machine ι V).Traces h c' ∧
    r.Beside k (fun a v => S a v ∨ (a, v) ∈ l) q' c'
  := by
  induction htakes generalizing S c with
  | nil q => exact ⟨c, htraces, hc.congr fun a v => by simp⟩
  | @enqueue q q' l i x a hcalls _ ih | @dequeue q q' l i x out a hcalls _ ih
  | @empty q' l i x out a hcalls _ ih =>
      obtain ⟨c₁, htraces₁, hc₁⟩ := hc.act (x := x) htraces hcalls
        (hwithin _ _ _ _ List.mem_cons_self hcalls) (hnew _ _ List.mem_cons_self) rfl
      rw [List.map_cons, List.nodup_cons] at hnodup
      obtain ⟨c', htraces', hc'⟩ := ih hc₁ htraces₁
        (fun b w j o hb => hwithin b w j o (List.mem_cons_of_mem _ hb)) hnodup.2 (by
          rintro b w hb w' (hw' | hw')
          · exact hnew b w (List.mem_cons_of_mem _ hb) w' hw'
          · cases hw'
            exact hnodup.1 (List.mem_map.mpr ⟨_, hb, rfl⟩))
      refine ⟨c', htraces', hc'.congr fun b w => ?_⟩
      rw [List.mem_cons, or_assoc]

/-- Who is in a call has made it. -/
theorem Run.calls_of_busy (r : M.Run n) (hk : k ≤ n) {i : ι} {l : ℓ}
    (hl : (r.conf k).thread i = some l) :
  ∃ o a, r.Calls i o a ∧ r.Within i a k
  := by
  obtain ⟨o, a, hcalls, hwithin, -⟩ := r.busy_induction (fun _ _ _ _ _ => True)
    (fun _ _ _ _ => trivial) (fun _ _ _ _ _ _ _ _ _ _ _ _ _ _ _ _ => trivial)
    (fun _ _ _ _ _ _ _ _ _ _ _ => trivial) k hk i l hl
  exact ⟨o, a, hcalls, hwithin⟩

/-- A call in progress after a step was in progress before it, unless it was made then. -/
theorem Run.Within.prev {i : ι} {o : QueueOp V} {a : ℕ} (hcalls : r.Calls i o a)
    (hwithin : r.Within i a (k + 1)) :
  a = k ∧ r.who k = i ∧ r.event k = .call o ∨ r.Within i a k
  := by
  rcases Nat.lt_succ_iff_lt_or_eq.mp hwithin.1 with hak | rfl
  · exact Or.inr (hwithin.mono hak (Nat.le_succ k))
  · exact Or.inl ⟨rfl, hcalls.2⟩

/-- The atomic queue follows a step of the run. -/
theorem Run.Beside.event (hc : r.Beside k S q c) (hk : k < n)
    (htraces : (AtomicQueue.machine ι V).Traces (r.history k) c) (hpast : ∀ a v, S a v → a < k)
    (hreturns : ∀ i o a v, r.Returns i o a v k → S a v) :
  ∃ c', (AtomicQueue.machine ι V).Traces (r.history (k + 1)) c' ∧ r.Beside (k + 1) S q c'
  := by
  have hstep := r.step k hk
  have hother : ∀ {c' : Config ι (List V) (AtomicQueue.Local V)},
      c'.shared = q → (∀ i, i ≠ r.who k → c'.thread i = c.thread i) →
      ((r.conf (k + 1)).thread (r.who k) = none → c'.thread (r.who k) = none) →
      (∀ o a, r.Calls (r.who k) o a → r.Within (r.who k) a (k + 1) → (∀ v, ¬ S a v) →
        c'.thread (r.who k) = some (.pending o)) →
      (∀ o a v, r.Calls (r.who k) o a → r.Within (r.who k) a (k + 1) → S a v →
        c'.thread (r.who k) = some (.done v)) → r.Beside (k + 1) S q c' := by
    intro c' hshared hsame hidle hpending hdone
    constructor
    case shared => exact hshared
    case idle =>
      intro i hi
      by_cases hik : i = r.who k
      · subst hik
        exact hidle hi
      · rw [hsame i hik]
        apply hc.idle i
        rw [← hi, hstep.other hik]
    case pending =>
      intro i o a hcalls hwithin hnew
      by_cases hik : i = r.who k
      · subst hik
        exact hpending o a hcalls hwithin hnew
      · rw [hsame i hik]
        rcases hwithin.prev hcalls with ⟨-, hi, -⟩ | hwithin
        · exact absurd hi.symm hik
        · exact hc.pending i o a hcalls hwithin hnew
    case done =>
      intro i o a v hcalls hwithin hv
      by_cases hik : i = r.who k
      · subst hik
        exact hdone o a v hcalls hwithin hv
      · rw [hsame i hik]
        rcases hwithin.prev hcalls with ⟨-, hi, -⟩ | hwithin
        · exact absurd hi.symm hik
        · exact hc.done i o a v hcalls hwithin hv
  rw [history]
  cases he : r.event k with
  | call o =>
      rw [he] at hstep
      obtain ⟨hfree, -, hconf⟩ := hstep.call_inv
      refine ⟨_, htraces.call (.call (hc.idle _ hfree) trivial), ?_⟩
      have hnew : ∀ {o' a}, r.Calls (r.who k) o' a → r.Within (r.who k) a (k + 1) →
          a = k ∧ o' = o := by
        intro o' a hcalls hwithin
        rcases hwithin.prev hcalls with ⟨rfl, -, he'⟩ | hwithin
        · cases he.symm.trans he'
          exact ⟨rfl, rfl⟩
        · obtain ⟨l, hl⟩ := hwithin.busy hcalls (le_of_lt hk)
          cases hfree.symm.trans hl
      apply hother
      · exact hc.shared
      · exact fun i hi => Config.put_thread_of_ne hi ..
      · intro hnone
        rw [hconf, Config.put_thread_self] at hnone
        cases hnone
      · intro o' a hcalls hwithin _
        obtain ⟨-, rfl⟩ := hnew hcalls hwithin
        apply Config.put_thread_self
      · intro o' a v hcalls hwithin hv
        obtain ⟨rfl, -⟩ := hnew hcalls hwithin
        exact absurd (hpast _ v hv) (lt_irrefl _)
  | ret v =>
      rw [he] at hstep
      obtain ⟨l, hl, -, hconf⟩ := hstep.ret_inv
      obtain ⟨o, a, hcalls, hwithin⟩ := r.calls_of_busy (le_of_lt hk) hl
      have hdone := hc.done _ o a v hcalls hwithin
        (hreturns _ o a v ⟨hcalls, hwithin, hk, rfl, he⟩)
      refine ⟨_, htraces.ret (.ret hdone rfl), ?_⟩
      have hover : ∀ {o' a}, r.Calls (r.who k) o' a → ¬ r.Within (r.who k) a (k + 1) := by
        intro o' a' hcalls' hwithin'
        rcases hwithin'.prev hcalls' with ⟨-, -, he'⟩ | hwithin''
        · cases he.symm.trans he'
        · obtain ⟨t, ht⟩ := hwithin'.2 k hwithin''.1 (Nat.lt_succ_self k) rfl
          cases he.symm.trans ht
      apply hother
      · exact hc.shared
      · exact fun i hi => Config.put_thread_of_ne hi ..
      · exact fun _ => Config.put_thread_self ..
      · exact fun o' a' hcalls' hwithin' => absurd hwithin' (hover hcalls')
      · exact fun o' a' v' hcalls' hwithin' => absurd hwithin' (hover hcalls')
  | act t =>
      rw [he] at hstep
      obtain ⟨_, _, _, l', -, -, hconf⟩ := hstep.act_inv
      rw [Event.report, Option.map_none, Option.toList_none, List.append_nil]
      have hold : ∀ {o' a}, r.Calls (r.who k) o' a → r.Within (r.who k) a (k + 1) →
          r.Within (r.who k) a k := by
        intro o' a hcalls hwithin
        rcases hwithin.prev hcalls with ⟨-, -, he'⟩ | hwithin
        · cases he.symm.trans he'
        · exact hwithin
      refine ⟨c, htraces, hother hc.shared (fun _ _ => rfl) ?_ ?_ ?_⟩
      · intro hnone
        rw [hconf, Config.put_thread_self] at hnone
        cases hnone
      · exact fun o' a hcalls hwithin => hc.pending _ o' a hcalls (hold hcalls hwithin)
      · exact fun o' a v hcalls hwithin => hc.done _ o' a v hcalls (hold hcalls hwithin)

/-- When the calls of a run take effect as in the atomic queue, the history of the run is one of
the atomic queue. -/
theorem Run.Linear.admits {q : ℕ → List V} {l : ℕ → List (ℕ × QueueRes V)} (hl : r.Linear q l) :
  (AtomicQueue.machine ι V).Admits (r.history n)
  := by
  have hcalls : ∀ {q q' : List V} {l : List (ℕ × QueueRes V)}, r.Takes q l q' →
      ∀ a v, (a, v) ∈ l → ∃ i o, r.Calls i o a := by
    intro q q' l htakes
    induction htakes with
    | nil => rintro a v ⟨⟩
    | enqueue call _ ih | dequeue call _ ih | empty call _ ih =>
        intro a v hmem
        rcases List.mem_cons.mp hmem with heq | hmem
        · cases heq
          exact ⟨_, _, call⟩
        · exact ih a v hmem
  have hall : ∀ k ≤ n, ∃ c, (AtomicQueue.machine ι V).Traces (r.history k) c ∧
      r.Beside k (fun a v => ∃ m < k, (a, v) ∈ l m) (q k) c := by
    intro k
    induction k with
    | zero =>
        intro _
        refine ⟨_, .start, hl.empty.symm, fun _ _ => rfl, ?_, ?_⟩
        · intro i o a _ hwithin
          exact absurd hwithin.1 (Nat.not_lt_zero a)
        · intro i o a v _ hwithin
          exact absurd hwithin.1 (Nat.not_lt_zero a)
    | succ k ih =>
        intro hk
        obtain ⟨c, htraces, hc⟩ := ih (Nat.le_of_succ_le hk)
        obtain ⟨c₁, htraces₁, hc₁⟩ := hc.takes (hl.takes k hk) htraces (hl.within k hk)
          (hl.nodup k hk) (by
            rintro a v hmem w ⟨m, hmk, hmem'⟩
            exact absurd (hl.once k hk m (hmk.trans hk) a v w hmem hmem') (ne_of_gt hmk))
        have hserved : ∀ a v, ((∃ m < k, (a, v) ∈ l m) ∨ (a, v) ∈ l k) ↔
            ∃ m < k + 1, (a, v) ∈ l m := by
          intro a v
          constructor
          · rintro (⟨m, hmk, hmem⟩ | hmem)
            · exact ⟨m, Nat.lt_succ_of_lt hmk, hmem⟩
            · exact ⟨k, Nat.lt_succ_self k, hmem⟩
          · rintro ⟨m, hm, hmem⟩
            rcases Nat.lt_succ_iff_lt_or_eq.mp hm with hmk | rfl
            · exact Or.inl ⟨m, hmk, hmem⟩
            · exact Or.inr hmem
        apply (hc₁.congr hserved).event hk htraces₁
        · rintro a v ⟨m, hm, hmem⟩
          have hmn : m < n := lt_of_lt_of_le hm hk
          obtain ⟨i, o, hcall⟩ := hcalls (hl.takes m hmn) a v hmem
          exact lt_of_lt_of_le (hl.within m hmn a v i o hmem hcall).1 (Nat.le_of_lt_succ hm)
        · intro i o a v hret
          obtain ⟨m, hm, hmem⟩ := hl.returns i o a v k hret
          exact ⟨m, Nat.lt_succ_of_le hm, hmem⟩
  obtain ⟨c, htraces, -⟩ := hall n le_rfl
  exact ⟨c, htraces⟩

/-! ### Dequeues that find the list empty -/

/-- The calls of the run `r` other than dequeues that return `false` take effect as `e` says, and
the list is empty at some moment of each of these. -/
structure Run.Schedule (r : M.Run n) (q : ℕ → List V) (e : ℕ → List (ℕ × QueueRes V)) : Prop where
  empty : q 0 = []
  takes : ∀ k < n, r.Takes (q k) (e k) (q (k + 1))
  within : ∀ k < n, ∀ a v i o, (a, v) ∈ e k → r.Calls i o a → r.Within i a k
  nodup : ∀ k < n, ((e k).map Prod.fst).Nodup
  once : ∀ k < n, ∀ m < n, ∀ a v w, (a, v) ∈ e k → (a, w) ∈ e m → k = m
  returns : ∀ i o a v b, r.Returns i o a v b → (∃ k ≤ b, (a, v) ∈ e k) ∨
    ∃ out x k, o = .dequeue out ∧ v = .dequeued false x ∧ a < k ∧ k ≤ b ∧ q k = [] ∧
      ∀ m < n, ∀ w, (a, w) ∉ e m

/-- A call returns once. -/
theorem Run.Returns.unique {i i' : ι} {o o' : QueueOp V} {a b b' : ℕ} {v v' : QueueRes V}
    (hret : r.Returns i o a v b) (hret' : r.Returns i' o' a v' b') :
  i = i' ∧ o = o' ∧ v = v' ∧ b = b'
  := by
  obtain ⟨hcalls, hwithin, hb, hbi, hbe⟩ := hret
  obtain ⟨hcalls', hwithin', hb', hbi', hbe'⟩ := hret'
  obtain rfl : i = i' := hcalls.2.1.symm.trans hcalls'.2.1
  cases hcalls.2.2.symm.trans hcalls'.2.2
  have hlast : ∀ {b b' : ℕ} {v : QueueRes V}, r.Within i a b → r.Within i a b' → r.who b = i →
      r.event b = .ret v → ¬ b < b' := by
    intro b b' v hwithin hwithin' hi he hlt
    obtain ⟨t, ht⟩ := hwithin'.2 b hwithin.1 hlt hi
    cases he.symm.trans ht
  have hbb : b = b' := Nat.le_antisymm (not_lt.mp (hlast hwithin' hwithin hbi' hbe'))
    (not_lt.mp (hlast hwithin hwithin' hbi hbe))
  subst hbb
  cases hbe.symm.trans hbe'
  exact ⟨rfl, rfl, rfl, rfl⟩

/-- Dequeues that find the list empty take effect in any order. -/
theorem Run.Takes.refusals {l l' : List (ℕ × QueueRes V)} (hrest : r.Takes q l' q')
    (hempty : l ≠ [] → q = [])
    (hl : ∀ p ∈ l, ∃ i out x, r.Calls i (.dequeue out) p.1 ∧ p.2 = .dequeued false x) :
  r.Takes q (l ++ l') q'
  := by
  induction l with
  | nil => exact hrest
  | cons p l ih =>
      obtain rfl := hempty (List.cons_ne_nil p l)
      obtain ⟨a, v⟩ := p
      obtain ⟨i, out, x, hcalls, hv⟩ := hl _ List.mem_cons_self
      obtain rfl : v = .dequeued false x := hv
      apply Takes.empty hcalls
      apply ih (fun _ => rfl) fun p hp => hl p (List.mem_cons_of_mem _ hp)

/-- The call made at step `a` is a dequeue that returns `v` and has not taken effect otherwise, and
the list is empty at moment `k` of the call. -/
def Run.RefusedAt (r : M.Run n) (q : ℕ → List V) (e : ℕ → List (ℕ × QueueRes V)) (a k : ℕ)
    (v : QueueRes V) : Prop :=
  q k = [] ∧ (∀ m < n, ∀ w, (a, w) ∉ e m) ∧ ∃ i out x b, r.Returns i (.dequeue out) a v b ∧
    v = .dequeued false x ∧ a < k ∧ k ≤ b

/-- A dequeue that finds the list empty takes effect at a moment at which it is. -/
theorem Run.Schedule.linear {q : ℕ → List V} {e : ℕ → List (ℕ × QueueRes V)}
    (hs : r.Schedule q e) :
  ∃ l, r.Linear q l
  := by
  classical
  -- one moment is chosen for each of these dequeues
  have hchoice : ∀ a, ∃ m, ∃ v, (∃ k v', r.RefusedAt q e a k v') → r.RefusedAt q e a m v := by
    intro a
    by_cases hrefused : ∃ k v', r.RefusedAt q e a k v'
    · obtain ⟨k, v', h⟩ := hrefused
      exact ⟨k, v', fun _ => h⟩
    · exact ⟨0, .enqueued, fun h => absurd h hrefused⟩
  choose moment value hvalue using hchoice
  let refusals (k : ℕ) : List (ℕ × QueueRes V) :=
    ((List.range n).filter fun a => moment a = k ∧ r.RefusedAt q e a k (value a)).map
      fun a => (a, value a)
  have hrefusals : ∀ {k a v}, (a, v) ∈ refusals k → moment a = k ∧ r.RefusedAt q e a k v := by
    intro k a v hmem
    obtain ⟨a', hmem', heq⟩ := List.mem_map.mp hmem
    cases heq
    exact of_decide_eq_true (List.mem_filter.mp hmem').2
  refine ⟨fun k => refusals k ++ e k, hs.empty, ?_, ?_, ?_, ?_, ?_⟩
  · intro k hk
    apply (hs.takes k hk).refusals
    · intro hne
      obtain ⟨⟨a, v⟩, hmem⟩ := List.exists_mem_of_ne_nil _ hne
      exact (hrefusals hmem).2.1
    · rintro ⟨a, v⟩ hmem
      obtain ⟨-, -, -, i, out, x, b, hret, hv, -⟩ := hrefusals hmem
      exact ⟨i, out, x, hret.calls, hv⟩
  · intro k hk a v i o hmem hcalls
    rcases List.mem_append.mp hmem with hmem | hmem
    · obtain ⟨-, -, -, j, out, x, b, hret, -, hak, hkb⟩ := hrefusals hmem
      obtain rfl : i = j := hcalls.2.1.symm.trans hret.calls.2.1
      exact hret.within.mono hak hkb
    · exact hs.within k hk a v i o hmem hcalls
  · intro k hk
    rw [List.map_append, List.nodup_append]
    refine ⟨?_, hs.nodup k hk, ?_⟩
    · rw [List.map_map, show Prod.fst ∘ (fun a => (a, value a)) = id from rfl, List.map_id]
      exact List.nodup_range.filter _
    · intro a hmem a' hmem' heq
      obtain ⟨⟨b, v⟩, hb, rfl⟩ := List.mem_map.mp hmem
      obtain ⟨⟨b', w⟩, hb', rfl⟩ := List.mem_map.mp hmem'
      obtain rfl : b = b' := heq
      exact (hrefusals hb).2.2.1 k hk w hb'
  · intro k hk m hm a v w hmem hmem'
    rcases List.mem_append.mp hmem with hmem | hmem
    · rcases List.mem_append.mp hmem' with hmem' | hmem'
      · exact (hrefusals hmem).1.symm.trans (hrefusals hmem').1
      · exact absurd hmem' ((hrefusals hmem).2.2.1 m hm w)
    · rcases List.mem_append.mp hmem' with hmem' | hmem'
      · exact absurd hmem ((hrefusals hmem').2.2.1 k hk v)
      · exact hs.once k hk m hm a v w hmem hmem'
  · intro i o a v b hret
    rcases hs.returns i o a v b hret with ⟨k, hkb, hmem⟩ | ⟨out, x, k, rfl, hv, hak, hkb, hq, hnot⟩
    · exact ⟨k, hkb, List.mem_append_right _ hmem⟩
    · have h := hvalue a ⟨k, v, hq, hnot, i, out, x, b, hret, hv, hak, hkb⟩
      obtain ⟨hq', -, j, out', x', b', hret', hv', ham, hmb⟩ := h
      obtain ⟨rfl, -, hvalue', rfl⟩ := hret.unique hret'
      refine ⟨moment a, hmb, List.mem_append_left _ ?_⟩
      apply List.mem_map.mpr
      refine ⟨a, List.mem_filter.mpr ⟨List.mem_range.mpr hret.calls.1, ?_⟩, by rw [hvalue']⟩
      exact decide_eq_true ⟨rfl, hq', hnot, i, out', x', b, hret', hv', ham, hmb⟩

/-! ### From linearizations -/

/-- A thread acts in a call before the call returns. -/
theorem Run.Returns.lt_of_acts {i : ι} {o : QueueOp V} {a b m : ℕ} {v : QueueRes V} {t : Tag}
    (hret : r.Returns i o a v b) (hwithin : r.Within i a m) (hacts : r.Acts i t m) :
  m < b
  := by
  obtain ⟨-, hwithin', -, hbi, hbe⟩ := hret
  rcases lt_trichotomy m b with hlt | rfl | hlt
  · exact hlt
  · cases hbe.symm.trans hacts.2.2
  · obtain ⟨t', ht'⟩ := hwithin.2 b hwithin'.1 hlt hbi
    cases hbe.symm.trans ht'

/-- What takes effect at step `k`, other than dequeues that find the list empty. -/
structure Run.EffectAt (r : M.Run n) (eff : Tag → Effect) (q : ℕ → List V) (k : ℕ)
    (e : List (ℕ × QueueRes V)) : Prop where
  takes : r.Takes (q k) e (q (k + 1))
  nodup : (e.map Prod.fst).Nodup
  acts : ∀ a v, (a, v) ∈ e → ∃ i o t, r.Calls i o a ∧ r.Within i a k ∧ r.Acts i t k ∧ eff t ≠ .none
  complete : ∀ i t o a, r.Acts i t k → eff t ≠ .none → r.Calls i o a → r.Within i a k →
    ∃ v, (a, v) ∈ e ∧ (eff t = .append → v = .enqueued) ∧
      (eff t = .remove → ∃ x, q k = x :: q (k + 1) ∧ v = .dequeued true x)

/-- At each step at most one call takes effect in this way. -/
theorem Run.Fifo.effectAt {eff : Tag → Effect} {q : ℕ → List V} (h : r.Fifo eff q) (hk : k < n) :
  ∃ e, r.EffectAt eff q k e
  := by
  by_cases hquiet : ∀ i t, r.Acts i t k → eff t = .none
  · refine ⟨[], ?_, List.nodup_nil, by rintro a v ⟨⟩, fun i t o a ht hne => ?_⟩
    · rw [h.quiet k hk hquiet]
      apply Takes.nil
    · exact absurd (hquiet i t ht) hne
  · push Not at hquiet
    obtain ⟨i, t, ht, hne⟩ := hquiet
    have hsame : ∀ {j t' o o' a a'}, r.Acts j t' k → r.Calls i o a → r.Within i a k →
        r.Calls j o' a' → r.Within j a' k → t' = t ∧ a' = a := by
      intro j t' o o' a a' ht' hcalls hwithin hcalls' hwithin'
      obtain rfl : j = i := ht'.2.1.symm.trans ht.2.1
      cases ht'.2.2.symm.trans ht.2.2
      obtain ⟨rfl, -⟩ := hcalls'.unique hcalls hwithin' hwithin
      exact ⟨rfl, rfl⟩
    have hacts : ∀ {o a} {v : QueueRes V}, r.Calls i o a → r.Within i a k → ∀ b w,
        (b, w) ∈ [(a, v)] → ∃ i o t, r.Calls i o b ∧ r.Within i b k ∧ r.Acts i t k ∧ eff t ≠ .none := by
      intro o a v hcalls hwithin b w hmem
      cases List.mem_singleton.mp hmem
      exact ⟨i, o, t, hcalls, hwithin, ht, hne⟩
    cases he : eff t with
    | none => exact absurd he hne
    | append =>
        obtain ⟨x, a, hcalls, hwithin, hq⟩ := h.append i t k ht he
        refine ⟨[(a, .enqueued)], ?_, List.nodup_singleton a, hacts hcalls hwithin, ?_⟩
        · rw [hq]
          exact .enqueue hcalls (.nil _)
        · intro j t' o' a' ht' _ hcalls' hwithin'
          obtain ⟨rfl, rfl⟩ := hsame ht' hcalls hwithin hcalls' hwithin'
          refine ⟨_, List.mem_singleton_self _, fun _ => rfl, fun hremove => ?_⟩
          cases he.symm.trans hremove
    | remove =>
        obtain ⟨out, a, x, hcalls, hwithin, hq⟩ := h.remove i t k ht he
        refine ⟨[(a, .dequeued true x)], ?_, List.nodup_singleton a, hacts hcalls hwithin, ?_⟩
        · rw [hq]
          exact .dequeue hcalls (.nil _)
        · intro j t' o' a' ht' _ hcalls' hwithin'
          obtain ⟨rfl, rfl⟩ := hsame ht' hcalls hwithin hcalls' hwithin'
          refine ⟨_, List.mem_singleton_self _, fun happend => ?_, fun _ => ⟨x, hq, rfl⟩⟩
          cases he.symm.trans happend

/-- The calls of a linearized run take effect at their accesses with an effect. -/
theorem Run.Fifo.schedule {eff : Tag → Effect} {q : ℕ → List V} (h : r.Fifo eff q) :
  ∃ e, r.Schedule q e
  := by
  have heffect : ∀ k, ∃ e, k < n → r.EffectAt eff q k e := by
    intro k
    by_cases hk : k < n
    · obtain ⟨e, he⟩ := h.effectAt hk
      exact ⟨e, fun _ => he⟩
    · exact ⟨[], fun hk' => absurd hk' hk⟩
  choose e he using heffect
  refine ⟨e, h.empty, fun k hk => (he k hk).takes, ?_, fun k hk => (he k hk).nodup, ?_, ?_⟩
  · intro k hk a v i o hmem hcalls
    obtain ⟨j, o', t, hcalls', hwithin, -⟩ := (he k hk).acts a v hmem
    obtain rfl : i = j := hcalls.2.1.symm.trans hcalls'.2.1
    exact hwithin
  · intro k hk m hm a v w hmem hmem'
    obtain ⟨i, o, t, hcalls, hwithin, hacts, hne⟩ := (he k hk).acts a v hmem
    obtain ⟨j, o', t', hcalls', hwithin', hacts', hne'⟩ := (he m hm).acts a w hmem'
    obtain rfl : i = j := hcalls.2.1.symm.trans hcalls'.2.1
    rcases le_total k m with hkm | hmk
    · exact h.once i o a (m + 1) hcalls (hwithin'.succ fun _ => ⟨t', hacts'.2.2⟩) hm
        ⟨hwithin.1, Nat.lt_succ_of_le hkm, t, hacts, hne⟩
        ⟨hwithin'.1, Nat.lt_succ_self m, t', hacts', hne'⟩
    · exact h.once i o a (k + 1) hcalls (hwithin.succ fun _ => ⟨t, hacts.2.2⟩) hk
        ⟨hwithin.1, Nat.lt_succ_self k, t, hacts, hne⟩
        ⟨hwithin'.1, Nat.lt_succ_of_le hmk, t', hacts', hne'⟩
  · intro i o a v b hret
    -- a call that returns otherwise has an access with the right effect
    have hcause : ∀ {m t}, r.effects eff i a b = {m} → r.Acts i t m → eff t ≠ .none →
        ∃ w, (a, w) ∈ e m ∧ m ≤ b ∧ (eff t = .append → w = .enqueued) ∧
          (eff t = .remove → ∃ x, q m = x :: q (m + 1) ∧ w = .dequeued true x) := by
      intro m t hm hacts hne
      have hmem : m ∈ r.effects eff i a b := by rw [hm]; rfl
      obtain ⟨ham, hmb, -⟩ := hmem
      obtain ⟨w, hw, heff⟩ := (he m hacts.1).complete i t o a hacts hne hret.calls
        (hret.within.mono ham (le_of_lt hmb))
      exact ⟨w, hw, le_of_lt hmb, heff⟩
    cases o with
    | enqueue x =>
        obtain ⟨rfl, m, t, hm, hacts, ht, -⟩ := h.enqueue i x a v b hret
        obtain ⟨w, hw, hmb, hw', -⟩ := hcause hm hacts (by rw [ht]; rintro ⟨⟩)
        rw [hw' ht] at hw
        exact Or.inl ⟨m, hmb, hw⟩
    | dequeue out =>
        rcases h.dequeue i out a v b hret with ⟨x, m, t, rfl, hm, hacts, ht, hq⟩ |
          ⟨x, m, rfl, hnone, ham, hmb, hq⟩
        · obtain ⟨w, hw, hmb, -, hw'⟩ := hcause hm hacts (by rw [ht]; rintro ⟨⟩)
          obtain ⟨y, hy, rfl⟩ := hw' ht
          rw [hq] at hy
          obtain rfl : x = y := (List.cons.inj hy).1
          exact Or.inl ⟨m, hmb, hw⟩
        · refine Or.inr ⟨out, x, m, rfl, rfl, ham, hmb, hq, fun m' hm' w hmem => ?_⟩
          obtain ⟨j, o', t, hcalls, hwithin, hacts, hne⟩ := (he m' hm').acts a w hmem
          obtain rfl : i = j := hret.calls.2.1.symm.trans hcalls.2.1
          have hin : m' ∈ r.effects eff i a b :=
            ⟨hwithin.1, hret.lt_of_acts hwithin hacts, t, hacts, hne⟩
          rw [hnone] at hin
          exact hin

/-- When a run is linearized its history is one of the atomic queue. -/
theorem Run.Fifo.admits {eff : Tag → Effect} {q : ℕ → List V} (h : r.Fifo eff q) :
  (AtomicQueue.machine ι V).Admits (r.history n)
  := by
  obtain ⟨e, he⟩ := h.schedule
  obtain ⟨l, hl⟩ := he.linear
  apply hl.admits

variable (M) in
/-- In the runs with `P` the object has only histories that the atomic queue has. -/
def ImplementsQueue (P : ∀ n, M.Run n → Prop) : Prop :=
  ∀ n (r : M.Run n), P n r → (AtomicQueue.machine ι V).Admits (r.history n)

end Machine
