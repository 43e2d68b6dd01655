import ConcurrentQueues.Correctness.Passes
import Mathlib.Algebra.BigOperators.Fin
import Mathlib.Algebra.Order.BigOperators.Group.Finset

/-!
# The consumers of the test come to an end

When the main thread has enqueued the last end pointer, there is one left in the queue for each
consumer that has not received one. From then on no dequeue that is called returns `false`, so that
no consumer goes round its loop without receiving a pointer.
-/

namespace Correctness

open Machine

section account

variable {V : Type} {T : Test V} {s : State V T.nProducers T.nConsumers}
  {c : Config (Thread T.nProducers T.nConsumers) (List V) (AtomicQueue.Local V)}
  {a : Account T.nProducers T.nConsumers}

/-- A consumer receives at most one end pointer, and none while it is about to dequeue. -/
theorem Consumer.At.count_none {k : Consumer V} {t : Option (AtomicQueue.Local V)}
    {got : List (Option ℕ)} (h : k.At T t got) :
  got.count none ≤ 1 ∧ ((∃ o, t = some (.pending o)) → got.count none = 0)
  := by
  have hkept : ∀ {g}, k.Kept g → g.count none = if k.stopped then 1 else 0 := by
    rintro g ⟨g', -, rfl⟩
    have hzero : (g'.map some).count none = 0 := List.count_eq_zero.mpr (by simp)
    rw [List.count_append, hzero]
    split
    · rfl
    · rfl
  cases h with
  | idle _ kept =>
      rw [hkept kept]
      refine ⟨?_, by rintro ⟨o, ⟨⟩⟩⟩
      split
      · exact le_rfl
      · exact Nat.zero_le _
  | pending _ hopen kept | refused _ hopen kept =>
      rw [hkept kept, hopen]
      exact ⟨Nat.zero_le _, fun _ => rfl⟩
  | @given got o _ hopen kept =>
      rw [List.count_append, hkept kept, hopen, if_neg Bool.false_ne_true, Nat.zero_add]
      exact ⟨List.count_le_length, by rintro ⟨o, ⟨⟩⟩⟩

/-- When all end pointers have been enqueued, a consumer about to dequeue does not find the queue
empty. -/
theorem Inv.queue_ne_nil (h : Inv T s c a) (hmain : s.main = ⟨T.nConsumers, false⟩)
    {k : Fin T.nConsumers} {o : QueueOp V} (hk : c.thread (.consumer k) = some (.pending o)) :
  c.shared ≠ []
  := by
  intro hempty
  have hrest : a.rest = [] := List.map_eq_nil_iff.mp (h.queue.symm.trans hempty)
  have hends : a.ends = T.nConsumers := by
    have hat := h.main
    rw [hmain] at hat
    exact hat.eq_of_not_calling rfl
  have hlog := h.log
  have hzero : (a.order.map some).count none = 0 := List.count_eq_zero.mpr (by simp)
  -- all end pointers would have been received
  have hall : ∑ k', (a.got k').count none = T.nConsumers := by
    have hperm := (perm_flatMap_filter Prod.fst (List.nodup_finRange T.nConsumers)
      (l := a.taken) fun e _ => List.mem_finRange e.1).map Prod.snd
    have hcount := hperm.count_eq none
    rw [List.map_flatMap, List.count_flatMap] at hcount
    have htaken := congrArg (List.count none) hlog
    rw [hrest, List.append_nil, List.count_append, hzero, List.count_replicate_self, hends,
      Nat.zero_add] at htaken
    calc ∑ k', (a.got k').count none
      _ = (List.map (fun k' => (a.got k').count none) (List.finRange T.nConsumers)).sum :=
          Fin.sum_univ_def _
      _ = (a.taken.map Prod.snd).count none := hcount
      _ = T.nConsumers := htaken
  have hone : ∀ k', (a.got k').count none ≤ 1 := fun k' => (h.consumer k').count_none.1
  have hnone : (a.got k).count none = 0 := (h.consumer k).count_none.2 ⟨o, hk⟩
  have hlt : ∑ k', (a.got k').count none < ∑ _ : Fin T.nConsumers, 1 := by
    apply Finset.sum_lt_sum (fun k' _ => hone k')
    exact ⟨k, Finset.mem_univ k, by rw [hnone]; exact Nat.one_pos⟩
  rw [hall, Finset.sum_const, Finset.card_univ, Fintype.card_fin, nsmul_eq_mul, Nat.cast_id, Nat.mul_one] at hlt
  exact lt_irrefl _ hlt

end account

section late

variable {V : Type} [DecidableEq V] {T : Test V}

/-- The last thing consumer `k` has done is to call `dequeue`, when the main thread had enqueued the
last end pointer. -/
def Late (T : Test V) (junk : Fin T.nConsumers → V)
    (w : List (Thread T.nProducers T.nConsumers × Deed (QueueOp V) (QueueRes V) Empty))
    (k : Fin T.nConsumers) : Prop :=
  ∃ w₁ o w₂ s₁, w = w₁ ++ (.consumer k, .call o) :: w₂ ∧ (∀ e ∈ w₂, e.1 ≠ .consumer k) ∧
    (T.client junk).after w₁ = some s₁ ∧ s₁.main = ⟨T.nConsumers, false⟩

variable {junk : Fin T.nConsumers → V} {s s' : State V T.nProducers T.nConsumers}
  {w : List (Thread T.nProducers T.nConsumers × Deed (QueueOp V) (QueueRes V) Empty)}
  {i : Thread T.nProducers T.nConsumers} {d : Deed (QueueOp V) (QueueRes V) Empty}
  {k : Fin T.nConsumers}

/-- A deed of another thread does not matter, and a return ends the call. -/
theorem Late.append_inv (h : Late T junk (w ++ [(i, d)]) k) :
  (i ≠ .consumer k ∧ Late T junk w k) ∨
    i = .consumer k ∧ (∃ o, d = .call o) ∧
      ∃ s₁, (T.client junk).after w = some s₁ ∧ s₁.main = ⟨T.nConsumers, false⟩
  := by
  obtain ⟨w₁, o, w₂, s₁, hw, hother, hafter, hmain⟩ := h
  rcases List.eq_nil_or_concat w₂ with rfl | ⟨w₂, e, rfl⟩
  · obtain ⟨rfl, heq⟩ := List.append_inj' hw rfl
    cases heq
    exact Or.inr ⟨rfl, ⟨o, rfl⟩, s₁, hafter, hmain⟩
  · rw [List.concat_eq_append] at hw hother
    rw [← List.cons_append, ← List.append_assoc] at hw
    obtain ⟨rfl, heq⟩ := List.append_inj' hw rfl
    cases heq
    refine Or.inl ⟨hother _ (List.mem_append_right _ (List.mem_singleton_self _)), w₁, o, w₂, s₁,
      rfl, fun e he => hother e (List.mem_append_left _ he), hafter, hmain⟩

/-- The main thread does nothing more once it is finished. -/
theorem call_main {o : QueueOp V} (hcall : T.call s i o = some s')
    (hmain : s.main = ⟨T.nConsumers, false⟩) :
  s'.main = ⟨T.nConsumers, false⟩
  := by
  cases i with
  | main =>
      cases o with
      | dequeue out => cases hcall
      | enqueue x =>
          simp only [Test.call] at hcall
          split at hcall
          case isFalse => cases hcall
          case isTrue h =>
            rw [hmain] at h
            exact absurd h.2.2.1 (lt_irrefl _)
  | producer p =>
      cases o with
      | dequeue out => cases hcall
      | enqueue x =>
          simp only [Test.call] at hcall
          split at hcall
          case isFalse => cases hcall
          case isTrue =>
            cases hcall
            exact hmain
  | consumer k =>
      cases o with
      | enqueue x => cases hcall
      | dequeue out =>
          simp only [Test.call] at hcall
          split at hcall
          case isFalse => cases hcall
          case isTrue =>
            cases hcall
            exact hmain

theorem ret_main {v : QueueRes V} (hi : i ≠ .main) :
  (T.ret s i v).main = s.main
  := by
  cases i with
  | main => exact absurd rfl hi
  | producer p => rfl
  | consumer k =>
      cases v with
      | enqueued => rfl
      | dequeued success x => rfl

/-- What is known of the consumers that have called `dequeue` late. -/
structure Served (T : Test V) (junk : Fin T.nConsumers → V)
    (w : List (Thread T.nProducers T.nConsumers × Deed (QueueOp V) (QueueRes V) Empty))
    (s : State V T.nProducers T.nConsumers)
    (c : Config (Thread T.nProducers T.nConsumers) (List V) (AtomicQueue.Local V)) : Prop where
  account : ∃ a, Inv T s c a
  after : (T.client junk).after w = some s
  late : ∀ k, Late T junk w k → s.main = ⟨T.nConsumers, false⟩ ∧
    ∀ x, c.thread (.consumer k) ≠ some (.done (.dequeued false x))

/-- A dequeue that is called late is about to receive a pointer. -/
theorem served
    {c : Config (Thread T.nProducers T.nConsumers) (List V) (AtomicQueue.Local V)}
    (hafter : (T.client junk).after w = some s)
    (htraces : (AtomicQueue.machine _ V).Traces (reports w) c) :
  Served T junk w s c
  := by
  apply Client.invariant (Served T junk) _ _ _ _ _ hafter htraces
  · refine ⟨⟨_, inv_start junk⟩, rfl, ?_⟩
    rintro k ⟨w₁, o, w₂, s₁, hw, -⟩
    cases List.append_ne_nil_of_right_ne_nil _ (List.cons_ne_nil _ _) hw.symm
  · rintro w s s' c c' i o ⟨⟨a, ha⟩, hafter, hlate⟩ hstep hcall
    refine ⟨⟨a, ha.call hstep hcall⟩, Client.after_append.mpr ⟨s, hafter, hcall⟩, fun k hk => ?_⟩
    obtain ⟨hidle, -, rfl⟩ := hstep.call_inv
    rcases hk.append_inv with ⟨hne, hk⟩ | ⟨rfl, -, s₁, hafter', hmain⟩
    · obtain ⟨hmain, hx⟩ := hlate k hk
      rw [Config.put_thread_of_ne hne.symm]
      exact ⟨call_main hcall hmain, hx⟩
    · obtain rfl := Option.some.inj (hafter'.symm.trans hafter)
      rw [Config.put_thread_self]
      exact ⟨call_main hcall hmain, by rintro x ⟨⟩⟩
  · rintro w s c c' i v ⟨⟨a, ha⟩, hafter, hlate⟩ hstep
    refine ⟨⟨a, ha.ret hstep⟩, Client.after_append.mpr ⟨s, hafter, rfl⟩, fun k hk => ?_⟩
    obtain ⟨l, hbusy, hres, rfl⟩ := hstep.ret_inv
    rcases hk.append_inv with ⟨hne, hk⟩ | ⟨-, ⟨o, ⟨⟩⟩, -⟩
    obtain ⟨hmain, hx⟩ := hlate k hk
    rw [Config.put_thread_of_ne hne.symm]
    have hi : i ≠ .main := by
      rintro rfl
      have hat := ha.main
      rw [hmain, hbusy] at hat
      cases l with
      | pending o => cases hat.pending_inv.1
      | done v => cases hat.done_inv.1
    exact ⟨(ret_main hi).trans hmain, hx⟩
  · rintro w s s' c i ⟨⟩
  · rintro w s c c' i t ⟨⟨a, ha⟩, hafter, hlate⟩ hstep
    refine ⟨ha.act hstep, hafter, fun k hk => ?_⟩
    obtain ⟨hmain, hx⟩ := hlate k hk
    refine ⟨hmain, fun x hdone => ?_⟩
    obtain ⟨l, ch, q, l', hbusy, hs, rfl⟩ := hstep.act_inv
    by_cases hi : .consumer k = i
    · subst hi
      rw [Config.put_thread_self] at hdone
      cases hdone
      cases l with
      | done v => cases hs
      | pending o =>
          have hat := ha.consumer k
          rw [hbusy] at hat
          obtain ⟨-, -, -, out, rfl⟩ := hat.pending_inv
          have hne := ha.queue_ne_nil hmain hbusy
          cases hq : c.shared with
          | nil => exact hne hq
          | cons y q =>
              rw [hq] at hs
              cases hs
    · rw [Config.put_thread_of_ne hi] at hdone
      exact hx x hdone

/-- With the object `M`, in the runs with `P`, no dequeue that is called when the main thread has
enqueued the last end pointer returns `false`. -/
def ServesConsumers {σ ℓ Tag Ch : Type} (T : Test V)
    (M : Machine (Thread T.nProducers T.nConsumers) σ ℓ (QueueOp V) (QueueRes V) Tag Ch)
    (P : ∀ n, M.Run n → Prop) : Prop :=
  ∀ (junk : Fin T.nConsumers → V)
    (w : List (Thread T.nProducers T.nConsumers × Deed (QueueOp V) (QueueRes V) Empty))
    (s : State V T.nProducers T.nConsumers) (k : Fin T.nConsumers) (x : V) (n : ℕ) (r : M.Run n),
    P n r → reports (w ++ [(.consumer k, .ret (.dequeued false x))]) = r.history n →
      (T.client junk).after w = some s → ¬ Late T junk w k

theorem servesConsumers {σ ℓ Tag Ch : Type}
    {M : Machine (Thread T.nProducers T.nConsumers) σ ℓ (QueueOp V) (QueueRes V) Tag Ch}
    {P : ∀ n, M.Run n → Prop} (hM : M.ImplementsQueue P) :
  ServesConsumers T M P
  := by
  intro junk w s k x n r hr hw hafter hk
  obtain ⟨c, htraces⟩ := hM n r hr
  rw [← hw, Client.reports_append] at htraces
  obtain ⟨c₀, c₁, hpast, hnow, -⟩ := htraces.concat_inv
  obtain ⟨l, hbusy, hres, -⟩ := hnow.ret_inv
  obtain ⟨-, hx⟩ := (served hafter hpast).late k hk
  cases l with
  | pending o => cases hres
  | done v =>
      cases hres
      exact hx x hbusy

end late

end Correctness
