import ConcurrentQueues.Correctness.Model
import ConcurrentQueues.Histories
import Mathlib.Data.List.Range
import Mathlib.Data.List.ReduceOption
import Mathlib.Data.List.Sort

/-!
# The test passes with every queue

What has been enqueued is a list of the items, in which those of each producer come in order, and
then of end pointers. The consumers share a part of it from the front, each of them in order. When
all have received an end pointer this part is the whole.
-/

namespace Correctness

open Machine

/-! ### The order of the values -/

/-- The values come in the order of their producers when those of each producer grow. -/
theorem look_isSome {N P : ℕ} {g : List ℕ} {lastSeen : List ℤ}
    (hgrow : g.Pairwise fun j k => j / N = k / N → j < k)
    (hlen : lastSeen.length = P) (hbelow : ∀ j ∈ g, j / N < P)
    (hlast : ∀ j ∈ g, ∀ last, lastSeen[j / N]? = some last → last < j) :
  ((g.map fun j : ℕ => (j : ℤ)).foldlM (look N) lastSeen).isSome
  := by
  induction g generalizing lastSeen with
  | nil => rfl
  | cons j g ih =>
      rw [List.pairwise_cons] at hgrow
      have hlt : j / N < lastSeen.length := by
        rw [hlen]
        apply hbelow j List.mem_cons_self
      have hlook : look N lastSeen j = some (lastSeen.set (j / N) j) := by
        have hid : (j : ℤ).tdiv N = ((j / N : ℕ) : ℤ) := rfl
        have hget := List.getElem?_eq_getElem hlt
        have hassert := hlast j List.mem_cons_self _ hget
        rw [look]
        simp only [hid, Int.toNat_natCast, hget, if_pos hassert]
        rw [if_neg (not_lt.mpr (Int.natCast_nonneg _))]
      rw [List.map_cons, List.foldlM_cons, hlook]
      apply ih hgrow.2
      · rw [List.length_set, hlen]
      · exact fun k hk => hbelow k (List.mem_cons_of_mem _ hk)
      · intro k hk last hl
        by_cases heq : j / N = k / N
        · rw [← heq, List.getElem?_set_self hlt] at hl
          cases hl
          exact Int.ofNat_lt.mpr (hgrow.1 k hk heq)
        · rw [List.getElem?_set_ne heq] at hl
          exact hlast k (List.mem_cons_of_mem _ hk) last hl

namespace Test

variable {V : Type} (T : Test V)

/-- Values below the number of items whose producers see them grow are ordered. -/
theorem ordered_of_pairwise {g : List ℕ} (hbelow : ∀ j ∈ g, j < T.count)
    (hgrow : g.Pairwise fun j k => j / T.perProducer = k / T.perProducer → j < k) :
  T.ordered (g.map fun j : ℕ => (j : ℤ)) = true
  := by
  rcases Nat.eq_zero_or_pos T.perProducer with hzero | -
  · obtain rfl : g = [] := by
      apply List.eq_nil_iff_forall_not_mem.mpr
      intro j hj
      have hlt := hbelow j hj
      rw [count, hzero, Nat.mul_zero] at hlt
      exact absurd hlt (Nat.not_lt_zero j)
    rfl
  · have hdiv : ∀ j ∈ g, j / T.perProducer < T.nProducers := by
      intro j hj
      apply Nat.div_lt_of_lt_mul
      rw [Nat.mul_comm]
      exact hbelow j hj
    apply look_isSome hgrow List.length_replicate hdiv
    intro j hj last hlast
    rw [List.getElem?_replicate, if_pos (hdiv j hj)] at hlast
    cases hlast
    omega

/-! ### What has been enqueued and dequeued -/

/-- The pointer to an item, or the end pointer. -/
def ptr : Option ℕ → V
  | some j => T.item j
  | none => T.endPtr

end Test

/-- The number `n` of the enqueues of a loop that have taken effect, when the enqueue of the present
round is that of `x`. -/
inductive Loop.At {V : Type} (x : V) (l : Loop) : Option (AtomicQueue.Local V) → ℕ → Prop where
  | idle (h : l.calling = false) : Loop.At x l none l.i
  | pending (h : l.calling = true) : Loop.At x l (some (.pending (.enqueue x))) l.i
  | done (h : l.calling = true) : Loop.At x l (some (.done .enqueued)) (l.i + 1)

/-- A consumer has gone on after it has received `got`. -/
def Consumer.Kept {V : Type} (k : Consumer V) (got : List (Option ℕ)) : Prop :=
  ∃ g : List ℕ, k.consumed = g.map (fun j : ℕ => (j : ℤ)) ∧
    got = g.map some ++ if k.stopped then [none] else []

/-- What the dequeues of a consumer that have taken effect have given. -/
inductive Consumer.At {V : Type} (T : Test V) (k : Consumer V) :
    Option (AtomicQueue.Local V) → List (Option ℕ) → Prop where
  | idle {got : List (Option ℕ)} (h : k.calling = false) (kept : k.Kept got) :
      Consumer.At T k none got
  | pending {got : List (Option ℕ)} {out : V} (h : k.calling = true) (open_ : k.stopped = false)
      (kept : k.Kept got) : Consumer.At T k (some (.pending (.dequeue out))) got
  | refused {got : List (Option ℕ)} {x : V} (h : k.calling = true) (open_ : k.stopped = false)
      (kept : k.Kept got) : Consumer.At T k (some (.done (.dequeued false x))) got
  | given {got : List (Option ℕ)} {o : Option ℕ} (h : k.calling = true)
      (open_ : k.stopped = false) (kept : k.Kept got) :
      Consumer.At T k (some (.done (.dequeued true (T.ptr o)))) (got ++ [o])

/-- What has happened so far: how many items of each producer and how many end pointers have been
enqueued, which items in which order, what has been dequeued by whom, and what is left. -/
structure Account (nProducers nConsumers : ℕ) where
  sent : Fin nProducers → ℕ
  ends : ℕ
  order : List ℕ
  taken : List (Fin nConsumers × Option ℕ)
  rest : List (Option ℕ)

/-- What consumer `c` has dequeued. -/
def Account.got {P C : ℕ} (a : Account P C) (c : Fin C) : List (Option ℕ) :=
  (a.taken.filter fun e => e.1 = c).map Prod.snd

/-- The threads of the test, the atomic queue, and what has happened so far. -/
structure Inv {V : Type} (T : Test V) (s : State V T.nProducers T.nConsumers)
    (c : Config (Thread T.nProducers T.nConsumers) (List V) (AtomicQueue.Local V))
    (a : Account T.nProducers T.nConsumers) : Prop where
  queue : c.shared = a.rest.map T.ptr
  log : a.taken.map Prod.snd ++ a.rest = a.order.map some ++ List.replicate a.ends none
  below : ∀ j ∈ a.order, j < T.count
  sections : ∀ p : Fin T.nProducers, a.order.filter (fun j => j / T.perProducer = p) =
    List.range' (T.start p) (a.sent p)
  producer : ∀ p, (s.producer p).At (T.item (T.start p + (s.producer p).i))
    (c.thread (.producer p)) (a.sent p)
  round : ∀ p, (s.producer p).i ≤ T.perProducer ∧
    ((s.producer p).calling = true → (s.producer p).i < T.perProducer)
  main : s.main.At T.endPtr (c.thread .main) a.ends
  joined : s.main ≠ ⟨0, false⟩ → T.Produced s
  consumer : ∀ k, (s.consumer k).At T (c.thread (.consumer k)) (a.got k)

/-! ### Each step keeps the account -/

section at_

variable {V : Type} {x : V} {l : Loop} {n : ℕ} {T : Test V} {k : Consumer V}
  {got : List (Option ℕ)}

theorem Loop.At.none_inv (h : l.At x none n) :
  l.calling = false ∧ n = l.i
  := by
  cases h with
  | idle h => exact ⟨h, rfl⟩

theorem Loop.At.pending_inv {o : QueueOp V} (h : l.At x (some (.pending o)) n) :
  l.calling = true ∧ o = .enqueue x ∧ n = l.i
  := by
  cases h with
  | pending h => exact ⟨h, rfl, rfl⟩

theorem Loop.At.done_inv {v : QueueRes V} (h : l.At x (some (.done v)) n) :
  l.calling = true ∧ n = l.i + 1
  := by
  cases h with
  | done h => exact ⟨h, rfl⟩

/-- Between two rounds all enqueues have taken effect. -/
theorem Loop.At.eq_of_not_calling {t : Option (AtomicQueue.Local V)} (h : l.At x t n)
    (hl : l.calling = false) :
  n = l.i
  := by
  cases h with
  | idle => rfl
  | pending h | done h => cases h.symm.trans hl

theorem Consumer.At.none_inv (h : k.At T none got) :
  k.Kept got
  := by
  cases h with
  | idle _ kept => exact kept

theorem Consumer.At.pending_inv {o : QueueOp V} (h : k.At T (some (.pending o)) got) :
  k.calling = true ∧ k.stopped = false ∧ k.Kept got ∧ ∃ out, o = .dequeue out
  := by
  cases h with
  | pending h open_ kept => exact ⟨h, open_, kept, _, rfl⟩

theorem Consumer.At.done_inv {v : QueueRes V} (h : k.At T (some (.done v)) got) :
  k.stopped = false ∧ ((∃ x, v = .dequeued false x ∧ k.Kept got) ∨
    ∃ o g, v = .dequeued true (T.ptr o) ∧ got = g ++ [o] ∧ k.Kept g)
  := by
  cases h with
  | refused _ open_ kept => exact ⟨open_, Or.inl ⟨_, rfl, kept⟩⟩
  | given _ open_ kept => exact ⟨open_, Or.inr ⟨_, _, rfl, rfl, kept⟩⟩

end at_

section frames

variable {V : Type} {T : Test V} {s : State V T.nProducers T.nConsumers}
  {c : Config (Thread T.nProducers T.nConsumers) (List V) (AtomicQueue.Local V)}
  {a : Account T.nProducers T.nConsumers}

/-- While a producer is in its loop no end pointer has been enqueued. -/
theorem Inv.not_joined (h : Inv T s c a) {p : Fin T.nProducers}
    (hp : s.producer p ≠ ⟨T.perProducer, false⟩) :
  s.main = ⟨0, false⟩ ∧ a.ends = 0
  := by
  have hmain : s.main = ⟨0, false⟩ := by
    by_contra hne
    exact hp (h.joined hne p)
  have hends := h.main
  rw [hmain] at hends
  exact ⟨hmain, hends.eq_of_not_calling rfl⟩

/-- A call in progress has not returned, so that its thread is in the loop. -/
theorem Inv.calling (h : Inv T s c a) {p : Fin T.nProducers} (hp : (s.producer p).calling = true) :
  s.producer p ≠ ⟨T.perProducer, false⟩ ∧ (s.producer p).i < T.perProducer
  := by
  refine ⟨?_, (h.round p).2 hp⟩
  intro heq
  rw [heq] at hp
  cases hp

/-- The end pointers are enqueued when the producers have been joined. -/
theorem Inv.main_calling (h : Inv T s c a) (hmain : s.main.calling = true) :
  T.Produced s
  := by
  apply h.joined
  intro heq
  rw [heq] at hmain
  cases hmain

/-- What has been dequeued is an item or the end pointer. -/
theorem Inv.below_of_got (h : Inv T s c a) {k : Fin T.nConsumers} {j : ℕ}
    (hj : some j ∈ a.got k) :
  j < T.count
  := by
  obtain ⟨e, he, hej⟩ := List.mem_map.mp hj
  have hmem : some j ∈ a.taken.map Prod.snd :=
    List.mem_map.mpr ⟨e, (List.mem_filter.mp he).1, hej⟩
  have hlog := List.mem_append_left a.rest hmem
  rw [h.log, List.mem_append] at hlog
  rcases hlog with hlog | hlog
  · obtain ⟨i, hi, heq⟩ := List.mem_map.mp hlog
    cases heq
    exact h.below _ hi
  · cases List.eq_of_mem_replicate hlog

/-- An item of a producer is among the items, and belongs to it. -/
theorem start_add (p : Fin T.nProducers) {i : ℕ} (hi : i < T.perProducer) :
  T.start p + i < T.count ∧ (T.start p + i) / T.perProducer = p
  := by
  constructor
  · calc T.start p + i
      _ < p * T.perProducer + T.perProducer := Nat.add_lt_add_left hi _
      _ = (p + 1) * T.perProducer := (Nat.succ_mul ..).symm
      _ ≤ T.nProducers * T.perProducer := Nat.mul_le_mul_right _ p.isLt
  · rw [Test.start, Nat.mul_comm, Nat.mul_add_div (Nat.zero_lt_of_lt hi), Nat.div_eq_of_lt hi,
      Nat.add_zero]

theorem inv_start (junk : Fin T.nConsumers → V) :
  Inv T (T.init junk) ⟨[], fun _ => none⟩ ⟨fun _ => 0, 0, [], [], []⟩
  := by
  constructor
  case queue => rfl
  case log => rfl
  case below => rintro j ⟨⟩
  case sections => exact fun p => rfl
  case producer => exact fun p => .idle rfl
  case round => exact fun p => ⟨Nat.zero_le _, by rintro ⟨⟩⟩
  case main => exact .idle rfl
  case joined => exact fun hne => absurd rfl hne
  case consumer => exact fun k => .idle rfl ⟨[], rfl, rfl⟩

/-- Only producer `p` moves, which has not been joined. -/
theorem Inv.at_producer (h : Inv T s c a) (p : Fin T.nProducers) (l : Loop)
    (t : Option (AtomicQueue.Local V)) (n : ℕ) (order : List ℕ) (rest : List (Option ℕ))
    (hp : s.producer p ≠ ⟨T.perProducer, false⟩)
    (log : a.taken.map Prod.snd ++ rest = order.map some ++ List.replicate a.ends none)
    (below : ∀ j ∈ order, j < T.count)
    (sections : ∀ q : Fin T.nProducers, order.filter (fun j => j / T.perProducer = q) =
      List.range' (T.start q) (Function.update a.sent p n q))
    (hl : l.At (T.item (T.start p + l.i)) t n)
    (round : l.i ≤ T.perProducer ∧ (l.calling = true → l.i < T.perProducer)) :
  Inv T { s with producer := Function.update s.producer p l }
    (c.put (.producer p) (rest.map T.ptr) t)
    { a with sent := Function.update a.sent p n, order := order, rest := rest }
  := by
  constructor
  case queue => rfl
  case log => exact log
  case below => exact below
  case sections => exact sections
  case producer =>
    intro q
    dsimp only
    by_cases hq : q = p
    · subst hq
      rw [Config.put_thread_self, Function.update_self, Function.update_self]
      exact hl
    · rw [Config.put_thread_of_ne (by rintro ⟨⟩; exact hq rfl), Function.update_of_ne hq,
        Function.update_of_ne hq]
      exact h.producer q
  case round =>
    intro q
    dsimp only
    by_cases hq : q = p
    · subst hq
      rw [Function.update_self]
      exact round
    · rw [Function.update_of_ne hq]
      exact h.round q
  case main =>
    rw [Config.put_thread_of_ne (by rintro ⟨⟩)]
    exact h.main
  case joined => exact fun hne => absurd (h.not_joined hp).1 hne
  case consumer =>
    intro k
    rw [Config.put_thread_of_ne (by rintro ⟨⟩)]
    exact h.consumer k

/-- Only the main thread moves, when the producers have been joined. -/
theorem Inv.at_main (h : Inv T s c a) (l : Loop) (t : Option (AtomicQueue.Local V)) (ends : ℕ)
    (rest : List (Option ℕ)) (hproduced : T.Produced s)
    (log : a.taken.map Prod.snd ++ rest = a.order.map some ++ List.replicate ends none)
    (hl : l.At T.endPtr t ends) :
  Inv T { s with main := l } (c.put .main (rest.map T.ptr) t)
    { a with ends := ends, rest := rest }
  := by
  constructor
  case queue => rfl
  case log => exact log
  case below => exact h.below
  case sections => exact h.sections
  case producer =>
    intro q
    rw [Config.put_thread_of_ne (by rintro ⟨⟩)]
    exact h.producer q
  case round => exact h.round
  case main =>
    rw [Config.put_thread_self]
    exact hl
  case joined => exact fun _ => hproduced
  case consumer =>
    intro k
    rw [Config.put_thread_of_ne (by rintro ⟨⟩)]
    exact h.consumer k

/-- Only consumer `k` moves, and it may take something from the queue. -/
theorem Inv.at_consumer (h : Inv T s c a) (k : Fin T.nConsumers) (m : Consumer V)
    (t : Option (AtomicQueue.Local V)) (new rest : List (Option ℕ)) (hrest : a.rest = new ++ rest)
    (hk : m.At T t (a.got k ++ new)) :
  Inv T { s with consumer := Function.update s.consumer k m }
    (c.put (.consumer k) (rest.map T.ptr) t)
    { a with taken := a.taken ++ new.map fun o => (k, o), rest := rest }
  := by
  have hgot : ∀ k', Account.got { a with taken := a.taken ++ new.map fun o => (k, o), rest := rest }
      k' = if k' = k then a.got k ++ new else a.got k' := by
    intro k'
    rw [Account.got, List.filter_append, List.map_append, List.filter_map]
    by_cases hk : k' = k
    · subst hk
      have hall : new.filter ((fun e => decide (e.1 = k')) ∘ fun o => (k', o)) = new :=
        List.filter_eq_self.mpr fun o _ => decide_eq_true rfl
      rw [if_pos rfl, hall, List.map_map]
      exact congrArg _ (List.map_id new)
    · have hnone : new.filter ((fun e => decide (e.1 = k')) ∘ fun o => (k, o)) = [] :=
        List.filter_eq_nil_iff.mpr fun o _ => by simpa using Ne.symm hk
      rw [if_neg hk, hnone]
      apply List.append_nil
  constructor
  case queue => rfl
  case log =>
    rw [← h.log, hrest]
    simp
  case below => exact h.below
  case sections => exact h.sections
  case producer =>
    intro q
    rw [Config.put_thread_of_ne (by rintro ⟨⟩)]
    exact h.producer q
  case round => exact h.round
  case main =>
    rw [Config.put_thread_of_ne (by rintro ⟨⟩)]
    exact h.main
  case joined => exact h.joined
  case consumer =>
    intro k'
    rw [hgot]
    dsimp only
    by_cases hk' : k' = k
    · subst hk'
      rw [Config.put_thread_self, Function.update_self, if_pos rfl]
      exact hk
    · rw [Config.put_thread_of_ne (by rintro ⟨⟩; exact hk' rfl), Function.update_of_ne hk',
        if_neg hk']
      exact h.consumer k'

/-! ### Each step keeps the account -/

variable [DecidableEq V] {s' : State V T.nProducers T.nConsumers}
  {c' : Config (Thread T.nProducers T.nConsumers) (List V) (AtomicQueue.Local V)}
  {i : Thread T.nProducers T.nConsumers}

/-- A call changes nothing of what has happened. -/
theorem Inv.call {o : QueueOp V} (h : Inv T s c a)
    (hstep : (AtomicQueue.machine _ V).Step c i (.call o) c') (hcall : T.call s i o = some s') :
  Inv T s' c' a
  := by
  obtain ⟨hidle, -, rfl⟩ := hstep.call_inv
  rw [h.queue]
  cases i with
  | producer p =>
      cases o with
      | dequeue out => cases hcall
      | enqueue x =>
          simp only [Test.call] at hcall
          split at hcall
          case isFalse => cases hcall
          case isTrue hp =>
            obtain ⟨hcalling, hi, rfl⟩ := hp
            cases hcall
            have hat := h.producer p
            rw [hidle] at hat
            have hp : s.producer p ≠ ⟨T.perProducer, false⟩ := by
              intro heq
              rw [heq] at hi
              exact lt_irrefl _ hi
            have hsections := h.sections
            rw [← Function.update_eq_self p a.sent] at hsections
            have hl : Loop.At (T.item (T.start p + (s.producer p).i)) ⟨(s.producer p).i, true⟩
                (some (.pending (.enqueue (T.item (T.start p + (s.producer p).i))))) (a.sent p) := by
              rw [hat.none_inv.2]
              exact .pending rfl
            have hnext := h.at_producer p ⟨(s.producer p).i, true⟩ _ _ a.order a.rest hp h.log
              h.below hsections hl ⟨le_of_lt hi, fun _ => hi⟩
            rw [Function.update_eq_self] at hnext
            exact hnext
  | main =>
      cases o with
      | dequeue out => cases hcall
      | enqueue x =>
          simp only [Test.call] at hcall
          split at hcall
          case isFalse => cases hcall
          case isTrue hp =>
            obtain ⟨hproduced, hcalling, hi, rfl⟩ := hp
            cases hcall
            have hat := h.main
            rw [hidle] at hat
            apply h.at_main _ _ a.ends a.rest hproduced h.log
            rw [hat.none_inv.2]
            exact .pending rfl
  | consumer k =>
      cases o with
      | enqueue x => cases hcall
      | dequeue out =>
          simp only [Test.call] at hcall
          split at hcall
          case isFalse => cases hcall
          case isTrue hk =>
            obtain ⟨hcalling, hstopped, hout⟩ := hk
            cases hcall
            have hat := h.consumer k
            rw [hidle] at hat
            have hk : Consumer.At T { s.consumer k with calling := true }
                (some (.pending (.dequeue out))) (a.got k ++ []) := by
              rw [List.append_nil]
              exact .pending rfl hstopped hat.none_inv
            have hnext := h.at_consumer k _ _ [] a.rest rfl hk
            rw [List.map_nil, List.append_nil] at hnext
            exact hnext

/-- A consumer keeps what it receives. -/
theorem Consumer.Kept.receive {k : Consumer V} {got : List (Option ℕ)} (h : k.Kept got)
    (hopen : k.stopped = false) {o : Option ℕ} (ho : ∀ j, o = some j → j < T.count) :
  (T.receive k true (T.ptr o)).Kept (got ++ [o])
  := by
  obtain ⟨g, hg, rfl⟩ := h
  rw [hopen, if_neg Bool.false_ne_true, List.append_nil]
  cases o with
  | none =>
      rw [Test.receive, if_pos rfl, Test.ptr, if_pos rfl]
      exact ⟨g, hg, rfl⟩
  | some j =>
      have hj := ho j rfl
      rw [Test.receive, if_pos rfl, Test.ptr, if_neg (T.item_ne_end j hj)]
      refine ⟨g ++ [j], ?_, ?_⟩
      · rw [hg, List.map_append]
        exact congrArg (_ ++ [·]) (T.load_item j hj)
      · rw [hopen, if_neg Bool.false_ne_true, List.append_nil, List.map_append]
        rfl

/-- A return changes nothing of what has happened. -/
theorem Inv.ret {v : QueueRes V} (h : Inv T s c a)
    (hstep : (AtomicQueue.machine _ V).Step c i (.ret v) c') :
  Inv T (T.ret s i v) c' a
  := by
  obtain ⟨l, hbusy, hres, rfl⟩ := hstep.ret_inv
  obtain rfl : l = .done v := by
    cases l with
    | pending o => cases hres
    | done w =>
        cases hres
        rfl
  rw [h.queue]
  cases i with
  | producer p =>
      have hat := h.producer p
      rw [hbusy] at hat
      obtain ⟨hcalling, hsent⟩ := hat.done_inv
      obtain ⟨hp, hi⟩ := h.calling hcalling
      have hsections := h.sections
      rw [← Function.update_eq_self p a.sent] at hsections
      have hl : Loop.At (T.item (T.start p + ((s.producer p).i + 1)))
          ⟨(s.producer p).i + 1, false⟩ none (a.sent p) := by
        rw [hsent]
        exact .idle rfl
      have hnext := h.at_producer p ⟨(s.producer p).i + 1, false⟩ _ _ a.order a.rest hp h.log
        h.below hsections hl ⟨hi, by rintro ⟨⟩⟩
      rw [Function.update_eq_self] at hnext
      exact hnext
  | main =>
      have hat := h.main
      rw [hbusy] at hat
      obtain ⟨hcalling, hends⟩ := hat.done_inv
      apply h.at_main ⟨s.main.i + 1, false⟩ none a.ends a.rest (h.main_calling hcalling) h.log
      rw [hends]
      exact .idle rfl
  | consumer k =>
      have hat := h.consumer k
      rw [hbusy] at hat
      obtain ⟨hopen, hgiven⟩ := hat.done_inv
      have hmoves : ∀ {m : Consumer V}, m.calling = false → m.Kept (a.got k) →
          Inv T { s with consumer := Function.update s.consumer k m }
            (c.put (.consumer k) (a.rest.map T.ptr) none) a := by
        intro m hm hkept
        have hnext := h.at_consumer k m none [] a.rest rfl
        rw [List.map_nil, List.append_nil, List.append_nil] at hnext
        apply hnext (.idle hm hkept)
      rcases hgiven with ⟨x, rfl, hkept⟩ | ⟨o, g, rfl, hg, hkept⟩
      · apply hmoves
        · rw [Test.receive, if_neg Bool.false_ne_true]
        · rw [Test.receive, if_neg Bool.false_ne_true]
          exact hkept
      · apply hmoves
        · rw [Test.receive, if_pos rfl]
          split
          · rfl
          · rfl
        · rw [hg]
          apply hkept.receive hopen
          rintro j rfl
          apply h.below_of_got
          rw [hg]
          exact List.mem_append_right _ (List.mem_singleton_self _)

omit [DecidableEq V] in
/-- An enqueue or a dequeue takes effect. -/
theorem Inv.act {t : Unit} (h : Inv T s c a)
    (hstep : (AtomicQueue.machine _ V).Step c i (.act t) c') :
  ∃ a', Inv T s c' a'
  := by
  obtain ⟨l, x, q, l', hbusy, hs, rfl⟩ := hstep.act_inv
  cases l with
  | done v => cases hs
  | pending o =>
      cases i with
      | producer p =>
          have hat := h.producer p
          rw [hbusy] at hat
          obtain ⟨hcalling, rfl, hsent⟩ := hat.pending_inv
          obtain ⟨hp, hi⟩ := h.calling hcalling
          obtain ⟨hbelow, hdiv⟩ := start_add p hi
          cases hs
          have hnext := h.at_producer p (s.producer p) (some (.done .enqueued))
            ((s.producer p).i + 1) (a.order ++ [T.start p + (s.producer p).i])
            (a.rest ++ [some (T.start p + (s.producer p).i)]) hp ?_ ?_ ?_ (.done hcalling)
            (h.round p)
          · rw [Function.update_eq_self, List.map_append, ← h.queue] at hnext
            exact ⟨_, hnext⟩
          · have hlog := h.log
            rw [(h.not_joined hp).2, List.replicate_zero, List.append_nil] at hlog ⊢
            rw [← List.append_assoc, hlog, List.map_append]
            rfl
          · intro j hj
            rcases List.mem_append.mp hj with hj | hj
            · exact h.below j hj
            · rw [List.mem_singleton.mp hj]
              exact hbelow
          · intro q
            rw [List.filter_append, h.sections q]
            by_cases hq : q = p
            · subst hq
              have hpos : [T.start q + (s.producer q).i].filter
                  (fun j => j / T.perProducer = q) = [T.start q + (s.producer q).i] :=
                List.filter_cons_of_pos (decide_eq_true hdiv)
              rw [hpos, Function.update_self, List.range'_concat, hsent, Nat.one_mul]
            · rw [Function.update_of_ne hq, List.filter_cons_of_neg, List.filter_nil,
                List.append_nil]
              rw [decide_eq_true_eq, hdiv]
              exact fun heq => hq (Fin.ext heq.symm)
      | main =>
          have hat := h.main
          rw [hbusy] at hat
          obtain ⟨hcalling, rfl, hends⟩ := hat.pending_inv
          cases hs
          have hnext := h.at_main s.main (some (.done .enqueued)) (s.main.i + 1) (a.rest ++ [none])
            (h.main_calling hcalling) ?_ (.done hcalling)
          · rw [List.map_append, ← h.queue] at hnext
            exact ⟨_, hnext⟩
          · rw [← List.append_assoc, h.log, ← hends, List.replicate_succ', List.append_assoc]
      | consumer k =>
          have hat := h.consumer k
          rw [hbusy] at hat
          obtain ⟨hcalling, hopen, hkept, out, rfl⟩ := hat.pending_inv
          have hqueue := h.queue
          cases hrest : a.rest with
          | nil =>
              rw [hrest] at hqueue
              rw [hqueue] at hs
              cases hs
              have hnext := h.at_consumer k (s.consumer k) (some (.done (.dequeued false x))) [] []
                hrest ?_
              · rw [Function.update_eq_self] at hnext
                exact ⟨_, hnext⟩
              · rw [List.append_nil]
                exact .refused hcalling hopen hkept
          | cons o rest =>
              rw [hrest] at hqueue
              rw [hqueue] at hs
              cases hs
              have hnext := h.at_consumer k (s.consumer k)
                (some (.done (.dequeued true (T.ptr o)))) [o] rest hrest
                (.given hcalling hopen hkept)
              rw [Function.update_eq_self] at hnext
              exact ⟨_, hnext⟩

/-- At every time the threads and the queue have an account. -/
theorem exists_inv {junk : Fin T.nConsumers → V}
    {w : List (Thread T.nProducers T.nConsumers × Deed (QueueOp V) (QueueRes V) Empty)}
    (hafter : (T.client junk).after w = some s)
    (htraces : (AtomicQueue.machine _ V).Traces (reports w) c) :
  ∃ a, Inv T s c a
  := by
  apply Client.invariant (fun _ s c => ∃ a, Inv T s c a) _ _ _ _ _ hafter htraces
  · exact ⟨_, inv_start junk⟩
  · rintro w s s' c c' i o ⟨a, h⟩ hstep hcall
    exact ⟨a, h.call hstep hcall⟩
  · rintro w s c c' i v ⟨a, h⟩ hstep
    exact ⟨a, h.ret hstep⟩
  · rintro w s s' c i ⟨⟩
  · rintro w s c c' i t ⟨a, h⟩ hstep
    exact h.act hstep

end frames

/-! ### The assertions hold -/

/-- The elements of a list, gathered by what they are mapped to. -/
theorem perm_flatMap_filter {α β : Type} [DecidableEq β] (f : α → β) {ks : List β}
    (hnodup : ks.Nodup) {l : List α} (hmem : ∀ a ∈ l, f a ∈ ks) :
  (ks.flatMap fun k => l.filter fun a => f a = k).Perm l
  := by
  induction ks generalizing l with
  | nil =>
      obtain rfl : l = [] := List.eq_nil_iff_forall_not_mem.mpr fun a ha => by cases hmem a ha
      exact .nil
  | cons k ks ih =>
      rw [List.nodup_cons] at hnodup
      have hrest : ∀ a ∈ l.filter (fun a => !decide (f a = k)), f a ∈ ks := by
        intro a ha
        obtain ⟨ha, hne⟩ := List.mem_filter.mp ha
        rcases List.mem_cons.mp (hmem a ha) with heq | hks
        · rw [heq] at hne
          simp at hne
        · exact hks
      have hsame : (ks.flatMap fun k' => l.filter fun a => f a = k') =
          ks.flatMap fun k' => (l.filter fun a => !decide (f a = k)).filter fun a => f a = k' := by
        apply List.flatMap_congr
        intro k' hk'
        rw [List.filter_filter]
        apply List.filter_congr
        intro a _
        by_cases heq : f a = k'
        · have hne : f a ≠ k := by
            rw [heq]
            rintro rfl
            exact hnodup.1 hk'
          rw [decide_eq_true heq, decide_eq_false hne]
          rfl
        · rw [decide_eq_false heq]
          rfl
      rw [List.flatMap_cons, hsame]
      exact ((ih hnodup.2 hrest).append_left _).trans (List.filter_append_perm _ l)

theorem reduceOption_map_some (g : List ℕ) :
  (g.map some).reduceOption = g
  := by
  rw [List.reduceOption, List.filterMap_map]
  apply List.filterMap_some

/-- When all end pointers have been dequeued, nothing is left behind the last one. -/
theorem eq_nil_of_ends {taken rest order : List (Option ℕ)} {n : ℕ} (hn : 0 < n)
    (hlog : taken ++ rest = order ++ List.replicate n none) (hrest : rest.count none = 0) :
  rest = []
  := by
  rcases List.eq_nil_or_concat rest with hnil | ⟨init, o, rfl⟩
  · exact hnil
  · obtain ⟨m, rfl⟩ := Nat.exists_eq_succ_of_ne_zero (Nat.ne_of_gt hn)
    rw [List.concat_eq_append, List.replicate_succ', ← List.append_assoc,
      ← List.append_assoc] at hlog
    obtain ⟨-, heq⟩ := List.append_inj' hlog rfl
    cases heq
    rw [List.concat_eq_append, List.count_append, List.count_singleton_self] at hrest
    cases hrest

section account

variable {V : Type} {T : Test V} {s : State V T.nProducers T.nConsumers}
  {c : Config (Thread T.nProducers T.nConsumers) (List V) (AtomicQueue.Local V)}
  {a : Account T.nProducers T.nConsumers}

/-- What a consumer has gone on after is a part of what it has dequeued. -/
theorem Consumer.At.kept {k : Consumer V} {t : Option (AtomicQueue.Local V)}
    {got : List (Option ℕ)} (h : k.At T t got) :
  ∃ g new, k.Kept g ∧ got = g ++ new
  := by
  cases h with
  | idle _ kept | pending _ _ kept | refused _ _ kept =>
      exact ⟨got, [], kept, (List.append_nil got).symm⟩
  | given _ _ kept => exact ⟨_, _, kept, rfl⟩

/-- A consumer that has left the loop is in no call. -/
theorem Consumer.At.of_stopped {k : Consumer V} {t : Option (AtomicQueue.Local V)}
    {got : List (Option ℕ)} (h : k.At T t got) (hk : k.stopped = true) :
  ∃ g : List ℕ, k.consumed = g.map (fun j : ℕ => (j : ℤ)) ∧ got = g.map some ++ [none]
  := by
  cases h with
  | idle _ kept =>
      obtain ⟨g, hg, hgot⟩ := kept
      rw [hk, if_pos rfl] at hgot
      exact ⟨g, hg, hgot⟩
  | pending _ hopen | refused _ hopen | given _ hopen => cases hopen.symm.trans hk

/-- The items of each producer are enqueued in order. -/
theorem Inv.order_pairwise (h : Inv T s c a) :
  a.order.Pairwise fun j k => j / T.perProducer = k / T.perProducer → j < k
  := by
  rw [List.pairwise_iff_forall_sublist]
  intro j k hsub hjk
  have hj := h.below j (hsub.subset List.mem_cons_self)
  have hlt : j / T.perProducer < T.nProducers := by
    apply Nat.div_lt_of_lt_mul
    rw [Nat.mul_comm]
    exact hj
  have hfilter := hsub.filter fun i => decide (i / T.perProducer = j / T.perProducer)
  rw [List.filter_eq_self.mpr (by simp [hjk]), h.sections ⟨_, hlt⟩] at hfilter
  exact List.pairwise_iff_forall_sublist.mp List.pairwise_lt_range' hfilter

/-- The values a consumer has read come in the order of their producers. -/
theorem Inv.ordered (h : Inv T s c a) (k : Fin T.nConsumers) :
  T.ordered (s.consumer k).consumed = true
  := by
  obtain ⟨got, new, ⟨g, hg, rfl⟩, hgot⟩ := (h.consumer k).kept
  have hsub : g.Sublist a.order := by
    have hlog : (a.got k).Sublist (a.order.map some ++ List.replicate a.ends none) := by
      rw [← h.log]
      exact (List.filter_sublist.map _).trans (List.sublist_append_left _ _)
    have hmap : (g.map some).Sublist (a.got k) := by
      rw [hgot, List.append_assoc]
      apply List.sublist_append_left
    have hreduce := (hmap.trans hlog).filterMap id
    rw [List.filterMap_append] at hreduce
    have hg' : (g.map some).filterMap id = g := reduceOption_map_some g
    have horder : (a.order.map some).filterMap id = a.order := reduceOption_map_some a.order
    have hends : (List.replicate a.ends (none : Option ℕ)).filterMap id = [] :=
      List.reduceOption_replicate_none
    rwa [hg', horder, hends, List.append_nil] at hreduce
  rw [hg]
  apply T.ordered_of_pairwise
  · exact fun j hj => h.below j (hsub.subset hj)
  · exact h.order_pairwise.sublist hsub

/-- The sections of the producers are all items. -/
theorem flatMap_sections (N P : ℕ) :
  ((List.range P).flatMap fun p => List.range' (p * N) N) = List.range (P * N)
  := by
  induction P with
  | zero =>
      rw [Nat.zero_mul]
      rfl
  | succ P ih =>
      rw [List.range_succ, List.flatMap_append, List.flatMap_singleton, ih, Nat.succ_mul,
        List.range_eq_range', List.range_eq_range', ← List.range'_append_1, Nat.zero_add]

/-- When all have been joined all items have been enqueued. -/
theorem Inv.order_perm (h : Inv T s c a) (hproduced : T.Produced s) :
  a.order.Perm (List.range T.count)
  := by
  have hbelow : ∀ j ∈ a.order, j / T.perProducer ∈ List.range T.nProducers := by
    intro j hj
    apply List.mem_range.mpr
    apply Nat.div_lt_of_lt_mul
    rw [Nat.mul_comm]
    exact h.below j hj
  rw [Test.count, ← flatMap_sections]
  apply (perm_flatMap_filter _ List.nodup_range hbelow).symm.trans
  apply List.Perm.of_eq
  apply List.flatMap_congr
  intro p hp
  have hsent := (h.producer ⟨p, List.mem_range.mp hp⟩).eq_of_not_calling
  rw [hproduced] at hsent
  rw [h.sections ⟨p, List.mem_range.mp hp⟩, hsent rfl]
  rfl

/-- When all have been joined the consumers have received all items. -/
theorem Inv.consumed_perm (h : Inv T s c a) (hconsumers : 0 < T.nConsumers)
    (hfinished : T.Finished s) :
  ((List.finRange T.nConsumers).flatMap fun k => (s.consumer k).consumed).Perm
    ((List.range T.count).map fun j : ℕ => (j : ℤ))
  := by
  obtain ⟨hproduced, hmain, hstopped⟩ := hfinished
  have hends : a.ends = T.nConsumers := by
    have hat := h.main
    rw [hmain] at hat
    exact hat.eq_of_not_calling rfl
  choose g hg hgot using fun k => (h.consumer k).of_stopped (hstopped k)
  have hperm : ((List.finRange T.nConsumers).flatMap a.got).Perm (a.taken.map Prod.snd) := by
    have hall := perm_flatMap_filter Prod.fst (List.nodup_finRange T.nConsumers)
      (l := a.taken) fun e _ => List.mem_finRange e.1
    have hmap := hall.map Prod.snd
    rwa [List.map_flatMap] at hmap
  have hnone : (a.taken.map Prod.snd).count none = T.nConsumers := by
    have hone : ∀ k, (a.got k).count none = 1 := by
      intro k
      have hzero : ((g k).map some).count none = 0 := List.count_eq_zero.mpr (by simp)
      rw [hgot, List.count_append, hzero]
      rfl
    rw [← hperm.count_eq, List.count_flatMap]
    simp [Function.comp_def, hone]
  have hlog := h.log
  have hrest : a.rest = [] := by
    have hcount := congrArg (List.count none) hlog
    have hzero : (a.order.map some).count none = 0 := List.count_eq_zero.mpr (by simp)
    rw [List.count_append, List.count_append, hnone, List.count_replicate_self, hzero, hends,
      Nat.zero_add, Nat.add_eq_left] at hcount
    exact eq_nil_of_ends (by rwa [hends]) hlog hcount
  rw [hrest, List.append_nil] at hlog
  have horder : ((List.finRange T.nConsumers).flatMap g).Perm a.order := by
    have hreduce := hperm.filterMap id
    rw [hlog, List.filterMap_append, List.filterMap_flatMap] at hreduce
    have horder : (a.order.map some).filterMap id = a.order := reduceOption_map_some a.order
    have hends' : (List.replicate a.ends (none : Option ℕ)).filterMap id = [] :=
      List.reduceOption_replicate_none
    have hg' : ∀ k, (a.got k).filterMap id = g k := by
      intro k
      rw [hgot, List.filterMap_append]
      exact (congrArg (· ++ []) (reduceOption_map_some (g k))).trans (List.append_nil _)
    rw [horder, hends', List.append_nil] at hreduce
    simp only [hg'] at hreduce
    exact hreduce
  have hvalues := (horder.trans (h.order_perm hproduced)).map fun j : ℕ => (j : ℤ)
  rw [List.map_flatMap] at hvalues
  simp only [← hg] at hvalues
  exact hvalues

/-- When all have been joined the assertions hold. -/
theorem Inv.passes (h : Inv T s c a) (hconsumers : 0 < T.nConsumers) (hfinished : T.Finished s) :
  T.passes s = true
  := by
  have hsorted : T.allConsumed s = (List.range T.count).map fun j : ℕ => (j : ℤ) := by
    have hperm : (T.allConsumed s).Perm ((List.range T.count).map fun j : ℕ => (j : ℤ)) :=
      (List.mergeSort_perm _ _).trans (h.consumed_perm hconsumers hfinished)
    apply hperm.eq_of_pairwise' (List.pairwise_mergeSort' (fun i j : ℤ => i ≤ j) _)
    rw [List.pairwise_map]
    exact List.pairwise_lt_range.imp fun h => Int.ofNat_le.mpr (le_of_lt h)
  rw [Test.passes, hsorted, Bool.and_eq_true, List.all_eq_true, decide_eq_true_eq]
  exact ⟨fun k _ => h.ordered k, rfl⟩

end account

/-! ### With every queue -/

/-- The test passes with the object `M` in the runs with `P`: at every time the assertions on the order
of the values hold, and all assertions do when the threads have been joined. -/
def Passes {V σ ℓ Tag Ch : Type} [DecidableEq V] (T : Test V)
    (M : Machine (Thread T.nProducers T.nConsumers) σ ℓ (QueueOp V) (QueueRes V) Tag Ch)
    (P : ∀ n, M.Run n → Prop) : Prop :=
  ∀ (junk : Fin T.nConsumers → V)
    (w : List (Thread T.nProducers T.nConsumers × Deed (QueueOp V) (QueueRes V) Empty))
    (s : State V T.nProducers T.nConsumers) (n : ℕ) (r : M.Run n),
    (T.client junk).after w = some s → P n r → reports w = r.history n →
      (∀ k, T.ordered (s.consumer k).consumed = true) ∧
        (0 < T.nConsumers → T.Finished s → T.passes s = true)

/-- The test passes with whatever implements a queue. -/
theorem passes {V σ ℓ Tag Ch : Type} [DecidableEq V] {T : Test V}
    {M : Machine (Thread T.nProducers T.nConsumers) σ ℓ (QueueOp V) (QueueRes V) Tag Ch}
    {P : ∀ n, M.Run n → Prop} (hM : M.ImplementsQueue P) :
  Passes T M P
  := by
  intro junk w s n r hafter hr hw
  obtain ⟨c, htraces⟩ := hM n r hr
  rw [← hw] at htraces
  obtain ⟨a, h⟩ := exists_inv hafter htraces
  exact ⟨h.ordered, h.passes⟩

end Correctness
