import ConcurrentQueues.Benchmark.Conservation
import ConcurrentQueues.Histories

/-!
# The benchmark with a queue

The workers of `execute_test` as a client of a queue of pointers to items. They call the queue where
in the model of the benchmark they access a list. When the queue implements a queue, what the
workers do is what they may do with the list: an access to the list takes place where the call takes
effect.
-/

namespace Benchmark

open Machine

/-- Where the items are: `item x` is `&items[x]`, and `index` gives the item a pointer points to. -/
structure Layout (V : Type) (count : ℕ) where
  item : ℕ → V
  index : V → ℕ
  index_item : ∀ x < count, index (item x) = x

/-- The workers with a queue: the state of the benchmark, whose field `queue` plays no part, who is
in a call, and what the clock shows. -/
structure Bench (n : ℕ) where
  state : State n
  calling : Fin n → Bool
  now : ℤ

/-- The next step of a worker is an access to the queue. -/
def Worker.Accesses : Worker → Prop
  | .enqueue .. | .dequeue .. => True
  | _ => False

/-- Where a worker goes on when a call returns. -/
def Layout.returned {V : Type} {count : ℕ} (L : Layout V count) : Worker → QueueRes V → Worker
  | .enqueue i rng sample, .enqueued => if sample then .enqueueDone i rng else .work i rng
  | .dequeue i rng t₀, .dequeued true x => .checkGot i rng t₀ (L.index x)
  | .dequeue i rng _, .dequeued false _ => .clock i rng
  | w, _ => w

/-- The item a worker receives. -/
def Layout.received {V : Type} {count : ℕ} (L : Layout V count) : Deed (QueueOp V) (QueueRes V) ℤ →
    Option ℕ
  | .ret (.dequeued true x) => some (L.index x)
  | _ => none

namespace Workload

variable (W : Workload) {V : Type} (L : Layout V W.items.length)

/-- The items that have been received, in this order. -/
def receipts (w : List (Fin W.nThreads × Deed (QueueOp V) (QueueRes V) ℤ)) : List ℕ :=
  w.filterMap fun e => L.received e.2

variable [DecidableEq V]

/-- The workers as a client. The variable `got` of a worker may hold anything when `dequeue` is
called. -/
def client (t₀ : ℤ) : Client (Fin W.nThreads) (QueueOp V) (QueueRes V) ℤ (Bench W.nThreads) where
  init := ⟨W.init, fun _ => false, t₀⟩
  call t o b :=
    match b.state.worker t, o with
    | .enqueue i _ _, .enqueue x =>
        if b.calling t = false ∧ x = L.item (W.myItem t i) then
          some { b with calling := Function.update b.calling t true }
        else none
    | .dequeue _ _ _, .dequeue _ =>
        if b.calling t = false then some { b with calling := Function.update b.calling t true }
        else none
    | _, _ => none
  ret t v b :=
    { b with
      state := b.state.goto t (L.returned (b.state.worker t) v)
      calling := Function.update b.calling t false }
  move t now b :=
    if b.calling t = false ∧ b.now ≤ now then
      match b.state.worker t with
      | .enqueue _ _ _ => none
      | .dequeue _ _ _ => none
      | _ => (W.step t now b.state).map fun (s, _) => { b with state := s, now := now }
    else none

end Workload

/-! ### What the calls stand for -/

section abstract

variable {V : Type} {count n : ℕ} (L : Layout V count)

/-- Where a worker is, when a call has taken effect at once. -/
def Layout.point (w : Worker) : Option (AtomicQueue.Local V) → Worker
  | some (.done v) => L.returned w v
  | _ => w

/-- The item that has been dequeued in a call that has not returned. -/
def Layout.inHand : Option (AtomicQueue.Local V) → Option ℕ
  | some (.done (.dequeued true x)) => some (L.index x)
  | _ => none

/-- How far a call has come: it is made, it takes effect, it returns. -/
def advance : Option (AtomicQueue.Local V) → ℕ
  | some (.pending _) => 0
  | none => 1
  | some (.done _) => 2

/-- The state of the benchmark over a list that a state with a queue stands for. -/
def Layout.view (s : State n) (c : Config (Fin n) (List V) (AtomicQueue.Local V)) : State n :=
  { s with
    worker := fun t => L.point (s.worker t) (c.thread t)
    queue := c.shared.map L.index }

variable {L} {s : State n} {c : Config (Fin n) (List V) (AtomicQueue.Local V)} {t : Fin n}

theorem State.ext {s s' : State n} (hworker : s.worker = s'.worker) (hqueue : s.queue = s'.queue)
    (hitems : s.items = s'.items) (harrived : s.arrived = s'.arrived)
    (hstarts : s.starts = s'.starts) (hends : s.ends = s'.ends) :
  s = s'
  := by
  cases s
  cases s'
  simp_all

/-- When an access of a call is made, the worker moves on and the list changes. -/
theorem view_put {q : List V} {l : Option (AtomicQueue.Local V)} :
  L.view s (c.put t q l) =
    { (L.view s c).goto t (L.point (s.worker t) l) with queue := q.map L.index }
  := by
  apply State.ext
  case hworker =>
    funext u
    by_cases hu : u = t
    · subst hu
      simp [Layout.view, State.goto]
    · simp [Layout.view, State.goto, hu, Config.put_thread_of_ne hu]
  all_goals rfl

/-- Outside of calls a worker is where it is. -/
theorem view_goto {w : Worker} (ht : c.thread t = none) :
  L.view (s.goto t w) c = (L.view s c).goto t w
  := by
  apply State.ext
  case hworker =>
    funext u
    by_cases hu : u = t
    · subst hu
      simp [Layout.view, State.goto, ht, Layout.point]
    · simp [Layout.view, State.goto, hu]
  all_goals rfl

/-- When a worker goes from a point to one that stands for the same, the state over the list stays as
it is. -/
theorem view_same {w : Worker} {l : Option (AtomicQueue.Local V)}
    (hl : L.point w l = L.point (s.worker t) (c.thread t)) :
  L.view (s.goto t w) (c.put t c.shared l) = L.view s c
  := by
  apply State.ext
  case hworker =>
    funext u
    by_cases hu : u = t
    · subst hu
      simp [Layout.view, State.goto, hl]
    · simp [Layout.view, State.goto, hu, Config.put_thread_of_ne hu]
  all_goals rfl

theorem goto_self :
  s.goto t (s.worker t) = s
  := by
  apply State.ext
  case hworker => exact Function.update_eq_self t s.worker
  all_goals rfl

/-- How many workers have the item `x` in hand changes with the worker that moves. -/
theorem inHand_put (q : List V) (l : Option (AtomicQueue.Local V)) (x : ℕ) :
  (Finset.univ.filter fun u => L.inHand ((c.put t q l).thread u) = some x).card +
      (if L.inHand (c.thread t) = some x then 1 else 0) =
    (Finset.univ.filter fun u => L.inHand (c.thread u) = some x).card +
      if L.inHand l = some x then 1 else 0
  := card_update_add (fun l => L.inHand l = some x) c.thread t l

theorem advance_put (q : List V) (l : Option (AtomicQueue.Local V)) :
  ∑ u, advance ((c.put t q l).thread u) + advance (c.thread t) =
    ∑ u, advance (c.thread u) + advance l
  := sum_update_add c.thread advance t l

end abstract

namespace Workload

variable {W : Workload} {V : Type} {L : Layout V W.items.length}

/-- Where worker `t` and the atomic queue are in a call, where `calling` says if it is in one. -/
inductive At (L : Layout V W.items.length) (t : Fin W.nThreads) :
    Worker → Bool → Option (AtomicQueue.Local V) → Prop where
  | idle (w : Worker) : At L t w false none
  | enqueue (i : ℕ) (rng : UInt64) (sample : Bool) :
      At L t (.enqueue i rng sample) true (some (.pending (.enqueue (L.item (W.myItem t i)))))
  | enqueued (i : ℕ) (rng : UInt64) (sample : Bool) :
      At L t (.enqueue i rng sample) true (some (.done .enqueued))
  | dequeue (i : ℕ) (rng : UInt64) (t₀ : ℤ) (out : V) :
      At L t (.dequeue i rng t₀) true (some (.pending (.dequeue out)))
  | dequeued (i : ℕ) (rng : UInt64) (t₀ : ℤ) {x : ℕ} (inside : x < W.items.length) :
      At L t (.dequeue i rng t₀) true (some (.done (.dequeued true (L.item x))))

/-- The workers with the atomic queue have done what the workers may do with a list. -/
structure Refined (L : Layout V W.items.length)
    (w : List (Fin W.nThreads × Deed (QueueOp V) (QueueRes V) ℤ)) (b : Bench W.nThreads)
    (c : Config (Fin W.nThreads) (List V) (AtomicQueue.Local V)) : Prop where
  pointers : ∀ v ∈ c.shared, ∃ x < W.items.length, v = L.item x
  at_ : ∀ t, At L t (b.state.worker t) (b.calling t) (c.thread t)
  served : ∀ t x, (t, .ret (.dequeued false x)) ∉ w
  done : ∃ log, Timed W.step W.init log (L.view b.state c) b.now ∧
    (∀ x, total log (.dequeue x) = (W.receipts L w).count x +
      (Finset.univ.filter fun t => L.inHand (c.thread t) = some x).card) ∧
    w.length + ∑ t, advance (c.thread t) ≤ 2 * log.length + W.nThreads

/-- A return with an item adds it to what has been received. -/
theorem count_receipts (w : List (Fin W.nThreads × Deed (QueueOp V) (QueueRes V) ℤ))
    (t : Fin W.nThreads) (d : Deed (QueueOp V) (QueueRes V) ℤ) (x : ℕ) :
  (W.receipts L (w ++ [(t, d)])).count x =
    (W.receipts L w).count x + if L.received d = some x then 1 else 0
  := by
  rw [receipts, List.filterMap_append, List.count_append]
  cases hd : L.received d with
  | none => simp [hd, receipts]
  | some y => simp [hd, receipts, List.count_singleton]

section steps

variable [DecidableEq V] {t₀ : ℤ} {b b' : Bench W.nThreads}
  {c c' : Config (Fin W.nThreads) (List V) (AtomicQueue.Local V)} {t : Fin W.nThreads}
  {w : List (Fin W.nThreads × Deed (QueueOp V) (QueueRes V) ℤ)}

omit [DecidableEq V] in
/-- A step that does not access the queue may be made with the list. -/
theorem step_view {s s' : State W.nThreads} {now : ℤ} {e : Action} (ht : c.thread t = none)
    (haccess : ¬ (s.worker t).Accesses) (hs : W.step t now s = some (s', e)) :
  ∃ v, s'.worker = Function.update s.worker t v ∧
    W.step t now (L.view s c) = some (L.view s' c, e) ∧ ∀ x, e ≠ .dequeue x
  := by
  have hview : (L.view s c).worker t = s.worker t := by
    simp [Layout.view, ht, Layout.point]
  have hput : ∀ v, (L.view s c).goto t v = L.view (s.goto t v) c := fun v => (view_goto ht).symm
  have hitems : (L.view s c).items = s.items := rfl
  cases hw : s.worker t with
  | enqueue | dequeue =>
      rw [hw] at haccess
      exact absurd trivial haccess
  | ended =>
      simp only [step, hw] at hs
      cases hs
  | wait =>
      simp only [step, hw] at hs
      split at hs
      case isFalse => cases hs
      case isTrue harrived =>
        cases hs
        refine ⟨_, rfl, ?_, by simp⟩
        simp only [step, hview, hw, hput]
        exact if_pos harrived
  | loop =>
      simp only [step, hw] at hs
      split at hs
      case isTrue hlt =>
        cases hs
        refine ⟨_, rfl, ?_, by simp⟩
        simp only [step, hview, hw, hput]
        exact if_pos hlt
      case isFalse hge =>
        cases hs
        refine ⟨_, rfl, ?_, by simp⟩
        simp only [step, hview, hw, hput]
        exact if_neg hge
  | check | checkGot =>
      simp only [step, hw] at hs
      obtain ⟨item, hitem, heq⟩ := Option.map_eq_some_iff.mp hs
      simp only [step, hview, hw, hput, hitems, hitem, Option.map_some]
      cases hflag : item.shouldSample with
      | true =>
          simp only [hflag, if_true] at heq ⊢
          cases heq
          exact ⟨_, rfl, rfl, by simp⟩
      | false =>
          simp only [hflag, Bool.false_eq_true, if_false] at heq ⊢
          cases heq
          exact ⟨_, rfl, rfl, by simp⟩
  | work | clock | rest =>
      simp only [step, hw] at hs
      cases hs
      refine ⟨_, rfl, ?_, by simp⟩
      simp only [step, hview, hw, hput]
  | begin | arrive | finish =>
      simp only [step, hw] at hs
      cases hs
      refine ⟨_, rfl, ?_, by simp⟩
      simp only [step, hview, hw, hput]
      rfl
  | enqueueStart | enqueueDone | dequeueStart | dequeueDone =>
      simp only [step, hw] at hs
      cases hs
      refine ⟨_, rfl, ?_, by simp⟩
      rw [view_goto ht]
      simp only [step, hview, hw]
      rfl

/-- What a worker that makes a step of its own does. -/
theorem move_inv {now : ℤ} (hmove : (W.client L t₀).move t now b = some b') :
  b.calling t = false ∧ b.now ≤ now ∧ ¬ (b.state.worker t).Accesses ∧
    ∃ e, W.step t now b.state = some (b'.state, e) ∧ b'.calling = b.calling ∧ b'.now = now
  := by
  simp only [client] at hmove
  split at hmove
  case isFalse => cases hmove
  case isTrue hcan =>
    refine ⟨hcan.1, hcan.2, ?_⟩
    cases hw : b.state.worker t with
    | enqueue | dequeue => simp [hw] at hmove
    | _ =>
        simp only [hw] at hmove
        obtain ⟨⟨s', e⟩, hs, heq⟩ := Option.map_eq_some_iff.mp hmove
        cases heq
        exact ⟨not_false, e, hs, rfl, rfl⟩

/-- What a worker that calls the queue does. -/
theorem call_inv {o : QueueOp V} (hcall : (W.client L t₀).call t o b = some b') :
  b' = { b with calling := Function.update b.calling t true } ∧
    At L t (b.state.worker t) true (some (.pending o))
  := by
  simp only [client] at hcall
  split at hcall
  case h_1 i rng sample x hw =>
    split at hcall
    case isTrue hcan =>
      cases hcall
      rw [hw, hcan.2]
      exact ⟨rfl, .enqueue i rng sample⟩
    case isFalse => cases hcall
  case h_2 i rng t₁ out hw =>
    split at hcall
    case isTrue =>
      cases hcall
      rw [hw]
      exact ⟨rfl, .dequeue i rng t₁ out⟩
    case isFalse => cases hcall
  case h_3 => cases hcall

/-- A call leaves the list as it is. -/
theorem Refined.call {o : QueueOp V} (h : Refined L w b c)
    (hstep : (AtomicQueue.machine (Fin W.nThreads) V).Step c t (.call o) c')
    (hcall : (W.client L t₀).call t o b = some b') :
  Refined L (w ++ [(t, .call o)]) b' c'
  := by
  obtain ⟨hidle, -, rfl⟩ := hstep.call_inv
  obtain ⟨rfl, hat⟩ := call_inv hcall
  constructor
  case pointers => exact h.pointers
  case at_ =>
    intro u
    by_cases hu : u = t
    · subst hu
      rw [Config.put_thread_self]
      simp only [Function.update_self]
      exact hat
    · rw [Config.put_thread_of_ne hu]
      simp only [Function.update_of_ne hu]
      exact h.at_ u
  case served =>
    intro u x hmem
    rcases List.mem_append.mp hmem with hmem | hmem
    · exact h.served u x hmem
    · cases List.mem_singleton.mp hmem
  case done =>
    obtain ⟨log, htimed, hcount, hlength⟩ := h.done
    refine ⟨log, ?_, ?_, ?_⟩
    · have hview : L.view b.state (c.put t c.shared (some (.pending o))) = L.view b.state c := by
        conv_lhs => rw [← goto_self (s := b.state) (t := t)]
        apply view_same
        rw [hidle]
        rfl
      dsimp only [AtomicQueue.machine]
      rw [hview]
      exact htimed
    · intro x
      have hcard := inHand_put (L := L) (c := c) (t := t) c.shared (some (.pending o)) x
      rw [hidle] at hcard
      rw [count_receipts, hcount x]
      exact congrArg (fun k => (W.receipts L w).count x + 0 + k) hcard.symm
    · have hsum := advance_put (c := c) (t := t) c.shared (some (.pending o))
      rw [hidle] at hsum
      change _ + 1 = _ + 0 at hsum
      rw [List.length_append, List.length_singleton]
      dsimp only [AtomicQueue.machine]
      omega

/-- A return leaves the list as it is: the worker has moved on when the call took effect. -/
theorem Refined.ret {v : QueueRes V} (h : Refined L w b c)
    (hstep : (AtomicQueue.machine (Fin W.nThreads) V).Step c t (.ret v) c') :
  Refined L (w ++ [(t, .ret v)]) ((W.client L t₀).ret t v b) c'
  := by
  obtain ⟨l, hbusy, hl, rfl⟩ := hstep.ret_inv
  obtain rfl : l = .done v := by
    cases l with
    | pending => cases hl
    | done v' => cases hl; rfl
  have hat := h.at_ t
  rw [hbusy] at hat
  constructor
  case pointers => exact h.pointers
  case at_ =>
    intro u
    by_cases hu : u = t
    · subst hu
      rw [Config.put_thread_self]
      simp only [client, Function.update_self]
      exact .idle _
    · rw [Config.put_thread_of_ne hu]
      simp only [client, State.goto, Function.update_of_ne hu]
      exact h.at_ u
  case served =>
    intro u x hmem
    rcases List.mem_append.mp hmem with hmem | hmem
    · exact h.served u x hmem
    · cases List.mem_singleton.mp hmem
      generalize b.state.worker t = w₀ at hat
      generalize b.calling t = b₀ at hat
      cases hat
  case done =>
    obtain ⟨log, htimed, hcount, hlength⟩ := h.done
    refine ⟨log, ?_, ?_, ?_⟩
    · have hview : L.view (b.state.goto t (L.returned (b.state.worker t) v))
          (c.put t c.shared none) = L.view b.state c := by
        apply view_same
        rw [hbusy]
        rfl
      dsimp only [client]
      rw [hview]
      exact htimed
    · intro x
      have hcard := inHand_put (L := L) (c := c) (t := t) c.shared none x
      rw [hbusy] at hcard
      have hreceived : L.received (.ret v) = L.inHand (some (.done v)) := by
        rcases v with _ | ⟨_ | _, _⟩
        all_goals rfl
      rw [count_receipts, hcount x, hreceived, Nat.add_assoc]
      apply congrArg ((W.receipts L w).count x + ·)
      rw [Nat.add_comm (ite _ _ _)]
      exact hcard.symm
    · have hsum := advance_put (c := c) (t := t) c.shared none
      rw [hbusy] at hsum
      change _ + 2 = _ + 1 at hsum
      rw [List.length_append, List.length_singleton]
      omega

omit [DecidableEq V] in
theorem At.pending_inv {v : Worker} {calling : Bool} {o : QueueOp V}
    (h : At L t v calling (some (.pending o))) :
  calling = true ∧
    ((∃ i rng sample, v = .enqueue i rng sample ∧ o = .enqueue (L.item (W.myItem t i))) ∨
      ∃ i rng t₁ out, v = .dequeue i rng t₁ ∧ o = .dequeue out)
  := by
  cases h with
  | enqueue i rng sample => exact ⟨rfl, Or.inl ⟨i, rng, sample, rfl, rfl⟩⟩
  | dequeue i rng t₁ out => exact ⟨rfl, Or.inr ⟨i, rng, t₁, out, rfl, rfl⟩⟩

omit [DecidableEq V] in
/-- A call takes effect, by which the list becomes `q`. -/
theorem Refined.effect {o : QueueOp V} {v : QueueRes V} {q : List V} {e : Action}
    (h : Refined L w b c) (hbusy : c.thread t = some (.pending o))
    (hpointers : ∀ v ∈ q, ∃ x < W.items.length, v = L.item x)
    (hat : At L t (b.state.worker t) (b.calling t) (some (.done v)))
    (hs : W.step t b.now (L.view b.state c) =
      some (L.view b.state (c.put t q (some (.done v))), e))
    (hdequeue : ∀ x, e = .dequeue x ↔ L.inHand (some (.done v)) = some x) :
  Refined L w b (c.put t q (some (.done v)))
  := by
  constructor
  case pointers => exact hpointers
  case at_ =>
    intro u
    by_cases hu : u = t
    · subst hu
      rw [Config.put_thread_self]
      exact hat
    · rw [Config.put_thread_of_ne hu]
      exact h.at_ u
  case served => exact h.served
  case done =>
    obtain ⟨log, htimed, hcount, hlength⟩ := h.done
    refine ⟨_, htimed.step hs, ?_, ?_⟩
    · intro x
      have hcard := inHand_put (L := L) (c := c) (t := t) q (some (.done v)) x
      rw [hbusy] at hcard
      rw [total_append, hcount x, if_congr (hdequeue x) rfl rfl, Nat.add_assoc]
      exact congrArg ((W.receipts L w).count x + ·) hcard.symm
    · have hsum := advance_put (c := c) (t := t) q (some (.done v))
      rw [hbusy] at hsum
      change _ + 0 = _ + 2 at hsum
      rw [List.length_append, List.length_singleton]
      omega

omit [DecidableEq V] in
/-- What the queue holds is what the list holds. -/
theorem Refined.inv (h : Refined L w b c) :
  ∃ log, W.Inv log (L.view b.state c)
  := by
  obtain ⟨log, htimed, -, -⟩ := h.done
  exact ⟨log, Workload.inv htimed.execution⟩

omit [DecidableEq V] in
/-- An access to the queue is one to the list. -/
theorem Refined.act {tag : Unit} (h : Refined L w b c)
    (hstep : (AtomicQueue.machine (Fin W.nThreads) V).Step c t (.act tag) c') :
  Refined L w b c'
  := by
  obtain ⟨l, out, q, l', hbusy, hs, rfl⟩ := hstep.act_inv
  obtain ⟨log, hinv⟩ := h.inv
  have hat := h.at_ t
  have hview : (L.view b.state c).worker t = L.point (b.state.worker t) (c.thread t) := rfl
  rw [hbusy] at hat hview
  cases l with
  | done => cases hs
  | pending o =>
      have hvalid := (hinv.record t).valid
      rw [hview] at hvalid
      obtain ⟨hcalling, ⟨i, rng, sample, hw, rfl⟩ | ⟨i, rng, t₁, out₁, hw, rfl⟩⟩ := hat.pending_inv
      · cases hs
        rw [hw] at hview hvalid
        have hlt : W.myItem t i < W.items.length := myItem_lt hvalid.1
        apply h.effect hbusy (e := .enqueue (W.myItem t i))
        case hpointers =>
          intro v hv
          rcases List.mem_append.mp hv with hv | hv
          · exact h.pointers v hv
          · exact ⟨_, hlt, List.mem_singleton.mp hv⟩
        case hat =>
          rw [hw, hcalling]
          exact .enqueued i rng sample
        case hs =>
          rw [view_put]
          simp only [step, hview, Layout.point]
          rw [List.map_append, List.map_singleton, L.index_item _ hlt, hw]
          rfl
        case hdequeue => simp [Layout.inHand]
      · rw [hw] at hview
        have hlist : (L.view b.state c).queue = c.shared.map L.index := rfl
        have hs' : (AtomicQueue.machine (Fin W.nThreads) V).step t out c.shared
            (.pending (.dequeue out₁)) = some (q, l', tag) := hs
        simp only [AtomicQueue.machine] at hs'
        split at hs'
        case h_1 hempty =>
          rw [hempty] at hlist
          have hgo : W.Goes t ((L.view b.state c).worker t) .refused (.clock i rng) := by
            rw [hview]
            exact .refused i rng t₁
          have hserves : Serves .refused (L.view b.state c).queue [] := by
            rw [hlist]
            exact .refused
          exact absurd rfl (hinv.not_refused hgo hserves)
        case h_2 v q' hshared =>
          cases hs'
          rw [hshared] at hlist
          obtain ⟨x, hlt, rfl⟩ := h.pointers v (by rw [hshared]; exact List.mem_cons_self)
          apply h.effect hbusy (e := .dequeue x)
          case hpointers =>
            intro v hv
            apply h.pointers v
            rw [hshared]
            exact List.mem_cons_of_mem _ hv
          case hat =>
            rw [hw, hcalling]
            exact .dequeued i rng t₁ hlt
          case hs =>
            rw [view_put]
            simp only [step, hview, hlist, Layout.point, Layout.returned, List.map_cons,
              L.index_item x hlt, hw]
          case hdequeue => simp [Layout.inHand, L.index_item x hlt]

omit [DecidableEq V] in
theorem At.none_inv {v : Worker} {calling : Bool} (h : At L t v calling none) :
  calling = false
  := by
  cases h with
  | idle => rfl

omit [DecidableEq V] in
theorem At.not_calling {v : Worker} {l : Option (AtomicQueue.Local V)} (h : At L t v false l) :
  l = none
  := by
  cases h with
  | idle => rfl

/-- The other steps of the workers are those with the list. -/
theorem Refined.move {now : ℤ} (h : Refined L w b c)
    (hmove : (W.client L t₀).move t now b = some b') :
  Refined L (w ++ [(t, .move now)]) b' c
  := by
  obtain ⟨hidle, hle, haccess, e, hs, hcalling, hnow⟩ := move_inv hmove
  have hat := h.at_ t
  rw [hidle] at hat
  have ht := hat.not_calling
  obtain ⟨v, hw, hview, hdequeue⟩ := step_view ht haccess hs
  constructor
  case pointers => exact h.pointers
  case at_ =>
    intro u
    rw [hcalling, hw]
    by_cases hu : u = t
    · rw [hu, Function.update_self, hidle, ht]
      exact .idle v
    · rw [Function.update_of_ne hu]
      exact h.at_ u
  case served =>
    intro u x hmem
    rcases List.mem_append.mp hmem with hmem | hmem
    · exact h.served u x hmem
    · cases List.mem_singleton.mp hmem
  case done =>
    obtain ⟨log, htimed, hcount, hlength⟩ := h.done
    rw [hnow]
    refine ⟨_, (htimed.wait hle).step hview, ?_, ?_⟩
    · intro x
      rw [total_append, if_neg (hdequeue x), hcount x, count_receipts]
      rfl
    · rw [List.length_append, List.length_append, List.length_singleton, List.length_singleton]
      omega

/-- Whatever the workers do with the atomic queue, they may do with a list. -/
theorem refined (hafter : (W.client L t₀).after w = some b)
    (htraces : (AtomicQueue.machine (Fin W.nThreads) V).Traces (reports w) c) :
  Refined L w b c
  := by
  apply Client.invariant (Refined L) ?start ?call ?ret ?move ?act hafter htraces
  case start =>
    constructor
    case pointers => rintro v ⟨⟩
    case at_ => exact fun t => .idle _
    case served => rintro t x ⟨⟩
    case done => exact ⟨[], .start t₀, by simp [receipts, Layout.inHand], by simp [advance]⟩
  case call => exact fun _ _ _ _ _ _ _ h hstep hcall => h.call hstep hcall
  case ret => exact fun _ _ _ _ _ _ h hstep => h.ret hstep
  case move => exact fun _ _ _ _ _ _ h hmove => h.move hmove
  case act => exact fun _ _ _ _ _ _ h hstep => h.act hstep

omit [DecidableEq V] in
/-- Whether a worker can step without an access to the queue depends neither on the list nor on the
clock. -/
theorem exists_step_of_view {s : State W.nThreads} {now now' : ℤ} {r : State W.nThreads × Action}
    (ht : c.thread t = none) (haccess : ¬ (s.worker t).Accesses)
    (hs : W.step t now (L.view s c) = some r) :
  ∃ s' e, W.step t now' s = some (s', e)
  := by
  have hview : (L.view s c).worker t = s.worker t := by
    simp [Layout.view, ht, Layout.point]
  have hitems : (L.view s c).items = s.items := rfl
  have harrived : (L.view s c).arrived = s.arrived := rfl
  cases hw : s.worker t with
  | enqueue | dequeue =>
      rw [hw] at haccess
      exact absurd trivial haccess
  | ended =>
      simp only [step, hview, hw] at hs
      cases hs
  | wait =>
      simp only [step, hview, hw, harrived] at hs
      split at hs
      case isTrue heq =>
        simp only [step, hw, if_pos heq]
        exact ⟨_, _, rfl⟩
      case isFalse => cases hs
  | loop i rng =>
      simp only [step, hw]
      split
      · exact ⟨_, _, rfl⟩
      · exact ⟨_, _, rfl⟩
  | check | checkGot =>
      simp only [step, hview, hw, hitems] at hs
      obtain ⟨item, hitem, -⟩ := Option.map_eq_some_iff.mp hs
      simp only [step, hw, hitem]
      cases item.shouldSample with
      | true => exact ⟨_, _, rfl⟩
      | false => exact ⟨_, _, rfl⟩
  | _ =>
      simp only [step, hw]
      exact ⟨_, _, rfl⟩

/-- When nobody is in a call and not all have ended, some worker can go on. -/
theorem Refined.progress (h : Refined L w b c) (hquiet : ∀ t, b.calling t = false)
    (hended : b.state.worker t ≠ .ended) :
  ∃ u b', (∃ o, (W.client L t₀).call u o b = some b') ∨ ∃ now, (W.client L t₀).move u now b = some b'
  := by
  have hidle : ∀ u, c.thread u = none := by
    intro u
    have hat := h.at_ u
    rw [hquiet u] at hat
    exact hat.not_calling
  have hview : ∀ u, (L.view b.state c).worker u = b.state.worker u := by
    intro u
    simp [Layout.view, hidle u, Layout.point]
  obtain ⟨log, hinv⟩ := h.inv
  obtain ⟨u, now, s', e, -, hs⟩ := hinv.progress (t := t) (by rwa [hview])
  use u
  cases hw : b.state.worker u with
  | enqueue i rng sample =>
      refine ⟨{ b with calling := Function.update b.calling u true },
        Or.inl ⟨.enqueue (L.item (W.myItem u i)), ?_⟩⟩
      simp only [client, hw, and_true]
      apply if_pos (hquiet u)
  | dequeue i rng t₁ =>
      refine ⟨{ b with calling := Function.update b.calling u true },
        Or.inl ⟨.dequeue (L.item 0), ?_⟩⟩
      simp only [client, hw]
      apply if_pos (hquiet u)
  | _ =>
      have haccess : ¬ (b.state.worker u).Accesses := by
        rw [hw]
        exact not_false
      have hstep : ∃ s₁ e₁, W.step u b.now b.state = some (s₁, e₁) :=
        exists_step_of_view (hidle u) haccess hs
      obtain ⟨s₁, e₁, hs₁⟩ := hstep
      refine ⟨{ b with state := s₁ }, Or.inr ⟨b.now, ?_⟩⟩
      simp only [client]
      rw [if_pos ⟨hquiet u, le_rfl⟩]
      simp only [hw, hs₁]
      rfl

end steps

/-! ### With every queue -/

/-- What holds of the workers with a queue, after they have done `w`. -/
structure Sound [DecidableEq V] (L : Layout V W.items.length) (t₀ : ℤ)
    (w : List (Fin W.nThreads × Deed (QueueOp V) (QueueRes V) ℤ)) (b : Bench W.nThreads) :
    Prop where
  /-- No dequeue returns `false`. -/
  served : ∀ t x, (t, .ret (.dequeued false x)) ∉ w
  /-- When nobody is in a call, the state is one that the workers reach with a list. -/
  refines : (∀ t, b.calling t = false) →
    ∃ log queue, Timed W.step W.init log { b.state with queue := queue } b.now
  progress : (∀ t, b.calling t = false) → (∃ t, b.state.worker t ≠ .ended) →
    ∃ u b', (∃ o, (W.client L t₀).call u o b = some b') ∨
      ∃ now, (W.client L t₀).move u now b = some b'
  bounded : w.length ≤ W.nThreads * (24 * W.opsPerThread + 11)
  /-- In the end each item has been received once. -/
  complete : (∀ t, b.state.worker t = .ended) →
    (W.receipts L w).Perm (List.range W.items.length) ∧
      ∃ log, Timed W.step W.init log { b.state with queue := [] } b.now

variable (W) in
/-- The workers are sound with the object `M` in the runs with `P`. -/
def SoundWith [DecidableEq V] {σ ℓ Tag Ch : Type}
    (M : Machine (Fin W.nThreads) σ ℓ (QueueOp V) (QueueRes V) Tag Ch)
    (P : ∀ n, M.Run n → Prop) : Prop :=
  ∀ (L : Layout V W.items.length) (t₀ : ℤ)
    (w : List (Fin W.nThreads × Deed (QueueOp V) (QueueRes V) ℤ)) (b : Bench W.nThreads) (n : ℕ)
    (r : M.Run n),
    (W.client L t₀).after w = some b → P n r → reports w = r.history n → W.Sound L t₀ w b

section sound

variable [DecidableEq V] {t₀ : ℤ} {b : Bench W.nThreads}
  {c : Config (Fin W.nThreads) (List V) (AtomicQueue.Local V)}
  {w : List (Fin W.nThreads × Deed (QueueOp V) (QueueRes V) ℤ)}

omit [DecidableEq V] in
/-- Outside of calls the workers are where they are with the list. -/
theorem Refined.view_eq (h : Refined L w b c) (hquiet : ∀ t, b.calling t = false) :
  L.view b.state c = { b.state with queue := c.shared.map L.index }
  := by
  apply State.ext
  case hworker =>
    funext t
    have hat := h.at_ t
    rw [hquiet t] at hat
    simp [Layout.view, hat.not_calling, Layout.point]
  all_goals rfl

omit [DecidableEq V] in
/-- A worker that has ended is in no call. -/
theorem At.of_ended {t : Fin W.nThreads} {calling : Bool} {l : Option (AtomicQueue.Local V)}
    (h : At L t .ended calling l) :
  calling = false ∧ l = none
  := by
  cases h with
  | idle => exact ⟨rfl, rfl⟩

/-- What is dequeued in the end is each item, once. -/
theorem Inv.total_dequeue_eq {log : List (Fin W.nThreads × Action)} {s : State W.nThreads}
    (h : W.Inv log s) (hended : ∀ t, s.worker t = .ended) (x : ℕ) :
  total log (.dequeue x) = (List.range W.items.length).count x
  := by
  rw [List.nodup_range.count]
  by_cases hx : x < W.items.length
  · rw [h.total_dequeue hended hx, if_pos (List.mem_range.mpr hx)]
  · rw [if_neg (by rwa [List.mem_range])]
    have henqueue : total log (.enqueue x) = 0 := by
      rw [total_eq_sum]
      apply Finset.sum_eq_zero
      intro t _
      rw [h.tally_enqueue hended, if_neg]
      intro howner
      apply hx
      have hlt := t.isLt
      have hle : (t + 1) * W.opsPerThread ≤ W.nThreads * W.opsPerThread :=
        Nat.mul_le_mul_right _ hlt
      rw [Nat.add_mul, Nat.one_mul] at hle
      rw [length_items_eq, Nat.mul_comm]
      exact lt_of_lt_of_le howner.2 hle
    have hkept := h.kept x
    omega

theorem Refined.sound (h : Refined L w b c) :
  W.Sound L t₀ w b
  := by
  constructor
  case served => exact h.served
  case refines =>
    intro hquiet
    obtain ⟨log, htimed, -, -⟩ := h.done
    rw [h.view_eq hquiet] at htimed
    exact ⟨log, _, htimed⟩
  case progress =>
    rintro hquiet ⟨t, ht⟩
    apply h.progress hquiet ht
  case bounded =>
    obtain ⟨log, htimed, -, hlength⟩ := h.done
    have hbounded := (Workload.inv htimed.execution).bounded
    rw [Nat.mul_add] at hbounded ⊢
    rw [Nat.mul_left_comm] at hbounded ⊢
    omega
  case complete =>
    intro hended
    have hidle : ∀ t, b.calling t = false ∧ c.thread t = none := by
      intro t
      have hat := h.at_ t
      rw [hended t] at hat
      exact hat.of_ended
    obtain ⟨log, htimed, hcount, -⟩ := h.done
    have hview := h.view_eq fun t => (hidle t).1
    have hinv := Workload.inv htimed.execution
    have hempty : (L.view b.state c).queue = [] := by
      apply hinv.queue_nil
      rw [hview]
      exact hended
    constructor
    · apply List.perm_iff_count.mpr
      intro x
      have htotal := hcount x
      simp only [(hidle _).2, Layout.inHand, reduceCtorEq, Finset.filter_false, Finset.card_empty,
        Nat.add_zero] at htotal
      rw [← htotal]
      apply hinv.total_dequeue_eq
      rw [hview]
      exact hended
    · use log
      rw [hview] at htimed hempty
      simp only at hempty
      rw [hempty] at htimed
      exact htimed

/-- The workers are sound with whatever implements a queue. -/
theorem soundWith {σ ℓ Tag Ch : Type}
    {M : Machine (Fin W.nThreads) σ ℓ (QueueOp V) (QueueRes V) Tag Ch}
    {P : ∀ n, M.Run n → Prop} (hM : M.ImplementsQueue P) :
  W.SoundWith M P
  := by
  intro L t₀ w b n r hafter hr hw
  obtain ⟨c, htraces⟩ := hM n r hr
  rw [← hw] at htraces
  apply (refined hafter htraces).sound

end sound

end Workload

end Benchmark
