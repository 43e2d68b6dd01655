import ConcurrentQueues.Benchmark.Sampling

/-!
# The benchmark conserves items

The number of items in the queue is the number of workers that have enqueued in their present round
and not dequeued yet. A worker about to dequeue is one of them, so it does not find the queue empty,
and no worker spins. Each worker enqueues its own section of the items; since what has been enqueued
has been dequeued or is in the queue, each item is dequeued once, by some worker.
-/

namespace Benchmark

/-! ### Where a worker is -/

/-- The enqueue of the present round has taken effect and the dequeue has not. -/
def Worker.Between : Worker → Prop
  | .enqueueDone .. | .work .. | .clock .. | .dequeue .. => True
  | _ => False

instance : DecidablePred Worker.Between
  | .enqueueDone .. | .work .. | .clock .. | .dequeue .. => isTrue trivial
  | .arrive | .wait | .begin | .loop .. | .check .. | .enqueueStart .. | .enqueue .. | .checkGot ..
  | .dequeueStart .. | .dequeueDone .. | .rest .. | .finish .. | .ended => isFalse not_false

/-- The number of rounds a worker has completed, out of `ops`. -/
def Worker.round (ops : ℕ) : Worker → ℕ
  | .arrive | .wait | .begin => 0
  | .loop i _ | .check i _ | .enqueueStart i _ | .enqueue i _ _ | .enqueueDone i _ | .work i _
  | .clock i _ | .dequeue i _ _ | .checkGot i _ _ _ | .dequeueStart i _ _ _ | .dequeueDone i _ _
  | .rest i _ => i
  | .finish _ | .ended => ops

/-- The number of steps from the top of the loop to a point in the loop. -/
def Worker.stage : Worker → ℕ
  | .arrive | .wait | .begin | .loop .. | .finish .. | .ended => 0
  | .check .. => 1
  | .enqueueStart .. => 2
  | .enqueue .. => 3
  | .enqueueDone .. => 4
  | .work .. => 5
  | .clock .. => 6
  | .dequeue .. => 7
  | .checkGot .. => 8
  | .dequeueStart .. => 9
  | .dequeueDone .. => 10
  | .rest .. => 11

/-- The number of rounds in which a worker is past the point at `stage`. -/
def Worker.passed (ops stage : ℕ) (w : Worker) : ℕ :=
  w.round ops + if stage < w.stage then 1 else 0

/-- The number of steps a worker has before it, if it is never refused. -/
def Worker.remaining (ops : ℕ) (w : Worker) : ℕ :=
  match w with
  | .arrive => 12 * ops + 5
  | .wait => 12 * ops + 4
  | .begin => 12 * ops + 3
  | .loop .. | .check .. | .enqueueStart .. | .enqueue .. | .enqueueDone .. | .work .. | .clock ..
  | .dequeue .. | .checkGot .. | .dequeueStart .. | .dequeueDone .. | .rest .. =>
      12 * (ops - w.round ops) + 2 - w.stage
  | .finish _ => 1
  | .ended => 0

/-- The item whose stamp at the given stage is to be written by a worker if it is sampled. -/
def Worker.owes : Stamp → Worker → Option ℕ
  | .dequeueStart, .checkGot _ _ _ got | .dequeueStart, .dequeueStart _ _ _ got => some got
  | .dequeueDone, .checkGot _ _ _ got | .dequeueDone, .dequeueStart _ _ _ got
  | .dequeueDone, .dequeueDone _ _ got => some got
  | _, _ => none

namespace Workload

variable (W : Workload)

/-- The item with index `x` is to be sampled. -/
def Sampled (x : ℕ) : Prop := W.items[x]?.map TestItem.shouldSample = some true

instance : DecidablePred W.Sampled := fun _ => inferInstanceAs (Decidable (_ = _))

/-- The item with index `x` is among the first `k` of the section of worker `t`. -/
def Own (t : Fin W.nThreads) (k x : ℕ) : Prop :=
  t * W.opsPerThread ≤ x ∧ x < t * W.opsPerThread + k

instance (t : Fin W.nThreads) (k : ℕ) : DecidablePred (W.Own t k) :=
  fun _ => inferInstanceAs (Decidable (_ ∧ _))

/-- How worker `t` moves, and what it does. -/
inductive Goes (t : Fin W.nThreads) : Worker → Action → Worker → Prop where
  | arrive : Goes t .arrive .silent .wait
  | wait : Goes t .wait .silent .begin
  | begin (rng : UInt64) : Goes t .begin .silent (.loop 0 rng)
  | enter {i : ℕ} (rng : UInt64) (h : i < W.opsPerThread) :
      Goes t (.loop i rng) .silent (.check i rng)
  | leave {i : ℕ} (rng : UInt64) (h : W.opsPerThread ≤ i) :
      Goes t (.loop i rng) .silent (.finish rng)
  | sample {i : ℕ} (rng : UInt64) (h : W.Sampled (W.myItem t i)) :
      Goes t (.check i rng) .silent (.enqueueStart i rng)
  | skip {i : ℕ} (rng : UInt64) (h : ¬ W.Sampled (W.myItem t i)) :
      Goes t (.check i rng) .silent (.enqueue i rng false)
  | enqueueStart (i : ℕ) (rng : UInt64) :
      Goes t (.enqueueStart i rng) (.write .enqueueStart (W.myItem t i)) (.enqueue i rng true)
  | enqueueSample (i : ℕ) (rng : UInt64) :
      Goes t (.enqueue i rng true) (.enqueue (W.myItem t i)) (.enqueueDone i rng)
  | enqueue (i : ℕ) (rng : UInt64) :
      Goes t (.enqueue i rng false) (.enqueue (W.myItem t i)) (.work i rng)
  | enqueueDone (i : ℕ) (rng : UInt64) :
      Goes t (.enqueueDone i rng) (.write .enqueueDone (W.myItem t i)) (.work i rng)
  | work (i : ℕ) (rng rng' : UInt64) : Goes t (.work i rng) .silent (.clock i rng')
  | clock (i : ℕ) (rng : UInt64) (t₀ : ℤ) : Goes t (.clock i rng) .silent (.dequeue i rng t₀)
  | refused (i : ℕ) (rng : UInt64) (t₀ : ℤ) : Goes t (.dequeue i rng t₀) .refused (.clock i rng)
  | dequeue (i : ℕ) (rng : UInt64) (t₀ : ℤ) (got : ℕ) :
      Goes t (.dequeue i rng t₀) (.dequeue got) (.checkGot i rng t₀ got)
  | sampleGot (i : ℕ) (rng : UInt64) (t₀ : ℤ) {got : ℕ} (h : W.Sampled got) :
      Goes t (.checkGot i rng t₀ got) .silent (.dequeueStart i rng t₀ got)
  | skipGot (i : ℕ) (rng : UInt64) (t₀ : ℤ) {got : ℕ} (h : ¬ W.Sampled got) :
      Goes t (.checkGot i rng t₀ got) .silent (.rest i rng)
  | dequeueStart (i : ℕ) (rng : UInt64) (t₀ : ℤ) (got : ℕ) :
      Goes t (.dequeueStart i rng t₀ got) (.write .dequeueStart got) (.dequeueDone i rng got)
  | dequeueDone (i : ℕ) (rng : UInt64) (got : ℕ) :
      Goes t (.dequeueDone i rng got) (.write .dequeueDone got) (.rest i rng)
  | rest (i : ℕ) (rng rng' : UInt64) : Goes t (.rest i rng) .silent (.loop (i + 1) rng')
  | finish (rng : UInt64) : Goes t (.finish rng) .silent .ended

/-- What a worker's action does to the queue. -/
inductive Serves : Action → List ℕ → List ℕ → Prop where
  | silent (q : List ℕ) : Serves .silent q q
  | write (stamp : Stamp) (x : ℕ) (q : List ℕ) : Serves (.write stamp x) q q
  | enqueue (x : ℕ) (q : List ℕ) : Serves (.enqueue x) q (q ++ [x])
  | dequeue (x : ℕ) (q : List ℕ) : Serves (.dequeue x) (x :: q) q
  | refused : Serves .refused [] []

variable {W} {t : Fin W.nThreads} {s s' : State W.nThreads} {e : Action} {now : ℤ}

/-! ### What a step does -/

/-- Stamps leave it open or settled which items are sampled. -/
theorem write_flags (stamp : Stamp) (i : ℕ) :
  (s.write stamp i now).items.map TestItem.shouldSample = s.items.map TestItem.shouldSample
  := by
  apply List.ext_getElem?
  intro j
  rw [State.write, List.getElem?_map, List.getElem?_map, List.getElem?_modify]
  cases s.items[j]? with
  | none => rfl
  | some item =>
      by_cases hij : i = j
      · subst hij
        cases stamp with
        | _ => simp [TestItem.stamp]
      · simp [hij]

/-- A worker that reads an item learns whether it is sampled. -/
theorem read_sampled {α : Type} {i : ℕ} {yes no v : α}
    (hflags : s.items.map TestItem.shouldSample = W.items.map TestItem.shouldSample)
    (h : (s.items[i]?.map fun item => if item.shouldSample then yes else no) = some v) :
  W.Sampled i ∧ v = yes ∨ ¬ W.Sampled i ∧ v = no
  := by
  obtain ⟨item, hitem, hv⟩ := Option.map_eq_some_iff.mp h
  have hsampled : W.items[i]?.map TestItem.shouldSample = some item.shouldSample := by
    rw [← List.getElem?_map, ← hflags, List.getElem?_map, hitem]
    rfl
  cases hflag : item.shouldSample with
  | true =>
      rw [hflag] at hsampled hv
      exact Or.inl ⟨hsampled, hv.symm⟩
  | false =>
      rw [hflag] at hsampled hv
      refine Or.inr ⟨fun hyes => ?_, hv.symm⟩
      cases hsampled.symm.trans hyes

/-- What a step of worker `t` can be. -/
theorem step_inv
    (hflags : s.items.map TestItem.shouldSample = W.items.map TestItem.shouldSample)
    (hs : W.step t now s = some (s', e)) :
  ∃ w, s'.worker = Function.update s.worker t w ∧ W.Goes t (s.worker t) e w ∧
    Serves e s.queue s'.queue ∧
    s'.items.map TestItem.shouldSample = s.items.map TestItem.shouldSample ∧
    s'.arrived = s.arrived + if s.worker t = .arrive then 1 else 0
  := by
  cases hw : s.worker t with
  | arrive =>
      simp only [step, hw] at hs
      cases hs
      exact ⟨_, rfl, .arrive, .silent _, rfl, rfl⟩
  | wait =>
      simp only [step, hw] at hs
      split at hs
      · cases hs
        exact ⟨_, rfl, .wait, .silent _, rfl, rfl⟩
      · cases hs
  | begin =>
      simp only [step, hw] at hs
      cases hs
      exact ⟨_, rfl, .begin _, .silent _, rfl, rfl⟩
  | loop i rng =>
      simp only [step, hw] at hs
      split at hs
      case isTrue hlt =>
        cases hs
        exact ⟨_, rfl, .enter rng hlt, .silent _, rfl, rfl⟩
      case isFalse hge =>
        cases hs
        exact ⟨_, rfl, .leave rng (Nat.not_lt.mp hge), .silent _, rfl, rfl⟩
  | check i rng =>
      simp only [step, hw] at hs
      rcases read_sampled hflags hs with ⟨hyes, heq⟩ | ⟨hno, heq⟩
      · cases heq
        exact ⟨_, rfl, .sample rng hyes, .silent _, rfl, rfl⟩
      · cases heq
        exact ⟨_, rfl, .skip rng hno, .silent _, rfl, rfl⟩
  | enqueueStart i rng =>
      simp only [step, hw] at hs
      cases hs
      exact ⟨_, rfl, .enqueueStart i rng, .write _ _ _, write_flags _ _, rfl⟩
  | enqueue i rng sample =>
      simp only [step, hw] at hs
      cases hs
      cases sample with
      | true => exact ⟨_, rfl, .enqueueSample i rng, .enqueue _ _, rfl, rfl⟩
      | false => exact ⟨_, rfl, .enqueue i rng, .enqueue _ _, rfl, rfl⟩
  | enqueueDone i rng =>
      simp only [step, hw] at hs
      cases hs
      exact ⟨_, rfl, .enqueueDone i rng, .write _ _ _, write_flags _ _, rfl⟩
  | work i rng =>
      simp only [step, hw] at hs
      cases hs
      exact ⟨_, rfl, .work i rng _, .silent _, rfl, rfl⟩
  | clock i rng =>
      simp only [step, hw] at hs
      cases hs
      exact ⟨_, rfl, .clock i rng now, .silent _, rfl, rfl⟩
  | dequeue i rng t₀ =>
      simp only [step, hw] at hs
      split at hs
      case h_1 hempty =>
        cases hs
        refine ⟨_, rfl, .refused i rng t₀, ?_, rfl, rfl⟩
        change Serves .refused s.queue s.queue
        rw [hempty]
        exact .refused
      case h_2 got queue hqueue =>
        cases hs
        refine ⟨_, rfl, .dequeue i rng t₀ got, ?_, rfl, rfl⟩
        rw [hqueue]
        exact .dequeue got queue
  | checkGot i rng t₀ got =>
      simp only [step, hw] at hs
      rcases read_sampled hflags hs with ⟨hyes, heq⟩ | ⟨hno, heq⟩
      · cases heq
        exact ⟨_, rfl, .sampleGot i rng t₀ hyes, .silent _, rfl, rfl⟩
      · cases heq
        exact ⟨_, rfl, .skipGot i rng t₀ hno, .silent _, rfl, rfl⟩
  | dequeueStart i rng t₀ got =>
      simp only [step, hw] at hs
      cases hs
      exact ⟨_, rfl, .dequeueStart i rng t₀ got, .write _ _ _, write_flags _ _, rfl⟩
  | dequeueDone i rng got =>
      simp only [step, hw] at hs
      cases hs
      exact ⟨_, rfl, .dequeueDone i rng got, .write _ _ _, write_flags _ _, rfl⟩
  | rest i rng =>
      simp only [step, hw] at hs
      cases hs
      exact ⟨_, rfl, .rest i rng _, .silent _, rfl, rfl⟩
  | finish rng =>
      simp only [step, hw] at hs
      cases hs
      exact ⟨_, rfl, .finish rng, .silent _, rfl, rfl⟩
  | ended =>
      simp only [step, hw] at hs
      cases hs

/-! ### What a worker has done -/

/-- The indices of a section do not overflow. -/
theorem myItem_eq {i : ℕ} (hi : i < W.opsPerThread) :
  W.myItem t i = t * W.opsPerThread + i
  := by
  have hfits := W.fits
  have hle : (t + 1) * W.opsPerThread ≤ W.nThreads * W.opsPerThread :=
    Nat.mul_le_mul_right _ t.isLt
  rw [Nat.mul_comm] at hfits
  rw [Nat.add_mul, Nat.one_mul] at hle
  rw [myItem, base, Nat.mod_eq_of_lt (by omega), Nat.mod_eq_of_lt (by omega)]

/-- Each of the first `k` items of the section with `P` has been counted once, and no other item. -/
def Tallied (t : Fin W.nThreads) (P : ℕ → Prop) [DecidablePred P] (c : ℕ → ℕ) (k : ℕ) : Prop :=
  ∀ x, c x = if W.Own t k x ∧ P x then 1 else 0

/-- A stamp of an item has been written for each time the item was dequeued, but for the item for
which it is still owed, if only sampled items are looked at. -/
def Settled (c d : ℕ → ℕ) (owed : Option ℕ) : Prop :=
  ∀ x, c x + (if owed = some x ∧ W.Sampled x then 1 else 0) = if W.Sampled x then d x else 0

section tallied

variable {P : ℕ → Prop} [DecidablePred P] {c c' : ℕ → ℕ} {k : ℕ}

theorem Tallied.same (h : W.Tallied t P c k) (hc : ∀ x, c' x = c x) :
  W.Tallied t P c' k
  := by
  intro x
  rw [hc, h]

theorem own_succ {x : ℕ} (hk : k < W.opsPerThread) :
  W.Own t (k + 1) x ↔ W.Own t k x ∨ x = W.myItem t k
  := by
  rw [myItem_eq hk, Own, Own]
  omega

theorem not_own_myItem (hk : k < W.opsPerThread) :
  ¬ W.Own t k (W.myItem t k)
  := by
  rw [myItem_eq hk, Own]
  omega

/-- The next item of the section is counted. -/
theorem Tallied.count (h : W.Tallied t P c k) (hk : k < W.opsPerThread) (hP : P (W.myItem t k))
    (hc : ∀ x, c' x = c x + if W.myItem t k = x then 1 else 0) :
  W.Tallied t P c' (k + 1)
  := by
  intro x
  rw [hc, h]
  simp only [own_succ hk]
  by_cases hx : W.myItem t k = x
  · subst hx
    simp [not_own_myItem hk, hP]
  · simp [hx, Ne.symm hx]

/-- The next item of the section is passed over. -/
theorem Tallied.skip (h : W.Tallied t P c k) (hk : k < W.opsPerThread) (hP : ¬ P (W.myItem t k))
    (hc : ∀ x, c' x = c x) :
  W.Tallied t P c' (k + 1)
  := by
  intro x
  rw [hc, h]
  simp only [own_succ hk]
  by_cases hx : x = W.myItem t k
  · subst hx
    simp [hP]
  · simp [hx]

end tallied

section settled

variable {c c' d d' : ℕ → ℕ} {owed : Option ℕ} {got : ℕ}

theorem Settled.same (h : W.Settled c d owed) (hc : ∀ x, c' x = c x) (hd : ∀ x, d' x = d x) :
  W.Settled c' d' owed
  := by
  intro x
  rw [hc, hd, h]

/-- The stamps of an item that is dequeued are owed. -/
theorem Settled.dequeue (h : W.Settled c d none) (hc : ∀ x, c' x = c x)
    (hd : ∀ x, d' x = d x + if got = x then 1 else 0) :
  W.Settled c' d' (some got)
  := by
  intro x
  have hx := h x
  rw [hc, hd]
  by_cases hs : W.Sampled x
  · simp only [hs, and_true, Option.some.injEq, if_true] at hx ⊢
    rw [← hx]
    rfl
  · simp only [hs, and_false, if_false] at hx ⊢
    exact hx

/-- No stamp is owed for an item that is not sampled. -/
theorem Settled.skip (h : W.Settled c d (some got)) (hs : ¬ W.Sampled got) (hc : ∀ x, c' x = c x)
    (hd : ∀ x, d' x = d x) :
  W.Settled c' d' none
  := by
  intro x
  rw [hc, hd, ← h x]
  by_cases hx : got = x
  · subst hx
    simp [hs]
  · simp [hx]

/-- A stamp that was owed is written. -/
theorem Settled.write (h : W.Settled c d (some got)) (hs : W.Sampled got)
    (hc : ∀ x, c' x = c x + if got = x then 1 else 0) (hd : ∀ x, d' x = d x) :
  W.Settled c' d' none
  := by
  intro x
  rw [hc, hd, ← h x]
  by_cases hx : got = x
  · subst hx
    simp [hs]
  · simp [hx]

end settled

variable (W) in
/-- What the local variables of worker `t` say about the items. -/
def Valid (t : Fin W.nThreads) : Worker → Prop
  | .loop i _ => i ≤ W.opsPerThread
  | .enqueueStart i _ | .enqueueDone i _ => i < W.opsPerThread ∧ W.Sampled (W.myItem t i)
  | .enqueue i _ sample => i < W.opsPerThread ∧ (sample = true ↔ W.Sampled (W.myItem t i))
  | .check i _ | .work i _ | .clock i _ | .dequeue i _ _ | .rest i _ => i < W.opsPerThread
  | .checkGot i _ _ got => i < W.opsPerThread ∧ got < W.items.length
  | .dequeueStart i _ _ got | .dequeueDone i _ got => i < W.opsPerThread ∧ W.Sampled got
  | .arrive | .wait | .begin | .finish _ | .ended => True

variable (W) in
/-- What worker `t` has done by the time it is at `w`, where `c` counts what it has done. -/
structure Record (t : Fin W.nThreads) (c : Action → ℕ) (w : Worker) : Prop where
  valid : W.Valid t w
  enqueueStart : W.Tallied t W.Sampled (fun x => c (.write .enqueueStart x))
    (w.passed W.opsPerThread 2)
  enqueue : W.Tallied t (fun _ => True) (fun x => c (.enqueue x)) (w.passed W.opsPerThread 3)
  enqueueDone : W.Tallied t W.Sampled (fun x => c (.write .enqueueDone x))
    (w.passed W.opsPerThread 4)
  dequeueStart : W.Settled (fun x => c (.write .dequeueStart x)) (fun x => c (.dequeue x))
    (w.owes .dequeueStart)
  dequeueDone : W.Settled (fun x => c (.write .dequeueDone x)) (fun x => c (.dequeue x))
    (w.owes .dequeueDone)

section goes

variable {w w' : Worker} {c c' : Action → ℕ} (h : W.Goes t w e w')

include h

theorem Goes.valid (hv : W.Valid t w) (hgot : ∀ got, e = .dequeue got → got < W.items.length) :
  W.Valid t w'
  := by
  cases h with
  | arrive | wait | leave | finish => trivial
  | begin => exact Nat.zero_le _
  | enter rng hlt => exact hlt
  | sample rng hyes => exact ⟨hv, hyes⟩
  | skip rng hno => exact ⟨hv, by simp [hno]⟩
  | enqueueStart => exact ⟨hv.1, by simp [hv.2]⟩
  | enqueueSample => exact ⟨hv.1, hv.2.mp rfl⟩
  | dequeue i rng t₀ got => exact ⟨hv, hgot got rfl⟩
  | sampleGot i rng t₀ hyes => exact ⟨hv.1, hyes⟩
  | dequeueStart => exact hv
  | rest => exact hv
  | enqueue | enqueueDone | skipGot | dequeueDone => exact hv.1
  | work | clock | refused => exact hv

variable (hv : W.Valid t w) (hc : ∀ e', c' e' = c e' + if e = e' then 1 else 0)

include hv hc

theorem Goes.tally_enqueueStart
    (hrec : W.Tallied t W.Sampled (fun x => c (.write .enqueueStart x))
      (w.passed W.opsPerThread 2)) :
  W.Tallied t W.Sampled (fun x => c' (.write .enqueueStart x)) (w'.passed W.opsPerThread 2)
  := by
  cases h with
  | skip rng hno => exact hrec.skip hv hno fun x => by simp [hc]
  | enqueueStart i rng => exact Tallied.count (k := i) hrec hv.1 hv.2 fun x => by simp [hc]
  | leave rng hle =>
      obtain rfl := Nat.le_antisymm hv hle
      apply hrec.same fun x => by simp [hc]
  | _ => exact hrec.same fun x => by simp [hc]

theorem Goes.tally_enqueue
    (hrec : W.Tallied t (fun _ => True) (fun x => c (.enqueue x)) (w.passed W.opsPerThread 3)) :
  W.Tallied t (fun _ => True) (fun x => c' (.enqueue x)) (w'.passed W.opsPerThread 3)
  := by
  cases h with
  | enqueueSample i rng | enqueue i rng =>
      apply Tallied.count (k := i) hrec hv.1 trivial fun x => by simp [hc]
  | leave rng hle =>
      obtain rfl := Nat.le_antisymm hv hle
      apply hrec.same fun x => by simp [hc]
  | _ => exact hrec.same fun x => by simp [hc]

theorem Goes.tally_enqueueDone
    (hrec : W.Tallied t W.Sampled (fun x => c (.write .enqueueDone x))
      (w.passed W.opsPerThread 4)) :
  W.Tallied t W.Sampled (fun x => c' (.write .enqueueDone x)) (w'.passed W.opsPerThread 4)
  := by
  cases h with
  | enqueue i rng =>
      have hno : ¬ W.Sampled (W.myItem t i) := fun hyes => Bool.false_ne_true (hv.2.mpr hyes)
      apply hrec.skip hv.1 hno fun x => by simp [hc]
  | enqueueDone i rng => exact Tallied.count (k := i) hrec hv.1 hv.2 fun x => by simp [hc]
  | leave rng hle =>
      obtain rfl := Nat.le_antisymm hv hle
      apply hrec.same fun x => by simp [hc]
  | _ => exact hrec.same fun x => by simp [hc]

theorem Goes.settle_dequeueStart
    (hrec : W.Settled (fun x => c (.write .dequeueStart x)) (fun x => c (.dequeue x))
      (w.owes .dequeueStart)) :
  W.Settled (fun x => c' (.write .dequeueStart x)) (fun x => c' (.dequeue x))
    (w'.owes .dequeueStart)
  := by
  cases h with
  | dequeue i rng t₀ got =>
      apply hrec.dequeue (fun x => by simp [hc]) fun x => by simp [hc]
  | skipGot i rng t₀ hno =>
      apply hrec.skip hno (fun x => by simp [hc]) fun x => by simp [hc]
  | dequeueStart i rng t₀ got =>
      apply hrec.write hv.2 (fun x => by simp [hc]) fun x => by simp [hc]
  | _ => exact hrec.same (fun x => by simp [hc]) fun x => by simp [hc]

theorem Goes.settle_dequeueDone
    (hrec : W.Settled (fun x => c (.write .dequeueDone x)) (fun x => c (.dequeue x))
      (w.owes .dequeueDone)) :
  W.Settled (fun x => c' (.write .dequeueDone x)) (fun x => c' (.dequeue x))
    (w'.owes .dequeueDone)
  := by
  cases h with
  | dequeue i rng t₀ got =>
      apply hrec.dequeue (fun x => by simp [hc]) fun x => by simp [hc]
  | skipGot i rng t₀ hno =>
      apply hrec.skip hno (fun x => by simp [hc]) fun x => by simp [hc]
  | dequeueDone i rng got =>
      apply hrec.write hv.2 (fun x => by simp [hc]) fun x => by simp [hc]
  | _ => exact hrec.same (fun x => by simp [hc]) fun x => by simp [hc]

omit hv in
/-- A worker's step is recorded. -/
theorem Goes.record (hrec : W.Record t c w)
    (hgot : ∀ got, e = .dequeue got → got < W.items.length) :
  W.Record t c' w'
  := by
  constructor
  case valid => apply h.valid hrec.valid hgot
  case enqueueStart => apply h.tally_enqueueStart hrec.valid hc hrec.enqueueStart
  case enqueue => apply h.tally_enqueue hrec.valid hc hrec.enqueue
  case enqueueDone => apply h.tally_enqueueDone hrec.valid hc hrec.enqueueDone
  case dequeueStart => apply h.settle_dequeueStart hrec.valid hc hrec.dequeueStart
  case dequeueDone => apply h.settle_dequeueDone hrec.valid hc hrec.dequeueDone

end goes

/-! ### The invariant -/

variable (W) in
/-- What holds after the steps of `log`, in the state `s`. -/
structure Inv (log : List (Fin W.nThreads × Action)) (s : State W.nThreads) : Prop where
  record : ∀ t, W.Record t (tally log t) (s.worker t)
  flags : s.items.map TestItem.shouldSample = W.items.map TestItem.shouldSample
  /-- What has been enqueued has been dequeued or is in the queue. -/
  kept : ∀ x, total log (.enqueue x) = total log (.dequeue x) + s.queue.count x
  inside : ∀ x ∈ s.queue, x < W.items.length
  balance : s.queue.length = (Finset.univ.filter fun t => (s.worker t).Between).card
  arrived : s.arrived = (Finset.univ.filter fun t => s.worker t ≠ .arrive).card
  served : total log .refused = 0
  bounded : log.length + ∑ t, (s.worker t).remaining W.opsPerThread ≤
    W.nThreads * (12 * W.opsPerThread + 5)

theorem length_items_eq :
  W.items.length = W.opsPerThread * W.nThreads
  := by
  rw [W.length_items, itemCount, Nat.mod_eq_of_lt W.fits]

/-- A worker's section is a part of the items. -/
theorem myItem_lt {i : ℕ} (hi : i < W.opsPerThread) :
  W.myItem t i < W.items.length
  := by
  have hle : (t + 1) * W.opsPerThread ≤ W.nThreads * W.opsPerThread :=
    Nat.mul_le_mul_right _ t.isLt
  rw [Nat.add_mul, Nat.one_mul] at hle
  rw [length_items_eq, myItem_eq hi, Nat.mul_comm W.opsPerThread]
  omega

/-- At the start nobody has done anything. -/
theorem inv_init :
  W.Inv [] W.init
  := by
  constructor
  case record =>
    intro t
    constructor
    case valid => trivial
    case enqueueStart | enqueue | enqueueDone =>
      intro x
      rw [if_neg]
      · rfl
      · rintro ⟨⟨hle, hlt⟩, -⟩
        exact absurd hlt (Nat.not_lt.mpr hle)
    case dequeueStart | dequeueDone =>
      intro x
      simp [init, Worker.owes]
  case flags => rfl
  case kept =>
    intro x
    rfl
  case inside =>
    rintro x ⟨⟩
  case balance =>
    symm
    apply Finset.card_eq_zero.mpr
    apply Finset.filter_eq_empty_iff.mpr
    intro t _ hbetween
    exact hbetween
  case arrived =>
    symm
    apply Finset.card_eq_zero.mpr
    apply Finset.filter_eq_empty_iff.mpr
    intro t _ hne
    apply hne rfl
  case served => rfl
  case bounded => simp [init, Worker.remaining]

section step

variable {w w' : Worker} {q q' : List ℕ} (h : W.Goes t w e w')

include h

/-- The queue grows when a worker comes to be between its enqueue and its dequeue, and shrinks when
the worker ceases to be. -/
theorem Goes.between (hq : Serves e q q') (hserved : e ≠ .refused) :
  q'.length + (if w.Between then 1 else 0) = q.length + if w'.Between then 1 else 0
  := by
  cases h with
  | refused => exact absurd rfl hserved
  | enqueueSample i rng | enqueue i rng =>
      cases hq
      exact List.length_append
  | dequeue i rng t₀ got =>
      cases hq
      rfl
  | _ =>
      cases hq
      rfl

theorem Goes.ne_arrive :
  w' ≠ .arrive
  := by
  cases h with
  | _ => rintro ⟨⟩

/-- A step that is not refused is a step forward. -/
theorem Goes.remaining_lt (hv : W.Valid t w) (hserved : e ≠ .refused) :
  w'.remaining W.opsPerThread + 1 ≤ w.remaining W.opsPerThread
  := by
  cases h with
  | refused => exact absurd rfl hserved
  | arrive | wait | begin | finish => simp [Worker.remaining, Worker.round, Worker.stage]
  | enter rng hlt | leave rng hle =>
      simp only [Worker.remaining, Worker.round, Worker.stage]
      omega
  | sample | skip | work | clock | dequeue | rest =>
      simp only [Valid, Worker.remaining, Worker.round, Worker.stage] at hv ⊢
      omega
  | _ =>
      have hlt := hv.1
      simp only [Worker.remaining, Worker.round, Worker.stage]
      omega

/-- An item that is enqueued is one of the items. -/
theorem Goes.inside (hv : W.Valid t w) (hq : Serves e q q') (hinside : ∀ x ∈ q, x < W.items.length) :
  ∀ x ∈ q', x < W.items.length
  := by
  cases h with
  | enqueueSample i rng | enqueue i rng =>
      cases hq
      intro x hx
      rcases List.mem_append.mp hx with hx | hx
      · exact hinside x hx
      · rw [List.mem_singleton.mp hx]
        apply myItem_lt hv.1
  | dequeue i rng t₀ got =>
      cases hq
      intro x hx
      apply hinside x (List.mem_cons_of_mem got hx)
  | _ =>
      cases hq
      exact hinside

end step

/-- An item is neither lost nor duplicated by the queue. -/
theorem Serves.kept {q q' : List ℕ} (hq : Serves e q q') (x : ℕ) :
  (if e = .dequeue x then 1 else 0) + q'.count x = (if e = .enqueue x then 1 else 0) + q.count x
  := by
  cases hq with
  | silent | write | refused => simp
  | enqueue y q =>
      rw [List.count_append, List.count_singleton]
      simp [Nat.add_comm]
  | dequeue y q =>
      rw [List.count_cons]
      simp [Nat.add_comm]

/-- A worker that is about to dequeue does not find the queue empty. -/
theorem Inv.not_refused {log : List (Fin W.nThreads × Action)} {w : Worker} {q : List ℕ}
    (h : W.Inv log s) (hgo : W.Goes t (s.worker t) e w) (hq : Serves e s.queue q) :
  e ≠ .refused
  := by
  rintro rfl
  have hbetween : (s.worker t).Between := by
    generalize s.worker t = v at hgo
    cases hgo
    trivial
  have hpos : 0 < (Finset.univ.filter fun t => (s.worker t).Between).card :=
    Finset.card_pos.mpr ⟨t, Finset.mem_filter.mpr ⟨Finset.mem_univ t, hbetween⟩⟩
  have hbalance := h.balance
  generalize s.queue = q₀ at hq hbalance
  cases hq
  rw [List.length_nil] at hbalance
  omega

/-- Every step keeps the invariant. -/
theorem Inv.step {log : List (Fin W.nThreads × Action)} (h : W.Inv log s)
    (hs : W.step t now s = some (s', e)) :
  W.Inv (log ++ [(t, e)]) s'
  := by
  obtain ⟨w, hw, hgo, hq, hflags, harrived⟩ := step_inv h.flags hs
  have hserved := h.not_refused hgo hq
  have hvalid := (h.record t).valid
  constructor
  case record =>
    intro u
    by_cases hu : u = t
    · subst hu
      rw [hw, Function.update_self]
      apply hgo.record (tally_self log u e) (h.record u)
      rintro got rfl
      apply h.inside got
      generalize s.queue = q at hq
      cases hq
      exact List.mem_cons_self
    · rw [hw, Function.update_of_ne hu]
      have hsame : tally (log ++ [(t, e)]) u = tally log u := by
        funext e'
        apply tally_other hu
      rw [hsame]
      apply h.record u
  case flags => exact hflags.trans h.flags
  case kept =>
    intro x
    have hkept := h.kept x
    have hcount := hq.kept x
    rw [total_append, total_append]
    omega
  case inside => exact hgo.inside hvalid hq h.inside
  case balance =>
    have hcard := card_update_add Worker.Between s.worker t w
    have hlength := hgo.between hq hserved
    have hbalance := h.balance
    rw [hw]
    omega
  case arrived =>
    have hcard := card_update_add (fun v => v ≠ .arrive) s.worker t w
    rw [if_pos hgo.ne_arrive] at hcard
    have hold := h.arrived
    rw [hw, harrived]
    split at hcard
    case isTrue hne =>
      rw [if_neg hne]
      omega
    case isFalse heq =>
      rw [if_pos (not_not.mp heq)]
      omega
  case served =>
    rw [total_append, h.served, if_neg hserved]
  case bounded =>
    have hsum := sum_update_add s.worker (fun v => v.remaining W.opsPerThread) t w
    have hlt := hgo.remaining_lt hvalid hserved
    have hbound := h.bounded
    rw [hw, List.length_append, List.length_singleton]
    omega

theorem inv {log : List (Fin W.nThreads × Action)} (h : Execution W.step W.init log s) :
  W.Inv log s
  := by
  induction h with
  | start => exact inv_init
  | step _ hs ih => exact ih.step hs

/-! ### No worker gets stuck -/

/-- Unless it waits at the barrier, a worker that has not ended can step. -/
theorem Inv.exists_step {log : List (Fin W.nThreads × Action)} (h : W.Inv log s)
    (hwait : s.worker t ≠ .wait) (hended : s.worker t ≠ .ended) :
  ∃ now s' e, W.step t now s = some (s', e)
  := by
  have hlength : s.items.length = W.items.length := by
    rw [← List.length_map (f := TestItem.shouldSample), h.flags, List.length_map]
  have hread : ∀ x < W.items.length, ∃ item, s.items[x]? = some item := fun x hx =>
    ⟨_, List.getElem?_eq_getElem (hlength ▸ hx)⟩
  have hvalid := (h.record t).valid
  use 0
  cases hw : s.worker t with
  | wait => exact absurd hw hwait
  | ended => exact absurd hw hended
  | loop i rng =>
      simp only [Workload.step, hw]
      split
      · exact ⟨_, _, rfl⟩
      · exact ⟨_, _, rfl⟩
  | check i rng =>
      rw [hw] at hvalid
      obtain ⟨item, hitem⟩ := hread _ (myItem_lt (t := t) hvalid)
      simp only [Workload.step, hw, hitem]
      cases item.shouldSample with
      | true => exact ⟨_, _, rfl⟩
      | false => exact ⟨_, _, rfl⟩
  | dequeue i rng t₀ =>
      simp only [Workload.step, hw]
      split
      · exact ⟨_, _, rfl⟩
      · exact ⟨_, _, rfl⟩
  | checkGot i rng t₀ got =>
      rw [hw] at hvalid
      obtain ⟨item, hitem⟩ := hread _ hvalid.2
      simp only [Workload.step, hw, hitem]
      cases item.shouldSample with
      | true => exact ⟨_, _, rfl⟩
      | false => exact ⟨_, _, rfl⟩
  | _ =>
      simp only [Workload.step, hw]
      exact ⟨_, _, rfl⟩

/-- While some worker has not ended, one of these can step: if all who have not wait at the barrier
then all have arrived. -/
theorem Inv.progress {log : List (Fin W.nThreads × Action)} (h : W.Inv log s)
    (hended : s.worker t ≠ .ended) :
  ∃ u now s' e, s.worker u ≠ .ended ∧ W.step u now s = some (s', e)
  := by
  by_cases hwait : s.worker t = .wait
  · by_cases harrive : ∃ u, s.worker u = .arrive
    · obtain ⟨u, hu⟩ := harrive
      have hne : s.worker u ≠ .ended := by
        rw [hu]
        rintro ⟨⟩
      obtain ⟨now, s', e, hs⟩ := h.exists_step (t := u) (by rw [hu]; rintro ⟨⟩) hne
      exact ⟨u, now, s', e, hne, hs⟩
    · have harrived := h.arrived
      have hall : ∀ u ∈ Finset.univ, s.worker u ≠ .arrive := fun u _ hu => harrive ⟨u, hu⟩
      rw [Finset.filter_true_of_mem hall, Finset.card_univ, Fintype.card_fin] at harrived
      refine ⟨t, 0, s.goto t .begin, .silent, hended, ?_⟩
      simp only [Workload.step, hwait, if_pos harrived]
  · obtain ⟨now, s', e, hs⟩ := h.exists_step hwait hended
    exact ⟨t, now, s', e, hended, hs⟩

/-! ### What has been done in the end -/

variable (W) in
/-- The item `x` is in the section of worker `t`. -/
def Owner (t : Fin W.nThreads) (x : ℕ) : Prop := W.Own t W.opsPerThread x

instance (t : Fin W.nThreads) : DecidablePred (W.Owner t) :=
  fun _ => inferInstanceAs (Decidable (_ ∧ _))

/-- Each item is in the section of one worker. -/
theorem exists_owner {x : ℕ} (hx : x < W.items.length) :
  ∃ t, ∀ u, W.Owner u x ↔ u = t
  := by
  rw [length_items_eq] at hx
  have hops : 0 < W.opsPerThread := Nat.pos_of_mul_pos_right (Nat.zero_lt_of_lt hx)
  have hdiv : x / W.opsPerThread < W.nThreads := Nat.div_lt_of_lt_mul hx
  use ⟨x / W.opsPerThread, hdiv⟩
  intro u
  rw [Owner, Own, Fin.ext_iff, eq_comm, Nat.div_eq_iff hops]
  omega

variable (W) in
/-- What the workers have done when all of them have ended, with the log `log`. -/
structure Complete (log : List (Fin W.nThreads × Action)) (s : State W.nThreads) : Prop where
  empty : s.queue = []
  /-- Each item has been enqueued once, by its owner, and dequeued once, by some worker. -/
  enqueued : ∀ x < W.items.length, total log (.enqueue x) = 1
  owner : ∀ x < W.items.length, ∀ t, 0 < tally log t (.enqueue x) → W.Owner t x
  dequeued : ∀ x < W.items.length, total log (.dequeue x) = 1
  /-- The stamps of its enqueue have been written once each, by its owner. -/
  enqueueStamps : ∀ x, W.Sampled x → ∃ t, W.Owner t x ∧ ∀ u,
    tally log u (.write .enqueueStart x) = (if u = t then 1 else 0) ∧
      tally log u (.write .enqueueDone x) = if u = t then 1 else 0
  /-- The stamps of its dequeue have been written once each, by the worker that dequeued it. -/
  dequeueStamps : ∀ x, W.Sampled x → ∃ t, tally log t (.dequeue x) = 1 ∧ ∀ u,
    tally log u (.write .dequeueStart x) = (if u = t then 1 else 0) ∧
      tally log u (.write .dequeueDone x) = if u = t then 1 else 0

theorem Sampled.lt {x : ℕ} (h : W.Sampled x) :
  x < W.items.length
  := by
  obtain ⟨item, hitem, -⟩ := Option.map_eq_some_iff.mp h
  exact (List.getElem?_eq_some_iff.mp hitem).1

section ended

variable {log : List (Fin W.nThreads × Action)} (h : W.Inv log s)
  (hended : ∀ t, s.worker t = .ended) {x : ℕ}

include h hended

/-- Each worker has enqueued the items of its section. -/
theorem Inv.tally_enqueue :
  tally log t (.enqueue x) = if W.Owner t x then 1 else 0
  := by
  have htally := (h.record t).enqueue x
  rw [hended t] at htally
  apply htally.trans (if_congr (and_iff_left trivial) rfl rfl)

theorem Inv.total_enqueue (hx : x < W.items.length) :
  total log (.enqueue x) = 1
  := by
  obtain ⟨t, ht⟩ := exists_owner hx
  rw [total_eq_sum, Finset.sum_congr rfl fun u _ => h.tally_enqueue hended,
    Finset.sum_congr rfl fun u _ => if_congr (ht u) rfl rfl, Finset.sum_ite_eq']
  simp

theorem Inv.queue_nil :
  s.queue = []
  := by
  apply List.eq_nil_of_length_eq_zero
  rw [h.balance]
  apply Finset.card_eq_zero.mpr
  apply Finset.filter_eq_empty_iff.mpr
  intro t _
  rw [hended t]
  exact not_false

theorem Inv.total_dequeue (hx : x < W.items.length) :
  total log (.dequeue x) = 1
  := by
  have hkept := h.kept x
  rw [h.total_enqueue hended hx, h.queue_nil hended] at hkept
  exact hkept.symm

/-- When all workers have ended the work is complete. -/
theorem Inv.complete :
  W.Complete log s
  := by
  constructor
  case empty => apply h.queue_nil hended
  case enqueued => exact fun x hx => h.total_enqueue hended hx
  case owner =>
    intro x _ t hpos
    rw [h.tally_enqueue hended] at hpos
    by_contra hno
    rw [if_neg hno] at hpos
    exact absurd hpos (Nat.lt_irrefl 0)
  case dequeued => exact fun x hx => h.total_dequeue hended hx
  case enqueueStamps =>
    intro x hx
    obtain ⟨t, ht⟩ := exists_owner hx.lt
    refine ⟨t, (ht t).mpr rfl, fun u => ?_⟩
    have hstart := (h.record u).enqueueStart x
    have hdone := (h.record u).enqueueDone x
    rw [hended u] at hstart hdone
    have hiff : W.Own u (Worker.ended.passed W.opsPerThread 2) x ∧ W.Sampled x ↔ u = t :=
      ⟨fun hown => (ht u).mp hown.1, fun hu => ⟨(ht u).mpr hu, hx⟩⟩
    exact ⟨hstart.trans (if_congr hiff rfl rfl), hdone.trans (if_congr hiff rfl rfl)⟩
  case dequeueStamps =>
    intro x hx
    have htotal := h.total_dequeue hended hx.lt
    rw [total_eq_sum] at htotal
    obtain ⟨t, ht, hother⟩ := exists_of_sum_eq_one htotal
    refine ⟨t, ht, fun u => ?_⟩
    have hdequeue : tally log u (.dequeue x) = if u = t then 1 else 0 := by
      by_cases hu : u = t
      · rw [hu, ht, if_pos rfl]
      · rw [hother u hu, if_neg hu]
    have hstart := (h.record u).dequeueStart x
    have hdone := (h.record u).dequeueDone x
    rw [hended u] at hstart hdone
    rw [← hdequeue]
    simp only [Worker.owes, hx, reduceCtorEq, false_and, if_false, if_true, Nat.add_zero]
      at hstart hdone
    exact ⟨hstart, hdone⟩

end ended

/-! ### Every execution conserves items -/

variable (W) in
/-- What holds after the steps of `log`, in the state `s`. -/
structure Conserves (log : List (Fin W.nThreads × Action)) (s : State W.nThreads) : Prop where
  /-- The queue holds an item for each worker that has enqueued but not yet dequeued. -/
  balance : s.queue.length = (Finset.univ.filter fun t => (s.worker t).Between).card
  /-- No dequeue returns `false`. -/
  served : ∀ t, (t, .refused) ∉ log
  progress : ∀ t, s.worker t ≠ .ended →
    ∃ u now s' e, s.worker u ≠ .ended ∧ W.step u now s = some (s', e)
  /-- The steps come to an end. -/
  bounded : log.length ≤ W.nThreads * (12 * W.opsPerThread + 5)
  complete : (∀ t, s.worker t = .ended) → W.Complete log s

/-- Every execution of the workers conserves items, with any number of workers and rounds. -/
theorem workload_conserves {log : List (Fin W.nThreads × Action)}
    (h : Execution W.step W.init log s) :
  W.Conserves log s
  := by
  have hinv := inv h
  constructor
  case balance => apply hinv.balance
  case served =>
    intro t hmem
    apply List.count_eq_zero.mp hinv.served
    apply List.mem_map_of_mem (f := Prod.snd) hmem
  case progress => exact fun t hended => hinv.progress hended
  case bounded => exact le_trans (Nat.le_add_right _ _) hinv.bounded
  case complete => exact hinv.complete

/-- The workload `run_performance_test` makes from its arguments. -/
def ofArgs (opsPerThread nThreads workIters maxSamples : ℕ)
    (fits : opsPerThread * nThreads < 2 ^ 64) : Workload where
  opsPerThread := opsPerThread
  nThreads := nThreads
  workIters := workIters
  items := testItems (itemCount opsPerThread nThreads)
    (stride (itemCount opsPerThread nThreads) maxSamples)
  fits := fits
  length_items := testItems_length _ _

/-- The items sampled in a workload are those that have been marked. -/
theorem sampled_ofArgs {opsPerThread nThreads : ℕ} (workIters maxSamples : ℕ)
    (fits : opsPerThread * nThreads < 2 ^ 64) (x : ℕ) :
  (ofArgs opsPerThread nThreads workIters maxSamples fits).Sampled x ↔
    x ∈ marked (itemCount opsPerThread nThreads) maxSamples
  := by
  rw [marked, Finset.mem_filter, Finset.mem_range]
  constructor
  · intro hx
    have hlt := hx.lt
    rw [(ofArgs opsPerThread nThreads workIters maxSamples fits).length_items] at hlt
    exact ⟨hlt, hx⟩
  · exact fun hx => hx.2

/-- The workload of one worker with one item, which is sampled. -/
def single : Workload := ofArgs 1 1 0 0 (by decide)

/-- The only worker of `single`. -/
def soleWorker : Fin single.nThreads := ⟨0, Nat.one_pos⟩

/-- What the only worker does from its arrival to its end. -/
def singleActions : List Action :=
  [.silent, .silent, .silent, .silent, .silent, .write .enqueueStart 0, .enqueue 0,
    .write .enqueueDone 0, .silent, .silent, .dequeue 0, .silent, .write .dequeueStart 0,
    .write .dequeueDone 0, .silent, .silent, .silent]

/-- The only worker enqueues its item and dequeues it. -/
theorem workload_conserves_single :
  ∃ s, single.Conserves (singleActions.map fun e => (soleWorker, e)) s ∧
    s.worker soleWorker = .ended
  := by
  have hplay : ∃ s, playLog single.step [] single.init
      ((List.range 17).map fun k => (soleWorker, (k : ℤ))) =
        some (singleActions.map fun e => (soleWorker, e), s) ∧
      s.worker soleWorker = .ended := ⟨_, rfl, rfl⟩
  obtain ⟨s, hs, hended⟩ := hplay
  exact ⟨s, workload_conserves (Execution.start.play hs), hended⟩

end Workload

end Benchmark
