import ConcurrentQueues.Benchmark.Timing

/-!
# The totals of the benchmark

An item is on its way from the start of its enqueue to the end of its dequeue. At each time there are
no more items on their way than workers at work, so that the latencies add up to at most the time
the workers have been at work. A worker is in one call at a time, so that the times of the enqueues
and dequeues together do so as well. Hence the averages of `test_summary` are those of no more than
`n_threads` workers over the wall time, and its totals do not overflow if that does not.
-/

namespace Benchmark

/-- The variables `total_enqueue_ns`, `total_dequeue_ns` and `total_latency_ns` of `test_summary`. -/
structure Totals where
  enqueue : ℤ
  dequeue : ℤ
  latency : ℤ

/-- The totals `test_summary` adds up. -/
def totals (items : List TestItem) : Totals :=
  items.foldl
    (fun totals item =>
      if !item.shouldSample then totals
      else
        { enqueue := totals.enqueue + (item.enqueueDone - item.enqueueStart)
          dequeue := totals.dequeue + (item.dequeueDone - item.dequeueStart)
          latency := totals.latency + (item.dequeueDone - item.enqueueStart) })
    ⟨0, 0, 0⟩

instance : DecidablePred Worker.Started
  | .arrive | .wait | .begin => isFalse not_false
  | .loop .. | .check .. | .enqueueStart .. | .enqueue .. | .enqueueDone .. | .work .. | .clock ..
  | .dequeue .. | .checkGot .. | .dequeueStart .. | .dequeueDone .. | .rest .. | .finish ..
  | .ended => isTrue trivial

/-- For how long worker `t` has been at work. -/
def State.elapsed {n : ℕ} (s : State n) (now : ℤ) (t : Fin n) : ℤ :=
  if (s.worker t).Started then s.upTo now t - s.starts t else 0

/-- The worker is at work. -/
def Worker.Working (w : Worker) : Prop := w.Started ∧ w ≠ .ended

instance : DecidablePred Worker.Working := fun _ => inferInstanceAs (Decidable (_ ∧ _))

/-- How long ago a worker has read the clock for the call of `dequeue` that it is in. -/
def Worker.lead (now : ℤ) (w : Worker) : ℤ :=
  match w.clocked with
  | some t₀ => now - t₀
  | none => 0

/-- The item a worker has dequeued and stamped once. -/
def Worker.stamping : Worker → Option ℕ
  | .dequeueDone _ _ got => some got
  | _ => none

/-- The time a stamp of the item `x` holds. -/
def State.time {n : ℕ} (s : State n) (σ : Stamp) (x : ℕ) : ℤ :=
  (s.items[x]?.map fun item => item.read σ).getD 0

/-- Of the two stamps of the item `x`, the first has been written and the second has not. -/
def Open {n : ℕ} (log : List (Fin n × Action)) (σ σ' : Stamp) (x : ℕ) : Prop :=
  0 < total log (.write σ x) ∧ total log (.write σ' x) = 0

instance {n : ℕ} (log : List (Fin n × Action)) (σ σ' : Stamp) : DecidablePred (Open log σ σ') :=
  fun _ => inferInstanceAs (Decidable (_ ∧ _))

/-- The time that has passed between two stamps of the item `x`, when the clock shows `now`. -/
def State.age {n : ℕ} (s : State n) (log : List (Fin n × Action)) (now : ℤ) (σ σ' : Stamp) (x : ℕ) :
    ℤ :=
  if total log (.write σ x) = 0 then 0
  else (if total log (.write σ' x) = 0 then now else s.time σ' x) - s.time σ x

namespace Workload

/-- The items that are sampled. -/
def samples (W : Workload) : Finset ℕ := (Finset.range W.items.length).filter W.Sampled

variable {W : Workload} {t : Fin W.nThreads} {s s' : State W.nThreads} {e : Action} {now now' : ℤ}
  {log : List (Fin W.nThreads × Action)} {σ σ' : Stamp} {x : ℕ}

theorem mem_samples :
  x ∈ W.samples ↔ W.Sampled x
  := by
  rw [samples, Finset.mem_filter, Finset.mem_range]
  exact ⟨fun h => h.2, fun h => ⟨h.lt, h⟩⟩

/-! ### What passes with time -/

/-- Time passes between the stamps of the items on their way. -/
theorem sum_age_wait (s : State W.nThreads) (log : List (Fin W.nThreads × Action)) (now now' : ℤ)
    (σ σ' : Stamp) (D : Finset ℕ) :
  ∑ x ∈ D, s.age log now' σ σ' x =
    ∑ x ∈ D, s.age log now σ σ' x + (D.filter (Open log σ σ')).card * (now' - now)
  := by
  rw [Finset.card_filter, Nat.cast_sum, Finset.sum_mul, ← Finset.sum_add_distrib]
  apply Finset.sum_congr rfl
  intro x _
  by_cases hfrom : total log (.write σ x) = 0
  · have hno : ¬ Open log σ σ' x := fun h => absurd hfrom (Nat.ne_of_gt h.1)
    simp [State.age, hfrom, hno]
  · by_cases hto : total log (.write σ' x) = 0
    · have hyes : Open log σ σ' x := ⟨Nat.pos_of_ne_zero hfrom, hto⟩
      simp [State.age, hfrom, hto, hyes]
    · have hno : ¬ Open log σ σ' x := fun h => absurd h.2 hto
      simp [State.age, hfrom, hto, hno]

/-- Time passes for the workers at work. -/
theorem sum_elapsed_wait (s : State W.nThreads) (now now' : ℤ) :
  ∑ t, s.elapsed now' t =
    ∑ t, s.elapsed now t + (Finset.univ.filter fun t => (s.worker t).Working).card * (now' - now)
  := by
  rw [Finset.card_filter, Nat.cast_sum, Finset.sum_mul, ← Finset.sum_add_distrib]
  apply Finset.sum_congr rfl
  intro t _
  by_cases hstarted : (s.worker t).Started
  · by_cases hended : s.worker t = .ended
    · simp [State.elapsed, State.upTo, Worker.Working, hended]
    · simp [State.elapsed, State.upTo, Worker.Working, hstarted, hended]
  · simp [State.elapsed, Worker.Working, hstarted]

/-- Time passes for the workers in a call of `dequeue`. -/
theorem sum_lead_wait (s : State W.nThreads) (now now' : ℤ) :
  ∑ t, (s.worker t).lead now' =
    ∑ t, (s.worker t).lead now +
      (Finset.univ.filter fun t => ((s.worker t).clocked).isSome).card * (now' - now)
  := by
  rw [Finset.card_filter, Nat.cast_sum, Finset.sum_mul, ← Finset.sum_add_distrib]
  apply Finset.sum_congr rfl
  intro t _
  rw [Worker.lead, Worker.lead]
  cases (s.worker t).clocked with
  | none => simp
  | some t₀ => simp

/-! ### What a step does -/

/-- A step changes the stamp it writes. -/
theorem time_step (hinv : W.Inv log s) (hs : W.step t now s = some (s', e)) (hx : W.Sampled x)
    (σ : Stamp) :
  s'.time σ x = if e = .write σ x then (s.worker t).reading now else s.time σ x
  := by
  have hinv' := hinv.step hs
  have hlength : s'.items.length = W.items.length := by
    rw [← List.length_map (f := TestItem.shouldSample), hinv'.flags, List.length_map]
  obtain ⟨item, hitem⟩ : ∃ item, s'.items[x]? = some item :=
    ⟨_, List.getElem?_eq_getElem (hlength.symm ▸ hx.lt)⟩
  have hold := hitem
  rw [(step_times hs).1] at hold
  obtain ⟨old, hold, hread⟩ := stamped_getElem? hold
  rw [State.time, State.time, hitem, hold]
  by_cases he : e = .write σ x
  · rw [if_pos he]
    exact (hread σ).1 he
  · rw [if_neg he]
    exact (hread σ).2 he

/-- What is written to the first of two stamps opens them. -/
theorem age_step (hinv : W.Inv log s) (htimes : W.Times log s now)
    (hs : W.step t now s = some (s', e)) (hbefore : σ.Before σ') (hx : W.Sampled x) :
  s'.age (log ++ [(t, e)]) now σ σ' x =
    s.age log now σ σ' x + if e = .write σ x then now - (s.worker t).reading now else 0
  := by
  obtain ⟨w, -, hgo, -, -, -⟩ := step_inv hinv.flags hs
  have hne : Action.write σ x ≠ .write σ' x := by
    intro heq
    cases heq
    exact hbefore.ne rfl
  rw [State.age, State.age, time_step hinv hs hx, time_step hinv hs hx, total_append, total_append]
  by_cases he : e = .write σ x
  · subst he
    obtain ⟨-, hzero, hafter, -⟩ := hinv.stamp hgo
    simp [hzero, hafter σ' hbefore, hne]
  · by_cases he' : e = .write σ' x
    · subst he'
      obtain ⟨-, hzero, -, hpast⟩ := hinv.stamp hgo
      have hlast : σ' ≠ .dequeueStart := by
        rintro rfl
        cases hbefore
      have hpos := Nat.ne_of_gt (hpast σ hbefore)
      simp [hzero, hpos, Ne.symm hne, (htimes.written hgo).2.2.2 hlast]
    · simp [he, he']

/-- A step does not change for how long a worker has been at work. -/
theorem elapsed_step (hinv : W.Inv log s) (hs : W.step t now s = some (s', e))
    (u : Fin W.nThreads) :
  s'.elapsed now u = s.elapsed now u
  := by
  obtain ⟨w, hw, hgo, -, -, -⟩ := step_inv hinv.flags hs
  obtain ⟨-, hstarts, hends, -⟩ := step_times hs
  have hne := hgo.not_ended
  have hworker : ∀ u, u ≠ t → s'.worker u = s.worker u := by
    intro u hu
    rw [hw, Function.update_of_ne hu]
  have hup := upTo_step hne hworker hends u
  rw [State.elapsed, State.elapsed, hup]
  by_cases hold : (s.worker u).Started
  · rw [if_pos hold, starts_step hstarts hold, if_pos]
    by_cases hu : u = t
    · subst hu
      rw [hw, Function.update_self]
      exact hgo.started.mpr (Or.inl hold)
    · rwa [hworker u hu]
  · rw [if_neg hold]
    split
    case isTrue hnew =>
      obtain rfl : u = t := by
        by_contra hu
        rw [hworker u hu] at hnew
        exact hold hnew
      rw [hw, Function.update_self] at hnew
      rw [hstarts, if_pos ((hgo.started.mp hnew).resolve_left hold), Function.update_self,
        State.upTo, if_neg hne, sub_self]
    case isFalse => rfl

/-- What a dequeue has lasted is accounted for by the item whose start it stamps. -/
theorem Goes.lead_le {w w' : Worker} (h : W.Goes t w e w') (ht₀ : ∀ t₀, w.clocked = some t₀ → t₀ ≤ now)
    (hclock : ∀ i rng t₀, w' = .dequeue i rng t₀ → t₀ = now) :
  w'.lead now + ∑ x ∈ W.samples, (if e = .write .dequeueStart x then now - w.reading now else 0) ≤
    w.lead now
  := by
  cases h with
  | clock i rng t₀ =>
      obtain rfl := hclock i rng t₀ rfl
      simp [Worker.lead, Worker.clocked]
  | refused i rng t₀ | skipGot i rng t₀ =>
      have hle := ht₀ t₀ rfl
      simp [Worker.lead, Worker.clocked, hle]
  | dequeueStart i rng t₀ got =>
      have hle := ht₀ t₀ rfl
      simp only [Worker.lead, Worker.clocked, Worker.reading, Action.write.injEq, true_and,
        Finset.sum_ite_eq]
      split
      all_goals omega
  | _ => simp [Worker.lead, Worker.clocked]

/-! ### No more calls than workers -/

variable (W) in
/-- The item of its present round, if the worker is past the point at `a` but not past that at `b`. -/
def between (t : Fin W.nThreads) (a b : ℕ) (w : Worker) : Option ℕ :=
  if a < w.stage ∧ w.stage ≤ b then some (W.myItem t (w.round W.opsPerThread)) else none

theorem round_lt {w : Worker} (hv : W.Valid t w) (hstage : 0 < w.stage) :
  w.round W.opsPerThread < W.opsPerThread
  := by
  cases w with
  | arrive | wait | begin | loop | finish | ended => exact absurd hstage (Nat.lt_irrefl 0)
  | check | work | clock | dequeue | rest => exact hv
  | _ => exact hv.1

/-- What the owner of an item does when it passes one point it does when it passes a later one, or is
between the two. -/
theorem Inv.total_le_between (hinv : W.Inv log s) {f g : ℕ → Action} {P Q : ℕ → Prop}
    [DecidablePred P] [DecidablePred Q] {a b : ℕ}
    (hf : ∀ u, W.Tallied u P (fun y => tally log u (f y))
      ((s.worker u).passed W.opsPerThread a))
    (hg : ∀ u, W.Tallied u Q (fun y => tally log u (g y))
      ((s.worker u).passed W.opsPerThread b)) (hx : x < W.items.length) (hQ : Q x) :
  total log (f x) ≤ total log (g x) +
    (Finset.univ.filter fun u => W.between u a b (s.worker u) = some x).card
  := by
  obtain ⟨t, ht⟩ := exists_owner hx
  have howner := (ht t).mpr rfl
  have hvalid := (hinv.record t).valid
  rw [total_eq_of_owner (fun u => passed_le (hinv.record u).valid a) hf howner hx,
    total_eq_of_owner (fun u => passed_le (hinv.record u).valid b) hg howner hx]
  split
  case isFalse => exact Nat.zero_le _
  case isTrue hfrom =>
    split
    case isTrue => exact Nat.le_add_right _ _
    case isFalse hto =>
      rw [Nat.zero_add]
      apply Nat.succ_le_of_lt
      apply Finset.card_pos.mpr
      use t
      rw [Finset.mem_filter, between]
      simp only [hfrom.2, hQ, and_true, Worker.passed] at hfrom hto
      have hbetween : a < (s.worker t).stage ∧ (s.worker t).stage ≤ b := by
        constructor
        · by_contra hno
          rw [if_neg hno] at hfrom
          exact hto (hfrom.mono (Nat.le_add_right _ _))
        · by_contra hno
          rw [if_pos (Nat.lt_of_not_le hno)] at hto
          apply hto
          apply hfrom.mono (Nat.add_le_add_left _ _)
          split
          all_goals omega
      rw [if_pos hbetween.1, own_succ (round_lt hvalid (Nat.zero_lt_of_lt hbetween.1))] at hfrom
      rw [if_neg (Nat.not_lt.mpr hbetween.2), Nat.add_zero] at hto
      rw [if_pos hbetween, hfrom.resolve_left hto]
      exact ⟨Finset.mem_univ t, rfl⟩

/-- While the enqueue of an item has not been stamped twice, its owner is in it. -/
theorem Inv.open_enqueue (hinv : W.Inv log s) (hx : W.Sampled x)
    (hopen : Open log .enqueueStart .enqueueDone x) :
  1 ≤ (Finset.univ.filter fun u => W.between u 2 4 (s.worker u) = some x).card
  := by
  have hle := hinv.total_le_between (fun u => (hinv.record u).enqueueStart)
    (fun u => (hinv.record u).enqueueDone) hx.lt hx
  have hpos := hopen.1
  have hzero := hopen.2
  omega

/-- While the dequeue of an item has not been stamped twice, a worker is to stamp it. -/
theorem Inv.open_dequeue (hinv : W.Inv log s) (hx : W.Sampled x)
    (hopen : Open log .dequeueStart .dequeueDone x) :
  1 ≤ (Finset.univ.filter fun u => (s.worker u).stamping = some x).card
  := by
  have hstart := hinv.total_dequeueStart hx
  have hdone := hinv.total_dequeueDone hx
  have howes : (Finset.univ.filter fun u => (s.worker u).owes .dequeueDone = some x).card ≤
      (Finset.univ.filter fun u => (s.worker u).owes .dequeueStart = some x).card +
        (Finset.univ.filter fun u => (s.worker u).stamping = some x).card := by
    rw [Finset.card_filter, Finset.card_filter, Finset.card_filter, ← Finset.sum_add_distrib]
    apply Finset.sum_le_sum
    intro u _
    cases s.worker u with
    | _ => simp [Worker.owes, Worker.stamping]
  have hpos := hopen.1
  have hzero := hopen.2
  omega

/-- An item on its way is being enqueued, in the queue, or being dequeued. -/
theorem Inv.open_latency (hinv : W.Inv log s) (hx : W.Sampled x)
    (hopen : Open log .enqueueStart .dequeueDone x) :
  1 ≤ (Finset.univ.filter fun u => W.between u 2 3 (s.worker u) = some x).card + s.queue.count x +
    (Finset.univ.filter fun u => (s.worker u).owes .dequeueDone = some x).card
  := by
  have hle := hinv.total_le_between (fun u => (hinv.record u).enqueueStart)
    (fun u => (hinv.record u).enqueue) hx.lt trivial
  have hkept := hinv.kept x
  have hdone := hinv.total_dequeueDone hx
  have hpos := hopen.1
  have hzero := hopen.2
  omega

/-- Sums over the items with an open account. -/
theorem card_open_le {D : Finset ℕ} {f : ℕ → ℕ} (hf : ∀ x ∈ D, Open log σ σ' x → 1 ≤ f x) :
  (D.filter (Open log σ σ')).card ≤ ∑ x ∈ D, f x
  := by
  rw [Finset.card_filter]
  apply Finset.sum_le_sum
  intro x hx
  split
  case isTrue hopen => exact hf x hx hopen
  case isFalse => exact Nat.zero_le _

/-- No more items are on their way than workers are at work. -/
theorem Inv.card_latency_le (hinv : W.Inv log s) :
  (W.samples.filter (Open log .enqueueStart .dequeueDone)).card ≤
    (Finset.univ.filter fun t => (s.worker t).Working).card
  := by
  have hsum := card_open_le (D := W.samples)
    fun x hx hopen => hinv.open_latency (mem_samples.mp hx) hopen
  rw [Finset.sum_add_distrib, Finset.sum_add_distrib] at hsum
  have henqueue := sum_card_eq_some_le (fun t => W.between t 2 3 (s.worker t)) W.samples
  have hqueue := sum_count_le_length s.queue W.samples
  have hdequeue := sum_card_eq_some_le (fun t => (s.worker t).owes .dequeueDone) W.samples
  rw [hinv.balance] at hqueue
  have hwork : (Finset.univ.filter fun t => (W.between t 2 3 (s.worker t)).isSome).card +
      (Finset.univ.filter fun t => (s.worker t).Between).card +
      (Finset.univ.filter fun t => ((s.worker t).owes .dequeueDone).isSome).card ≤
        (Finset.univ.filter fun t => (s.worker t).Working).card := by
    rw [Finset.card_filter, Finset.card_filter, Finset.card_filter, Finset.card_filter,
      ← Finset.sum_add_distrib, ← Finset.sum_add_distrib]
    apply Finset.sum_le_sum
    intro t _
    cases s.worker t with
    | _ => simp [between, Worker.stage, Worker.Between, Worker.owes, Worker.Working, Worker.Started]
  omega

/-- A worker is in one call at a time. -/
theorem Inv.card_calls_le (hinv : W.Inv log s) :
  (W.samples.filter (Open log .enqueueStart .enqueueDone)).card +
      (W.samples.filter (Open log .dequeueStart .dequeueDone)).card +
      (Finset.univ.filter fun t => ((s.worker t).clocked).isSome).card ≤
    (Finset.univ.filter fun t => (s.worker t).Working).card
  := by
  have hsum₁ := card_open_le (D := W.samples)
    fun x hx hopen => hinv.open_enqueue (mem_samples.mp hx) hopen
  have hsum₂ := card_open_le (D := W.samples)
    fun x hx hopen => hinv.open_dequeue (mem_samples.mp hx) hopen
  have henqueue := sum_card_eq_some_le (fun t => W.between t 2 4 (s.worker t)) W.samples
  have hdequeue := sum_card_eq_some_le (fun t => (s.worker t).stamping) W.samples
  have hwork : (Finset.univ.filter fun t => (W.between t 2 4 (s.worker t)).isSome).card +
      (Finset.univ.filter fun t => ((s.worker t).stamping).isSome).card +
      (Finset.univ.filter fun t => ((s.worker t).clocked).isSome).card ≤
        (Finset.univ.filter fun t => (s.worker t).Working).card := by
    rw [Finset.card_filter, Finset.card_filter, Finset.card_filter, Finset.card_filter,
      ← Finset.sum_add_distrib, ← Finset.sum_add_distrib]
    apply Finset.sum_le_sum
    intro t _
    cases s.worker t with
    | _ =>
        simp [between, Worker.stage, Worker.stamping, Worker.clocked, Worker.Working,
          Worker.Started]
  omega

variable (W) in
/-- The latencies add up to no more than the time at work, and so do the times of the calls. -/
structure Charged (log : List (Fin W.nThreads × Action)) (s : State W.nThreads) (now : ℤ) :
    Prop where
  latency : ∑ x ∈ W.samples, s.age log now .enqueueStart .dequeueDone x ≤ ∑ t, s.elapsed now t
  calls : ∑ x ∈ W.samples, s.age log now .enqueueStart .enqueueDone x +
    ∑ x ∈ W.samples, s.age log now .dequeueStart .dequeueDone x +
      ∑ t, (s.worker t).lead now ≤ ∑ t, s.elapsed now t

theorem Charged.wait (h : W.Charged log s now) (hinv : W.Inv log s) (hle : now ≤ now') :
  W.Charged log s now'
  := by
  have hpass : (0 : ℤ) ≤ now' - now := by omega
  constructor
  case latency =>
    have hcard := mul_le_mul_of_nonneg_right (Int.ofNat_le.mpr hinv.card_latency_le) hpass
    rw [sum_age_wait s log now, sum_elapsed_wait s now]
    exact add_le_add h.latency hcard
  case calls =>
    have hcard := mul_le_mul_of_nonneg_right (Int.ofNat_le.mpr hinv.card_calls_le) hpass
    rw [Nat.cast_add, Nat.cast_add, add_mul, add_mul] at hcard
    have hcalls := h.calls
    rw [sum_age_wait s log now now' .enqueueStart .enqueueDone,
      sum_age_wait s log now now' .dequeueStart .dequeueDone, sum_elapsed_wait s now,
      sum_lead_wait s now]
    linarith

theorem Charged.step (h : W.Charged log s now) (hinv : W.Inv log s) (htimes : W.Times log s now)
    (hs : W.step t now s = some (s', e)) :
  W.Charged (log ++ [(t, e)]) s' now
  := by
  obtain ⟨w, hw, hgo, -, -, -⟩ := step_inv hinv.flags hs
  obtain ⟨-, -, -, hclock⟩ := step_times hs
  have helapsed : ∑ u, s'.elapsed now u = ∑ u, s.elapsed now u :=
    Finset.sum_congr rfl fun u _ => elapsed_step hinv hs u
  have hage : ∀ σ σ', σ.Before σ' →
      ∑ x ∈ W.samples, s'.age (log ++ [(t, e)]) now σ σ' x =
        ∑ x ∈ W.samples, s.age log now σ σ' x +
          ∑ x ∈ W.samples, if e = .write σ x then now - (s.worker t).reading now else 0 := by
    intro σ σ' hbefore
    rw [← Finset.sum_add_distrib]
    apply Finset.sum_congr rfl
    intro x hx
    apply age_step hinv htimes hs hbefore (mem_samples.mp hx)
  have hstart : ∑ x ∈ W.samples,
      (if e = .write .enqueueStart x then now - (s.worker t).reading now else 0) = 0 := by
    apply Finset.sum_eq_zero
    intro x _
    split
    case isTrue he =>
      subst he
      rw [(htimes.written hgo).2.2.2 (by rintro ⟨⟩), sub_self]
    case isFalse => rfl
  constructor
  case latency =>
    rw [hage _ _ .latency, hstart, helapsed, add_zero]
    exact h.latency
  case calls =>
    have hlead : w.lead now + ∑ x ∈ W.samples,
        (if e = .write .dequeueStart x then now - (s.worker t).reading now else 0) ≤
          (s.worker t).lead now := by
      apply hgo.lead_le fun t₀ ht₀ => (htimes.clock t t₀ ht₀).2
      intro i rng t₀ heq
      apply hclock i rng t₀
      rw [hw, Function.update_self, heq]
    have hsum := sum_update_add s.worker (Worker.lead now) t w
    have hcalls := h.calls
    rw [hage _ _ .enqueue, hage _ _ .dequeue, hstart, helapsed, hw]
    omega

theorem charged (h : Timed W.step W.init log s now) :
  W.Charged log s now
  := by
  induction h with
  | start now =>
      constructor
      all_goals simp [init, State.age, State.elapsed, Worker.Started, Worker.lead, Worker.clocked]
  | wait past hle ih => exact ih.wait (Workload.inv past.execution) hle
  | step past here ih => exact ih.step (Workload.inv past.execution) (times past) here

end Workload

/-! ### The totals -/

/-- The totals are those of the sampled items. -/
theorem totals_eq (items : List TestItem) :
  totals items =
    { enqueue := ((items.filter TestItem.shouldSample).map fun item =>
        item.enqueueDone - item.enqueueStart).sum
      dequeue := ((items.filter TestItem.shouldSample).map fun item =>
        item.dequeueDone - item.dequeueStart).sum
      latency := ((items.filter TestItem.shouldSample).map fun item =>
        item.dequeueDone - item.enqueueStart).sum }
  := by
  induction items using List.reverseRecOn with
  | nil => rfl
  | append_singleton items item ih =>
      rw [totals] at ih ⊢
      rw [List.foldl_append, ih, List.foldl_cons, List.foldl_nil, List.filter_append]
      cases hitem : item.shouldSample with
      | true => simp [hitem]
      | false => simp [hitem]

/-- A sum over the items with a property is one over their indices. -/
theorem sum_filter_map (items : List TestItem) (g : TestItem → ℤ) :
  ∑ x ∈ (Finset.range items.length).filter
      (fun x => items[x]?.map TestItem.shouldSample = some true), (items[x]?.map g).getD 0 =
    ((items.filter TestItem.shouldSample).map g).sum
  := by
  rw [Finset.sum_filter]
  induction items using List.reverseRecOn with
  | nil => rfl
  | append_singleton items item ih =>
      rw [List.length_append, List.length_singleton, Finset.sum_range_succ, List.filter_append,
        List.map_append, List.sum_append, ← ih]
      apply congrArg₂ (· + ·)
      · apply Finset.sum_congr rfl
        intro x hx
        rw [List.getElem?_append_left (Finset.mem_range.mp hx)]
      · rw [List.getElem?_append_right (le_refl _), Nat.sub_self]
        cases hitem : item.shouldSample with
        | true => simp [hitem]
        | false => simp [hitem]

/-- However many of the items are looked at, their latencies add up to at most `n` times the wall time,
and so do the times of their enqueues and dequeues. -/
def State.SharesWall {n : ℕ} (s : State n) : Prop :=
  ∀ k a b, s.wallStart = some a → s.wallEnd = some b →
    0 ≤ (totals (s.items.take k)).enqueue ∧ 0 ≤ (totals (s.items.take k)).dequeue ∧
      0 ≤ (totals (s.items.take k)).latency ∧
      (totals (s.items.take k)).latency ≤ n * (b - a) ∧
      (totals (s.items.take k)).enqueue + (totals (s.items.take k)).dequeue ≤ n * (b - a)

namespace Workload

variable {W : Workload} {s : State W.nThreads} {log : List (Fin W.nThreads × Action)} {now : ℤ}

theorem Inv.samples_eq (h : W.Inv log s) :
  W.samples = (Finset.range s.items.length).filter
    (fun x => s.items[x]?.map TestItem.shouldSample = some true)
  := by
  have hlength : s.items.length = W.items.length := by
    rw [← List.length_map (f := TestItem.shouldSample), h.flags, List.length_map]
  rw [samples, hlength]
  apply Finset.filter_congr
  intro x _
  rw [Sampled, ← List.getElem?_map, ← List.getElem?_map, h.flags]

/-- In the end what has passed between two stamps is their difference. -/
theorem Inv.sum_age (h : W.Inv log s) (hended : ∀ t, s.worker t = .ended) (σ σ' : Stamp) :
  ∑ x ∈ W.samples, s.age log now σ σ' x =
    ((s.items.filter TestItem.shouldSample).map fun item => item.read σ' - item.read σ).sum
  := by
  rw [← sum_filter_map, ← h.samples_eq]
  apply Finset.sum_congr rfl
  intro x hx
  have hwritten := (h.complete hended).written (mem_samples.mp hx)
  rw [State.age, if_neg (Nat.ne_of_gt (hwritten σ)), if_neg (Nat.ne_of_gt (hwritten σ')),
    State.time, State.time]
  cases s.items[x]? with
  | none => rfl
  | some item => rfl

/-- In the end the stamps of the sampled items are in order. -/
theorem ordered (h : Timed W.step W.init log s now) (hended : ∀ t, s.worker t = .ended)
    {σ σ' : Stamp} (hbefore : σ.Before σ') {item : TestItem}
    (hitem : item ∈ s.items.filter TestItem.shouldSample) :
  0 ≤ item.read σ' - item.read σ
  := by
  have hinv := Workload.inv h.execution
  obtain ⟨hmem, hflag⟩ := List.mem_filter.mp hitem
  obtain ⟨x, hx⟩ := List.mem_iff_getElem?.mp hmem
  have hwritten := (hinv.complete hended).written (hinv.sampled hx hflag)
  have hle := (times h).order x item σ σ' hx hbefore (hwritten σ')
  omega

/-- In the end the workers have been at work for at most `n` times the wall time. -/
theorem sum_elapsed_le (hended : ∀ t, s.worker t = .ended) {a b : ℤ} (ha : s.wallStart = some a)
    (hb : s.wallEnd = some b) :
  ∑ t, s.elapsed now t ≤ W.nThreads * (b - a)
  := by
  have hle : ∀ t ∈ Finset.univ, s.elapsed now t ≤ b - a := by
    intro t _
    have hstart : s.starts t ∈ List.ofFn s.starts := List.mem_ofFn.mpr ⟨t, rfl⟩
    have hend : s.ends t ∈ List.ofFn s.ends := List.mem_ofFn.mpr ⟨t, rfl⟩
    have hmin := (List.min?_eq_some_iff.mp ha).2 _ hstart
    have hmax := (List.max?_eq_some_iff.mp hb).2 _ hend
    rw [State.elapsed, if_pos (by rw [hended t]; trivial), State.upTo, if_pos (hended t)]
    omega
  have hsum := Finset.sum_le_card_nsmul Finset.univ (s.elapsed now) (b - a) hle
  rwa [Finset.card_univ, Fintype.card_fin, nsmul_eq_mul] at hsum

/-- When all workers have ended, the totals are within the wall time of all of them. -/
theorem sharesWall (h : Timed W.step W.init log s now) (hended : ∀ t, s.worker t = .ended) :
  s.SharesWall
  := by
  have hinv := Workload.inv h.execution
  have hcharged := charged h
  have hlead : ∑ t, (s.worker t).lead now = 0 := by
    apply Finset.sum_eq_zero
    intro t _
    rw [hended t]
    rfl
  have hpart : ∀ k {σ σ' : Stamp}, σ.Before σ' →
      0 ≤ (((s.items.take k).filter TestItem.shouldSample).map fun item =>
        item.read σ' - item.read σ).sum ∧
      (((s.items.take k).filter TestItem.shouldSample).map fun item =>
        item.read σ' - item.read σ).sum ≤ ∑ x ∈ W.samples, s.age log now σ σ' x := by
    intro k σ σ' hbefore
    have hsub := (List.take_sublist k s.items).filter TestItem.shouldSample
    constructor
    · apply List.sum_nonneg
      rintro d hd
      obtain ⟨item, hitem, rfl⟩ := List.mem_map.mp hd
      apply ordered h hended hbefore (hsub.subset hitem)
    · rw [hinv.sum_age hended]
      apply (hsub.map _).sum_le_sum
      rintro d hd
      obtain ⟨item, hitem, rfl⟩ := List.mem_map.mp hd
      apply ordered h hended hbefore hitem
  intro k a b ha hb
  have helapsed : ∑ t, s.elapsed now t ≤ W.nThreads * (b - a) := sum_elapsed_le hended ha hb
  obtain ⟨henqueue₀, henqueue⟩ := hpart k .enqueue
  obtain ⟨hdequeue₀, hdequeue⟩ := hpart k .dequeue
  obtain ⟨hlatency₀, hlatency⟩ := hpart k .latency
  have hcalls := hcharged.calls
  rw [hlead, add_zero] at hcalls
  rw [totals_eq]
  exact ⟨henqueue₀, hdequeue₀, hlatency₀, hlatency.trans (hcharged.latency.trans helapsed),
    (add_le_add henqueue hdequeue).trans (hcalls.trans helapsed)⟩

end Workload

end Benchmark
