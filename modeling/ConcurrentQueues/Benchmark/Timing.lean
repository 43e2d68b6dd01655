import ConcurrentQueues.Benchmark.Queues

/-!
# The times of the benchmark

A stamp of an item is written once, when those that are to come before it have been written and
those after it have not. It holds a time at which the worker that writes it is at work. So in the
end all stamps lie between the first start and the last end of a worker, and those of an item are in
order: what is exported are times between zero and the wall time.
-/

namespace Benchmark

/-- The time a stamp of an item holds. -/
def TestItem.read (item : TestItem) : Stamp → ℤ
  | .enqueueStart => item.enqueueStart
  | .enqueueDone => item.enqueueDone
  | .dequeueStart => item.dequeueStart
  | .dequeueDone => item.dequeueDone

/-- Of two stamps of an item, the first is to come before the second. -/
inductive Stamp.Before : Stamp → Stamp → Prop where
  | enqueue : Before .enqueueStart .enqueueDone
  | dequeue : Before .dequeueStart .dequeueDone
  | latency : Before .enqueueStart .dequeueDone

/-- The variable `wall_start`, if there is a worker. -/
def State.wallStart {n : ℕ} (s : State n) : Option ℤ := (List.ofFn s.starts).min?

/-- The variable `wall_end`, if there is a worker. -/
def State.wallEnd {n : ℕ} (s : State n) : Option ℤ := (List.ofFn s.ends).max?

/-- The time a worker writes to a stamp, when the clock shows `now`. -/
def Worker.reading (now : ℤ) : Worker → ℤ
  | .dequeueStart _ _ t₀ _ => t₀
  | _ => now

/-- The variable `t0`, where it is in scope. -/
def Worker.clocked : Worker → Option ℤ
  | .dequeue _ _ t₀ | .checkGot _ _ t₀ _ | .dequeueStart _ _ t₀ _ => some t₀
  | _ => none

/-- The worker has taken its start. -/
def Worker.Started : Worker → Prop
  | .arrive | .wait | .begin => False
  | _ => True

theorem Worker.started_of_clocked {w : Worker} {t₀ : ℤ} (h : w.clocked = some t₀) :
  w.Started
  := by
  cases w with
  | _ => simp_all [Worker.clocked, Worker.Started]

/-- What becomes of the items when `time` is written. -/
def Action.stamped (time : ℤ) (items : List TestItem) : Action → List TestItem
  | .write stamp x => items.modify x fun item => item.stamp time stamp
  | _ => items

/-- The time up to which worker `t` has been at work, when the clock shows `now`. -/
def State.upTo {n : ℕ} (s : State n) (now : ℤ) (t : Fin n) : ℤ :=
  if s.worker t = .ended then s.ends t else now

/-- At `time` some worker was at work. -/
def State.Spans {n : ℕ} (s : State n) (now time : ℤ) : Prop :=
  ∃ t, (s.worker t).Started ∧ s.starts t ≤ time ∧ time ≤ s.upTo now t

@[simp]
theorem read_stamp_self (item : TestItem) (time : ℤ) (σ : Stamp) :
  (item.stamp time σ).read σ = time
  := by
  cases σ with
  | _ => rfl

theorem read_stamp_of_ne (item : TestItem) (time : ℤ) {σ σ' : Stamp} (h : σ' ≠ σ) :
  (item.stamp time σ).read σ' = item.read σ'
  := by
  cases σ with
  | _ =>
      cases σ' with
      | _ => simp_all [TestItem.stamp, TestItem.read]

/-- What becomes of the stamps of an item. -/
theorem stamped_getElem? {e : Action} {time : ℤ} {items : List TestItem} {x : ℕ} {item : TestItem}
    (h : (e.stamped time items)[x]? = some item) :
  ∃ old, items[x]? = some old ∧ ∀ σ, (e = .write σ x → item.read σ = time) ∧
    (e ≠ .write σ x → item.read σ = old.read σ)
  := by
  cases e with
  | write σ y =>
      rw [Action.stamped, List.getElem?_modify] at h
      obtain ⟨old, hold, heq⟩ := Option.map_eq_some_iff.mp h
      refine ⟨old, hold, fun σ' => ⟨?_, ?_⟩⟩
      · intro he
        cases he
        rw [← heq, if_pos rfl]
        apply read_stamp_self
      · intro hne
        rw [← heq]
        split
        case isTrue hy =>
          subst hy
          apply read_stamp_of_ne
          rintro rfl
          exact hne rfl
        case isFalse => rfl
  | _ => exact ⟨item, h, fun σ => ⟨by rintro ⟨⟩, fun _ => rfl⟩⟩

theorem Stamp.Before.ne {σ σ' : Stamp} (h : σ.Before σ') :
  σ ≠ σ'
  := by
  cases h with
  | _ => rintro ⟨⟩

namespace Workload

variable {W : Workload} {t : Fin W.nThreads} {s s' : State W.nThreads} {e : Action} {now : ℤ}

/-- What a step does to the stamps, the starts and the ends. -/
theorem step_times (hs : W.step t now s = some (s', e)) :
  s'.items = e.stamped ((s.worker t).reading now) s.items ∧
    s'.starts = (if s.worker t = .begin then Function.update s.starts t now else s.starts) ∧
    s'.ends = (if s'.worker t = .ended then Function.update s.ends t now else s.ends) ∧
    ∀ i rng t₀, s'.worker t = .dequeue i rng t₀ → t₀ = now
  := by
  cases hw : s.worker t with
  | ended =>
      simp only [step, hw] at hs
      cases hs
  | wait | loop =>
      simp only [step, hw] at hs
      split at hs
      all_goals cases hs
      all_goals simp [State.goto, Action.stamped]
  | check | checkGot =>
      simp only [step, hw] at hs
      obtain ⟨item, -, heq⟩ := Option.map_eq_some_iff.mp hs
      split at heq
      all_goals cases heq
      all_goals simp [State.goto, Action.stamped]
  | dequeue =>
      simp only [step, hw] at hs
      split at hs
      all_goals cases hs
      all_goals simp [State.goto, Action.stamped]
  | enqueue i rng sample =>
      simp only [step, hw] at hs
      cases hs
      cases sample with
      | _ => simp [State.goto, Action.stamped]
  | _ =>
      simp only [step, hw] at hs
      cases hs
      simp [State.goto, State.write, Action.stamped, Worker.reading]

/-! ### Which stamps have been written -/

/-- An item that is enqueued by the round `k` is in the section. -/
theorem Own.mono {k m x : ℕ} (h : W.Own t k x) (hle : k ≤ m) :
  W.Own t m x
  := ⟨h.1, lt_of_lt_of_le h.2 (Nat.add_le_add_left hle _)⟩

/-- A worker does not pass a point in more rounds than it makes. -/
theorem passed_le {w : Worker} (hv : W.Valid t w) (stage : ℕ) :
  w.passed W.opsPerThread stage ≤ W.opsPerThread
  := by
  rw [Worker.passed]
  cases w with
  | loop =>
      simp only [Valid, Worker.round, Worker.stage] at hv ⊢
      simpa using hv
  | arrive | wait | begin | finish | ended => simp [Worker.round, Worker.stage]
  | check | work | clock | dequeue | rest =>
      simp only [Valid, Worker.round] at hv ⊢
      split
      all_goals omega
  | _ =>
      have hlt := hv.1
      simp only [Worker.round]
      split
      all_goals omega

theorem passed_anti (w : Worker) {stage stage' : ℕ} (hle : stage ≤ stage') :
  w.passed W.opsPerThread stage' ≤ w.passed W.opsPerThread stage
  := by
  rw [Worker.passed, Worker.passed]
  split
  case isTrue hlt => rw [if_pos (lt_of_le_of_lt hle hlt)]
  case isFalse => exact Nat.add_le_add_left (Nat.zero_le _) _

section stamps

variable {log : List (Fin W.nThreads × Action)} {x : ℕ}

/-- What only the owner of an item does to it is done in all as often as by the owner. -/
theorem total_eq_of_owner {f : ℕ → Action} {P : ℕ → Prop} [DecidablePred P]
    {k : Fin W.nThreads → ℕ} (hk : ∀ u, k u ≤ W.opsPerThread)
    (hf : ∀ u, W.Tallied u P (fun y => tally log u (f y)) (k u)) (hx : W.Owner t x)
    (hlt : x < W.items.length) :
  total log (f x) = if W.Own t (k t) x ∧ P x then 1 else 0
  := by
  obtain ⟨v, hv⟩ := exists_owner hlt
  obtain rfl := (hv t).mp hx
  rw [total_eq_sum, Finset.sum_eq_single t]
  · exact hf t x
  · intro u _ hu
    apply (hf u x).trans (if_neg _)
    intro hown
    exact hu ((hv u).mp (hown.1.mono (hk u)))
  · exact fun hno => absurd (Finset.mem_univ t) hno

namespace Inv

theorem total_enqueueStart_eq (h : W.Inv log s) (hx : W.Owner t x) (hlt : x < W.items.length) :
  total log (.write .enqueueStart x) =
    if W.Own t ((s.worker t).passed W.opsPerThread 2) x ∧ W.Sampled x then 1 else 0
  := total_eq_of_owner (fun u => passed_le (h.record u).valid 2)
    (fun u => (h.record u).enqueueStart) hx hlt

theorem total_enqueue_eq (h : W.Inv log s) (hx : W.Owner t x) (hlt : x < W.items.length) :
  total log (.enqueue x) = if W.Own t ((s.worker t).passed W.opsPerThread 3) x then 1 else 0
  := (total_eq_of_owner (fun u => passed_le (h.record u).valid 3)
    (fun u => (h.record u).enqueue) hx hlt).trans (if_congr (and_iff_left trivial) rfl rfl)

theorem total_enqueueDone_eq (h : W.Inv log s) (hx : W.Owner t x) (hlt : x < W.items.length) :
  total log (.write .enqueueDone x) =
    if W.Own t ((s.worker t).passed W.opsPerThread 4) x ∧ W.Sampled x then 1 else 0
  := total_eq_of_owner (fun u => passed_le (h.record u).valid 4)
    (fun u => (h.record u).enqueueDone) hx hlt

/-- The start of its enqueue is written before an item is enqueued, and the end after. -/
theorem total_enqueue_le (h : W.Inv log s) (hx : W.Sampled x) :
  total log (.write .enqueueDone x) ≤ total log (.enqueue x) ∧
    total log (.enqueue x) ≤ total log (.write .enqueueStart x) ∧
    total log (.write .enqueueStart x) ≤ 1
  := by
  obtain ⟨t, ht⟩ := exists_owner hx.lt
  have howner := (ht t).mpr rfl
  have h₃₄ : W.Own t ((s.worker t).passed W.opsPerThread 4) x →
      W.Own t ((s.worker t).passed W.opsPerThread 3) x :=
    fun hown => hown.mono (passed_anti _ (Nat.le_succ 3))
  have h₂₃ : W.Own t ((s.worker t).passed W.opsPerThread 3) x →
      W.Own t ((s.worker t).passed W.opsPerThread 2) x :=
    fun hown => hown.mono (passed_anti _ (Nat.le_succ 2))
  rw [h.total_enqueueStart_eq howner hx.lt, h.total_enqueue_eq howner hx.lt,
    h.total_enqueueDone_eq howner hx.lt]
  simp only [hx, and_true]
  refine ⟨?_, ?_, ?_⟩
  all_goals split
  all_goals simp_all

/-- A stamp of a dequeue is written at most as often as the item has been dequeued, and less often
while it is owed. -/
theorem total_settled {σ : Stamp} (hσ : ∀ u, W.Settled (fun x => tally log u (.write σ x))
      (fun x => tally log u (.dequeue x)) ((s.worker u).owes σ)) (hx : W.Sampled x) :
  total log (.write σ x) + (Finset.univ.filter fun u => (s.worker u).owes σ = some x).card =
    total log (.dequeue x)
  := by
  rw [total_eq_sum, total_eq_sum, Finset.card_filter, ← Finset.sum_add_distrib]
  apply Finset.sum_congr rfl
  intro u _
  have hu := hσ u x
  simpa only [hx, and_true, if_true] using hu

theorem total_dequeueStart (h : W.Inv log s) (hx : W.Sampled x) :
  total log (.write .dequeueStart x) +
      (Finset.univ.filter fun u => (s.worker u).owes .dequeueStart = some x).card =
    total log (.dequeue x)
  := total_settled (fun u => (h.record u).dequeueStart) hx

theorem total_dequeueDone (h : W.Inv log s) (hx : W.Sampled x) :
  total log (.write .dequeueDone x) +
      (Finset.univ.filter fun u => (s.worker u).owes .dequeueDone = some x).card =
    total log (.dequeue x)
  := total_settled (fun u => (h.record u).dequeueDone) hx

/-- An item is dequeued at most once. -/
theorem total_dequeue_le (h : W.Inv log s) (hx : W.Sampled x) :
  total log (.dequeue x) ≤ total log (.enqueue x) ∧ total log (.enqueue x) ≤ 1
  := by
  have hkept := h.kept x
  have henqueue := h.total_enqueue_le hx
  omega

/-- A stamp that is owed has not been written. -/
theorem card_owes_pos {σ : Stamp} (ht : (s.worker t).owes σ = some x) :
  0 < (Finset.univ.filter fun u => (s.worker u).owes σ = some x).card
  := Finset.card_pos.mpr ⟨t, Finset.mem_filter.mpr ⟨Finset.mem_univ t, ht⟩⟩

/-- A stamp is written once, after those that are to come before it and before the others. -/
theorem stamp (h : W.Inv log s) {σ : Stamp} {w : Worker}
    (hgo : W.Goes t (s.worker t) (.write σ x) w) :
  W.Sampled x ∧ total log (.write σ x) = 0 ∧
    (∀ σ', σ.Before σ' → total log (.write σ' x) = 0) ∧
    ∀ σ', σ'.Before σ → 0 < total log (.write σ' x)
  := by
  have hvalid := (h.record t).valid
  have hsettled := (h.record t).dequeueStart x
  generalize hw : s.worker t = v at hgo
  rw [hw] at hvalid hsettled
  cases hgo with
  | enqueueStart i rng =>
      have howner : W.Owner t (W.myItem t i) := (own_succ hvalid.1).mpr (Or.inr rfl) |>.mono hvalid.1
      have hstart := h.total_enqueueStart_eq howner hvalid.2.lt
      rw [hw, if_neg fun hown => not_own_myItem hvalid.1 hown.1] at hstart
      have henqueue := h.total_enqueue_le hvalid.2
      have hdequeue := h.total_dequeue_le hvalid.2
      have hdone := h.total_dequeueDone hvalid.2
      refine ⟨hvalid.2, hstart, ?_, ?_⟩
      · rintro σ' ⟨⟩
        all_goals omega
      · rintro σ' ⟨⟩
  | enqueueDone i rng =>
      have hown : W.Own t (i + 1) (W.myItem t i) := (own_succ hvalid.1).mpr (Or.inr rfl)
      have howner : W.Owner t (W.myItem t i) := hown.mono hvalid.1
      have hstart := h.total_enqueueStart_eq howner hvalid.2.lt
      have hdone := h.total_enqueueDone_eq howner hvalid.2.lt
      rw [hw, if_pos ⟨hown, hvalid.2⟩] at hstart
      rw [hw, if_neg fun hown => not_own_myItem hvalid.1 hown.1] at hdone
      refine ⟨hvalid.2, hdone, ?_, ?_⟩
      · rintro σ' ⟨⟩
      · rintro σ' ⟨⟩
        omega
  | dequeueStart i rng t₀ =>
      have hstart := h.total_dequeueStart hvalid.2
      have hdone := h.total_dequeueDone hvalid.2
      have hpos₁ : 0 < _ := card_owes_pos (σ := .dequeueStart) (by rw [hw]; rfl)
      have hpos₂ : 0 < _ := card_owes_pos (σ := .dequeueDone) (by rw [hw]; rfl)
      have hdequeue := h.total_dequeue_le hvalid.2
      refine ⟨hvalid.2, by omega, ?_, ?_⟩
      · rintro σ' ⟨⟩
        omega
      · rintro σ' ⟨⟩
  | dequeueDone i rng =>
      have hdone := h.total_dequeueDone hvalid.2
      have hpos : 0 < _ := card_owes_pos (σ := .dequeueDone) (by rw [hw]; rfl)
      have hdequeue := h.total_dequeue_le hvalid.2
      have henqueue := h.total_enqueue_le hvalid.2
      refine ⟨hvalid.2, by omega, ?_, ?_⟩
      · rintro σ' ⟨⟩
      · rintro σ' ⟨⟩
        · have hstart : 0 < tally log t (.write .dequeueStart x) := by
            have hrec := (h.record t).dequeueDone x
            rw [hw] at hrec
            simp [Worker.owes, hvalid.2] at hsettled hrec
            omega
          apply lt_of_lt_of_le hstart (tally_le_total ..)
        · omega

end Inv

end stamps

/-! ### Which times they hold -/

section goes

variable {w w' : Worker} {σ : Stamp} {x : ℕ} (h : W.Goes t w e w')

include h

theorem Goes.not_ended :
  w ≠ .ended
  := by
  cases h with
  | _ => rintro ⟨⟩

theorem Goes.started :
  w'.Started ↔ w.Started ∨ w = .begin
  := by
  cases h with
  | _ => simp [Worker.Started]

theorem Goes.clocked {t₀ : ℤ} (ht₀ : w'.clocked = some t₀) :
  w.Started ∧ (w.clocked = some t₀ ∨ ∃ i rng, w' = .dequeue i rng t₀)
  := by
  cases h with
  | _ => simp_all [Worker.clocked, Worker.Started]

omit h in
/-- Only the start of a dequeue is taken from the variable `t0`. -/
theorem Goes.write_inv (h : W.Goes t w (.write σ x) w') :
  w.Started ∧ (σ = .dequeueStart ∧ w.clocked = some (w.reading now) ∨
    σ ≠ .dequeueStart ∧ w.reading now = now)
  := by
  cases h with
  | _ => simp [Worker.Started, Worker.clocked, Worker.reading]

end goes

/-- A step does not change up to when a worker has been at work. -/
theorem upTo_step (hne : s.worker t ≠ .ended)
    (hworker : ∀ u, u ≠ t → s'.worker u = s.worker u)
    (hends : s'.ends = if s'.worker t = .ended then Function.update s.ends t now else s.ends)
    (u : Fin W.nThreads) :
  s'.upTo now u = s.upTo now u
  := by
  rw [State.upTo, State.upTo, hends]
  by_cases hu : u = t
  · rw [hu, if_neg hne]
    split
    · apply Function.update_self
    · rfl
  · rw [hworker u hu]
    split
    · split
      · apply Function.update_of_ne hu
      · rfl
    · rfl

/-- A step does not change when a worker has started. -/
theorem starts_step
    (hstarts : s'.starts = if s.worker t = .begin then Function.update s.starts t now else s.starts)
    {u : Fin W.nThreads} (hu : (s.worker u).Started) :
  s'.starts u = s.starts u
  := by
  rw [hstarts]
  split
  case isTrue hbegin =>
    apply Function.update_of_ne
    rintro rfl
    rw [hbegin] at hu
    exact hu
  case isFalse => rfl

variable (W) in
/-- What the stamps, the starts and the variables `t0` hold, when the clock shows `now`. -/
structure Times (log : List (Fin W.nThreads × Action)) (s : State W.nThreads) (now : ℤ) :
    Prop where
  work : ∀ t, (s.worker t).Started → s.starts t ≤ s.upTo now t ∧ s.upTo now t ≤ now
  clock : ∀ t t₀, (s.worker t).clocked = some t₀ → s.starts t ≤ t₀ ∧ t₀ ≤ now
  stamps : ∀ x item σ, s.items[x]? = some item → 0 < total log (.write σ x) →
    s.Spans now (item.read σ)
  order : ∀ x item σ σ', s.items[x]? = some item → σ.Before σ' →
    0 < total log (.write σ' x) → item.read σ ≤ item.read σ'

theorem Times.wait {log : List (Fin W.nThreads × Action)} {now' : ℤ} (h : W.Times log s now)
    (hle : now ≤ now') :
  W.Times log s now'
  := by
  have hup : ∀ u, s.upTo now u ≤ s.upTo now' u := by
    intro u
    rw [State.upTo, State.upTo]
    split
    · exact le_rfl
    · exact hle
  constructor
  case work =>
    intro t ht
    obtain ⟨hstart, hend⟩ := h.work t ht
    refine ⟨hstart.trans (hup t), ?_⟩
    rw [State.upTo] at hend ⊢
    split at hend
    case isTrue hended =>
      rw [if_pos hended]
      exact hend.trans hle
    case isFalse hended => rw [if_neg hended]
  case clock =>
    intro t t₀ ht₀
    obtain ⟨hstart, hend⟩ := h.clock t t₀ ht₀
    exact ⟨hstart, hend.trans hle⟩
  case stamps =>
    intro x item σ hitem hpos
    obtain ⟨u, hu, hstart, hend⟩ := h.stamps x item σ hitem hpos
    exact ⟨u, hu, hstart, hend.trans (hup u)⟩
  case order => exact h.order

/-- A time that is written was taken by the worker while it was at work. -/
theorem Times.written {log : List (Fin W.nThreads × Action)} {w : Worker} {σ : Stamp} {x : ℕ}
    (h : W.Times log s now) (hgo : W.Goes t (s.worker t) (.write σ x) w) :
  (s.worker t).Started ∧ s.starts t ≤ (s.worker t).reading now ∧ (s.worker t).reading now ≤ now ∧
    (σ ≠ .dequeueStart → (s.worker t).reading now = now)
  := by
  have hinv : _ ∧ (_ ∨ _ ∧ (s.worker t).reading now = now) := hgo.write_inv
  obtain ⟨hstarted, ⟨hσ, ht₀⟩ | ⟨hσ, hnow⟩⟩ := hinv
  · obtain ⟨hstart, hend⟩ := h.clock t _ ht₀
    exact ⟨hstarted, hstart, hend, fun hne => absurd hσ hne⟩
  · obtain ⟨hstart, hend⟩ := h.work t hstarted
    rw [hnow]
    exact ⟨hstarted, hstart.trans hend, le_rfl, fun _ => rfl⟩

theorem Times.step {log : List (Fin W.nThreads × Action)} (h : W.Times log s now)
    (hinv : W.Inv log s) (hs : W.step t now s = some (s', e)) :
  W.Times (log ++ [(t, e)]) s' now
  := by
  obtain ⟨w, hw, hgo, -, -, -⟩ := step_inv hinv.flags hs
  obtain ⟨hitems, hstarts, hends, hclock⟩ := step_times hs
  have hne := hgo.not_ended
  have hself : s'.worker t = w := by rw [hw, Function.update_self]
  have hworker : ∀ u, u ≠ t → s'.worker u = s.worker u := by
    intro u hu
    rw [hw, Function.update_of_ne hu]
  have hup := upTo_step hne hworker hends
  have hnow : s.upTo now t = now := if_neg hne
  have hstart : ∀ u, (s.worker u).Started → s'.starts u = s.starts u :=
    fun u hu => starts_step hstarts hu
  have hkeep : ∀ u, (s.worker u).Started → (s'.worker u).Started := by
    intro u hu
    by_cases hut : u = t
    · subst hut
      rw [hself]
      exact hgo.started.mpr (Or.inl hu)
    · rwa [hworker u hut]
  have hspans : ∀ time, s.Spans now time → s'.Spans now time := by
    rintro time ⟨u, hu, hfrom, hto⟩
    refine ⟨u, hkeep u hu, ?_, ?_⟩
    · rwa [hstart u hu]
    · rwa [hup]
  constructor
  case work =>
    intro u hu
    rw [hup]
    by_cases hold : (s.worker u).Started
    · rw [hstart u hold]
      exact h.work u hold
    · obtain rfl : u = t := by
        by_contra hut
        rw [hworker u hut] at hu
        exact hold hu
      rw [hself] at hu
      rw [hnow, hstarts, if_pos ((hgo.started.mp hu).resolve_left hold), Function.update_self]
      exact ⟨le_rfl, le_rfl⟩
  case clock =>
    intro u t₀ ht₀
    by_cases hut : u = t
    · subst hut
      rw [hself] at ht₀
      obtain ⟨hu, hold | ⟨i, rng, heq⟩⟩ := hgo.clocked ht₀
      · rw [hstart u hu]
        exact h.clock u t₀ hold
      · obtain rfl := hclock i rng t₀ (hself.trans heq)
        obtain ⟨hfrom, hto⟩ := h.work u hu
        rw [hstart u hu]
        exact ⟨hfrom.trans hto, le_rfl⟩
    · rw [hworker u hut] at ht₀
      rw [hstart u]
      · exact h.clock u t₀ ht₀
      · exact Worker.started_of_clocked ht₀
  case stamps =>
    intro x item σ hitem hpos
    rw [hitems] at hitem
    obtain ⟨old, hold, hread⟩ := stamped_getElem? hitem
    rw [total_append] at hpos
    by_cases he : e = .write σ x
    · subst he
      obtain ⟨ht, hfrom, hto, -⟩ := h.written hgo
      rw [(hread σ).1 rfl]
      refine ⟨t, hkeep t ht, ?_, ?_⟩
      · rwa [hstart t ht]
      · rwa [hup, hnow]
    · rw [(hread σ).2 he]
      rw [if_neg he] at hpos
      exact hspans _ (h.stamps x old σ hold hpos)
  case order =>
    intro x item σ σ' hitem hbefore hpos
    rw [hitems] at hitem
    obtain ⟨old, hold, hread⟩ := stamped_getElem? hitem
    rw [total_append] at hpos
    by_cases he' : e = .write σ' x
    · subst he'
      have hne' : Action.write σ' x ≠ .write σ x := by
        intro heq
        cases heq
        exact hbefore.ne rfl
      have hlast : σ' ≠ .dequeueStart := by
        rintro rfl
        cases hbefore
      obtain ⟨u, hu, -, hto⟩ := h.stamps x old σ hold ((hinv.stamp hgo).2.2.2 σ hbefore)
      rw [(hread σ').1 rfl, (hread σ).2 hne', (h.written hgo).2.2.2 hlast]
      exact hto.trans (h.work u hu).2
    · rw [if_neg he'] at hpos
      have hne' : e ≠ .write σ x := by
        rintro rfl
        have hzero := (hinv.stamp hgo).2.2.1 σ' hbefore
        omega
      rw [(hread σ).2 hne', (hread σ').2 he']
      exact h.order x old σ σ' hold hbefore hpos

theorem times {log : List (Fin W.nThreads × Action)} (h : Timed W.step W.init log s now) :
  W.Times log s now
  := by
  induction h with
  | start now =>
      constructor
      case work => exact fun t ht => absurd ht not_false
      case clock =>
        rintro t t₀ ⟨⟩
      case stamps =>
        intro x item σ _ hpos
        exact absurd hpos (Nat.lt_irrefl 0)
      case order =>
        intro x item σ σ' _ _ hpos
        exact absurd hpos (Nat.lt_irrefl 0)
  | wait _ hle ih => exact ih.wait hle
  | step past here ih => exact ih.step (Workload.inv past.execution) here

end Workload

/-! ### What is exported -/

/-- The row of an item: the times from the start of the enqueue to the end of the dequeue, of the
enqueue, and of the dequeue. -/
def TestItem.row (item : TestItem) : ℤ × ℤ × ℤ :=
  (item.dequeueDone - item.enqueueStart, item.enqueueDone - item.enqueueStart,
    item.dequeueDone - item.dequeueStart)

/-- The rows are those of the sampled items. -/
theorem exportRows_eq (items : List TestItem) :
  exportRows items = (items.filter TestItem.shouldSample).map TestItem.row
  := by
  have key : ∀ rows : List (ℤ × ℤ × ℤ), (items.foldl
      (fun rows item =>
        if !item.shouldSample then rows
        else rows ++ [(item.dequeueDone - item.enqueueStart,
          item.enqueueDone - item.enqueueStart, item.dequeueDone - item.dequeueStart)]) rows) =
        rows ++ (items.filter TestItem.shouldSample).map TestItem.row := by
    induction items with
    | nil => exact fun rows => (List.append_nil rows).symm
    | cons item items ih =>
        intro rows
        rw [List.foldl_cons, ih]
        cases hitem : item.shouldSample with
        | true =>
            rw [List.filter_cons_of_pos hitem, List.map_cons]
            simp [TestItem.row]
        | false =>
            rw [List.filter_cons_of_neg (by simp [hitem])]
            rfl
  exact key []

/-- A time is between zero and the wall time. -/
def State.InWall {n : ℕ} (s : State n) (time : ℤ) : Prop :=
  ∃ a b, s.wallStart = some a ∧ s.wallEnd = some b ∧ 0 ≤ time ∧ time ≤ b - a

/-- The times that are exported are between zero and the wall time. -/
def State.InTime {n : ℕ} (s : State n) : Prop :=
  ∀ row ∈ exportRows s.items, s.InWall row.1 ∧ s.InWall row.2.1 ∧ s.InWall row.2.2

/-- Two times at which workers were at work, in order, are at most the wall time apart. -/
theorem State.Spans.inWall {n : ℕ} {s : State n} {now time time' : ℤ} (h : s.Spans now time)
    (h' : s.Spans now time') (hended : ∀ t, s.worker t = .ended) (hle : time ≤ time') :
  s.InWall (time' - time)
  := by
  obtain ⟨t, -, hfrom, -⟩ := h
  obtain ⟨u, -, -, hto⟩ := h'
  rw [State.upTo, if_pos (hended u)] at hto
  have hstart : s.starts t ∈ List.ofFn s.starts := List.mem_ofFn.mpr ⟨t, rfl⟩
  have hend : s.ends u ∈ List.ofFn s.ends := List.mem_ofFn.mpr ⟨u, rfl⟩
  obtain ⟨a, ha⟩ := Option.isSome_iff_exists.mp (List.isSome_min?_of_mem hstart)
  obtain ⟨b, hb⟩ := Option.isSome_iff_exists.mp (List.isSome_max?_of_mem hend)
  refine ⟨a, b, ha, hb, by omega, ?_⟩
  have hmin := (List.min?_eq_some_iff.mp ha).2 _ hstart
  have hmax := (List.max?_eq_some_iff.mp hb).2 _ hend
  omega

namespace Workload

variable {W : Workload} {s : State W.nThreads} {log : List (Fin W.nThreads × Action)} {now : ℤ}

/-- In the end all stamps of a sampled item have been written. -/
theorem Complete.written {x : ℕ} (h : W.Complete log s) (hx : W.Sampled x) (σ : Stamp) :
  0 < total log (.write σ x)
  := by
  obtain ⟨t, -, ht⟩ := h.enqueueStamps x hx
  obtain ⟨u, -, hu⟩ := h.dequeueStamps x hx
  have henqueue := ht t
  have hdequeue := hu u
  rw [if_pos rfl] at henqueue hdequeue
  have hle : ∀ v, tally log v (.write σ x) ≤ total log (.write σ x) :=
    fun v => tally_le_total log v _
  cases σ with
  | enqueueStart => exact (Nat.one_pos.trans_eq henqueue.1.symm).trans_le (hle t)
  | enqueueDone => exact (Nat.one_pos.trans_eq henqueue.2.symm).trans_le (hle t)
  | dequeueStart => exact (Nat.one_pos.trans_eq hdequeue.1.symm).trans_le (hle u)
  | dequeueDone => exact (Nat.one_pos.trans_eq hdequeue.2.symm).trans_le (hle u)

/-- The items that are exported are sampled. -/
theorem Inv.sampled (h : W.Inv log s) {x : ℕ} {item : TestItem} (hitem : s.items[x]? = some item)
    (hflag : item.shouldSample = true) :
  W.Sampled x
  := by
  rw [Sampled, ← List.getElem?_map, ← h.flags, List.getElem?_map, hitem, Option.map_some, hflag]

/-- When all workers have ended, the times are between zero and the wall time. -/
theorem inTime (h : Timed W.step W.init log s now) (hended : ∀ t, s.worker t = .ended) :
  s.InTime
  := by
  have hinv := Workload.inv h.execution
  have htimes := times h
  intro row hrow
  rw [exportRows_eq] at hrow
  obtain ⟨item, hmem, rfl⟩ := List.mem_map.mp hrow
  obtain ⟨hmem, hflag⟩ := List.mem_filter.mp hmem
  obtain ⟨x, hitem⟩ := List.mem_iff_getElem?.mp hmem
  have hwritten := (hinv.complete hended).written (hinv.sampled hitem hflag)
  have hrow : ∀ σ σ', σ.Before σ' → s.InWall (item.read σ' - item.read σ) := by
    intro σ σ' hbefore
    apply (htimes.stamps x item σ hitem (hwritten σ)).inWall _ hended
    · apply htimes.order x item σ σ' hitem hbefore (hwritten σ')
    · exact htimes.stamps x item σ' hitem (hwritten σ')
  exact ⟨hrow _ _ .latency, hrow _ _ .enqueue, hrow _ _ .dequeue⟩

variable (W) in
/-- When all workers have ended with the object `M`, in a run with `P`, the items, the starts and
the ends are as `Q` says. -/
def EndsWith {V σ ℓ Tag Ch : Type} [DecidableEq V]
    (M : Machine (Fin W.nThreads) σ ℓ (QueueOp V) (QueueRes V) Tag Ch)
    (P : ∀ n, M.Run n → Prop) (Q : State W.nThreads → Prop) : Prop :=
  ∀ (L : Layout V W.items.length) (t₀ : ℤ)
    (w : List (Fin W.nThreads × Deed (QueueOp V) (QueueRes V) ℤ)) (b : Bench W.nThreads) (n : ℕ)
    (r : M.Run n),
    (W.client L t₀).after w = some b → P n r → reports w = r.history n →
      (∀ t, b.state.worker t = .ended) → Q b.state

/-- What holds in the end with a list holds with whatever implements a queue. -/
theorem endsWith {V σ ℓ Tag Ch : Type} [DecidableEq V]
    {M : Machine (Fin W.nThreads) σ ℓ (QueueOp V) (QueueRes V) Tag Ch}
    {P : ∀ n, M.Run n → Prop} {Q : State W.nThreads → Prop} (hM : M.ImplementsQueue P)
    (hQ : ∀ log s now, Timed W.step W.init log s now → (∀ t, s.worker t = .ended) → Q s)
    (hqueue : ∀ s q, Q { s with queue := q } → Q s) :
  W.EndsWith M P Q
  := by
  intro L t₀ w b n r hafter hr hw hended
  obtain ⟨-, log, htimed⟩ := (soundWith hM L t₀ w b n r hafter hr hw).complete hended
  exact hqueue _ _ (hQ _ _ _ htimed hended)

end Workload

end Benchmark
