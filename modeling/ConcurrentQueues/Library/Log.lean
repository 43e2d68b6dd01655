import Mathlib.Algebra.BigOperators.Group.Finset.Piecewise
import Mathlib.Algebra.Order.BigOperators.Group.Finset
import Mathlib.Data.Fintype.Card
import Mathlib.Combinatorics.Enumerative.DoubleCounting
import Mathlib.Data.List.Count
import Mathlib.Tactic.Common

/-!
# Logs of executions

A system of threads that run once, from a common initial state. An execution interleaves the
steps of the threads and logs what they do. Since a log says who did what, how often a thing
has been done in all is the sum over the threads of how often each of them has done it.
-/

variable {ι Ch σ E α : Type}

/-- The executions of a system whose thread `i` takes the step `step i ch s` in the state `s`,
when the environment decides `ch`, with the log of all steps and the state that is reached. -/
inductive Execution (step : ι → Ch → σ → Option (σ × E)) (init : σ) : List (ι × E) → σ → Prop where
  | start : Execution step init [] init
  | step {log : List (ι × E)} {s s' : σ} {i : ι} {ch : Ch} {e : E} (past : Execution step init log s)
      (now : step i ch s = some (s', e)) : Execution step init (log ++ [(i, e)]) s'

/-- The system run as a script says: who steps next, and what the environment decides. -/
def playLog (step : ι → Ch → σ → Option (σ × E)) (log : List (ι × E)) (s : σ) :
    List (ι × Ch) → Option (List (ι × E) × σ)
  | [] => some (log, s)
  | (i, ch) :: rest => do
      let (s', e) ← step i ch s
      playLog step (log ++ [(i, e)]) s' rest

/-- What is played is an execution. -/
theorem Execution.play {step : ι → Ch → σ → Option (σ × E)} {init s s' : σ}
    {log log' : List (ι × E)} {script : List (ι × Ch)} (h : Execution step init log s)
    (hplay : playLog step log s script = some (log', s')) :
  Execution step init log' s'
  := by
  induction script generalizing log s with
  | nil =>
      cases hplay
      exact h
  | cons m rest ih =>
      obtain ⟨⟨s₁, e⟩, hs, hplay⟩ := Option.bind_eq_some_iff.mp hplay
      apply ih (h.step hs) hplay

/-- The executions of a system whose environment decides what the clock shows, with the reading that
has been reached. Time passes between the steps. -/
inductive Timed (step : ι → ℤ → σ → Option (σ × E)) (init : σ) :
    List (ι × E) → σ → ℤ → Prop where
  | start (now : ℤ) : Timed step init [] init now
  | wait {log : List (ι × E)} {s : σ} {now now' : ℤ} (past : Timed step init log s now)
      (le : now ≤ now') : Timed step init log s now'
  | step {log : List (ι × E)} {s s' : σ} {i : ι} {e : E} {now : ℤ}
      (past : Timed step init log s now) (here : step i now s = some (s', e)) :
      Timed step init (log ++ [(i, e)]) s' now

theorem Timed.execution {step : ι → ℤ → σ → Option (σ × E)} {init s : σ} {log : List (ι × E)}
    {now : ℤ} (h : Timed step init log s now) :
  Execution step init log s
  := by
  induction h with
  | start => exact .start
  | wait _ _ ih => exact ih
  | step _ here ih => exact ih.step here

/-! ### Tallies -/

section tally

variable [DecidableEq ι] [DecidableEq E]

/-- How often thread `i` has done `e`. -/
def tally (log : List (ι × E)) (i : ι) (e : E) : ℕ := log.count (i, e)

/-- How often `e` has been done. -/
def total (log : List (ι × E)) (e : E) : ℕ := (log.map Prod.snd).count e

@[simp]
theorem tally_nil (i : ι) (e : E) :
  tally [] i e = 0
  := rfl

omit [DecidableEq ι] in
@[simp]
theorem total_nil (e : E) :
  total ([] : List (ι × E)) e = 0
  := rfl

/-- A step counts once for the thread that takes it. -/
theorem tally_self (log : List (ι × E)) (i : ι) (e e' : E) :
  tally (log ++ [(i, e)]) i e' = tally log i e' + if e = e' then 1 else 0
  := by
  rw [tally, List.count_append, List.count_singleton]
  simp [tally]

/-- A step does not count for another thread. -/
theorem tally_other {i j : ι} (h : j ≠ i) (log : List (ι × E)) (e e' : E) :
  tally (log ++ [(i, e)]) j e' = tally log j e'
  := by
  rw [tally, List.count_append, List.count_singleton]
  simp [tally, Ne.symm h]

omit [DecidableEq ι] in
theorem total_append (log : List (ι × E)) (i : ι) (e e' : E) :
  total (log ++ [(i, e)]) e' = total log e' + if e = e' then 1 else 0
  := by
  rw [total, List.map_append, List.count_append, List.map_singleton, List.count_singleton]
  simp [total]

/-- What has been done has been done by the threads. -/
theorem total_eq_sum [Fintype ι] (log : List (ι × E)) (e : E) :
  total log e = ∑ i, tally log i e
  := by
  induction log using List.reverseRecOn with
  | nil => simp
  | append_singleton log p ih =>
      obtain ⟨i, e'⟩ := p
      have hsum : ∑ j, tally (log ++ [(i, e')]) j e =
          ∑ j, (tally log j e + if j = i then if e' = e then 1 else 0 else 0) := by
        apply Finset.sum_congr rfl
        intro j _
        by_cases hj : j = i
        · subst hj
          rw [tally_self, if_pos rfl]
        · rw [tally_other hj, if_neg hj, Nat.add_zero]
      rw [total_append, ih, hsum, Finset.sum_add_distrib, Finset.sum_ite_eq']
      simp

theorem tally_le_total (log : List (ι × E)) (i : ι) (e : E) :
  tally log i e ≤ total log e
  := List.count_le_count_map (f := Prod.snd)

end tally

/-! ### Sums over threads -/

variable [Fintype ι] [DecidableEq ι]

/-- When one thread goes from `f i` to `a`, a sum over the threads changes by what that thread adds
to it. -/
theorem sum_update_add {M : Type} [AddCommMonoid M] (f : ι → α) (g : α → M) (i : ι) (a : α) :
  ∑ j, g (Function.update f i a j) + g (f i) = ∑ j, g (f j) + g a
  := by
  have hcomp : (fun j => g (Function.update f i a j)) = Function.update (fun j => g (f j)) i (g a) := by
    funext j
    apply Function.apply_update (fun _ => g)
  have hsum := Finset.add_sum_erase Finset.univ (fun j => g (f j)) (Finset.mem_univ i)
  rw [hcomp, Finset.sum_update_of_mem (Finset.mem_univ i), Finset.sdiff_singleton_eq_erase, ← hsum]
  ac_rfl

/-- When one thread moves, the number of threads at which `p` holds changes with it. -/
theorem card_update_add (p : α → Prop) [DecidablePred p] (f : ι → α) (i : ι) (a : α) :
  (Finset.univ.filter fun j => p (Function.update f i a j)).card + (if p (f i) then 1 else 0) =
    (Finset.univ.filter fun j => p (f j)).card + if p a then 1 else 0
  := by
  rw [Finset.card_filter, Finset.card_filter]
  apply sum_update_add f fun b => if p b then 1 else 0

omit [DecidableEq ι] in
/-- When each thread points at one thing at most, there are no more things that are pointed at, counted
as often as they are, than threads that point. -/
theorem sum_card_eq_some_le {β : Type} [DecidableEq β] (f : ι → Option β) (D : Finset β) :
  ∑ x ∈ D, (Finset.univ.filter fun i => f i = some x).card ≤
    (Finset.univ.filter fun i => (f i).isSome).card
  := by
  have hswap := Finset.sum_card_bipartiteAbove_eq_sum_card_bipartiteBelow
    (s := D) (t := Finset.univ) fun x i => f i = some x
  apply hswap.le.trans
  rw [Finset.card_filter]
  apply Finset.sum_le_sum
  intro i _
  rw [Finset.bipartiteBelow]
  cases hi : f i with
  | none => simp
  | some y =>
      apply (Finset.card_le_card (t := {y}) _).trans_eq (Finset.card_singleton y)
      intro x hx
      obtain ⟨-, heq⟩ := Finset.mem_filter.mp hx
      cases heq
      exact Finset.mem_singleton_self y

/-- No more things are in a list than it is long. -/
theorem sum_count_le_length {β : Type} [DecidableEq β] (l : List β) (D : Finset β) :
  ∑ x ∈ D, l.count x ≤ l.length
  := by
  induction l with
  | nil => simp
  | cons y l ih =>
      simp only [List.count_cons, beq_iff_eq, Finset.sum_add_distrib, Finset.sum_ite_eq,
        List.length_cons]
      split
      all_goals omega

omit [DecidableEq ι] in
/-- If numbers add up to one then one of them is one and the others vanish. -/
theorem exists_of_sum_eq_one {f : ι → ℕ} (h : ∑ i, f i = 1) :
  ∃ i, f i = 1 ∧ ∀ j, j ≠ i → f j = 0
  := by
  classical
  obtain ⟨i, -, hi⟩ := Finset.exists_ne_zero_of_sum_ne_zero (h.trans_ne Nat.one_ne_zero)
  rw [← Finset.add_sum_erase Finset.univ f (Finset.mem_univ i)] at h
  have hrest : ∑ j ∈ Finset.univ.erase i, f j = 0 := by omega
  use i, by omega
  intro j hj
  apply Finset.sum_eq_zero_iff.mp hrest j
  apply Finset.mem_erase.mpr ⟨hj, Finset.mem_univ j⟩
