import ConcurrentQueues.Sweep.Model
import Mathlib.Tactic.Common

/-!
# Sweeps that are interrupted and started again

However often a sweep is interrupted and started again, the outputs of each queue are complete up to
some number of threads and absent above it, and no trial is repeated unless its outputs were wiped.
When a sweep has run to its end, each queue has all its outputs, or a marker with all outputs below it
and none from it on, and no benchmark is ever run again.
-/

namespace Sweep

variable {work : ℕ} {d : Directory} {q queue : Queue} {n m t trial : ℕ} {o : Option Output}

theorem queues_nodup :
  QUEUES.Nodup
  := by decide

theorem threads_sorted :
  THREADS.Pairwise (· < ·)
  := by decide

/-! ### Directories -/

/-- Each trial of `queue` with `nThreads` has an output. -/
def Directory.Full (d : Directory) (queue : Queue) (nThreads : ℕ) : Prop :=
  ∀ t ∈ TRIALS, (d.out queue nThreads t).isSome

/-- `queue` has all outputs for fewer than `nThreads` threads. -/
def Directory.FullBelow (d : Directory) (queue : Queue) (nThreads : ℕ) : Prop :=
  ∀ n ∈ THREADS, n < nThreads → d.Full queue n

/-- `queue` has no output for `nThreads` threads or more. -/
def Directory.ClearFrom (d : Directory) (queue : Queue) (nThreads : ℕ) : Prop :=
  ∀ n, nThreads ≤ n → ∀ t, d.out queue n t = none

/-- What holds of the directory at every time. -/
structure Directory.Sound (work : ℕ) (d : Directory) : Prop where
  placed : ∀ q n t, (d.out q n t).isSome → n ∈ THREADS ∧ t ∈ TRIALS
  below : ∀ q n t, (d.out q n t).isSome → d.FullBelow q n
  marked : ∀ q m, d.marker q = some m → m ∈ THREADS ∧ d.FullBelow q m ∧ d.ClearFrom q m
  config : ∀ q n t c, d.out q n t = some (.whole c) → c = config work q n

/-- A sweep has nothing to do for `queue`. -/
def Directory.Settled (d : Directory) (queue : Queue) : Prop :=
  d.marker queue ≠ none ∨ ∀ n ∈ THREADS, d.Full queue n

theorem out_set :
  (d.set queue m trial o).out q n t =
    if q = queue ∧ n = m ∧ t = trial then o else d.out q n t
  := rfl

theorem out_remove {kept : ℕ → Bool} :
  (d.remove queue m kept).out q n t =
    if q = queue ∧ n = m ∧ kept t = false then none else d.out q n t
  := rfl

/-- An output of a trial that has none does not replace another. -/
theorem isSome_set (hnone : d.out queue m trial = none) (h : (d.out q n t).isSome) :
  ((d.set queue m trial o).out q n t).isSome
  := by
  rw [out_set]
  split
  case isTrue heq =>
    obtain ⟨rfl, rfl, rfl⟩ := heq
    rw [hnone] at h
    cases h
  case isFalse => exact h

theorem Directory.Full.set (h : d.Full q n) (hnone : d.out queue m trial = none) :
  (d.set queue m trial o).Full q n
  := fun t ht => isSome_set hnone (h t ht)

theorem Directory.FullBelow.set (h : d.FullBelow q n) (hnone : d.out queue m trial = none) :
  (d.set queue m trial o).FullBelow q n
  := fun n' hn' hlt => (h n' hn' hlt).set hnone

theorem Directory.Full.remove {kept : ℕ → Bool} (h : d.Full q n) (hne : q ≠ queue ∨ n ≠ m) :
  (d.remove queue m kept).Full q n
  := by
  intro t ht
  rw [out_remove, if_neg]
  · exact h t ht
  · rintro ⟨hq, hn, -⟩
    rcases hne with hne | hne
    · exact hne hq
    · exact hne hn

/-- Where a trial has no output there is none for more threads. -/
theorem Directory.Sound.clearFrom (h : d.Sound work) (hn : n ∈ THREADS) (ht : t ∈ TRIALS)
    (hnone : d.out q n t = none) :
  d.ClearFrom q (n + 1)
  := by
  intro n' hn' t'
  by_contra hsome
  have hfull := h.below q n' t' (Option.ne_none_iff_isSome.mp hsome) n hn hn'
  have habsent := hfull t ht
  rw [hnone] at habsent
  cases habsent

/-- A benchmark leaves a sound directory, whether it has ended or not. -/
theorem Directory.Sound.set (h : d.Sound work) (hn : m ∈ THREADS) (ht : trial ∈ TRIALS)
    (hnone : d.out queue m trial = none) (hbelow : d.FullBelow queue m)
    (hmarker : d.marker queue = none) (ho : ∀ c, o = some (.whole c) → c = Sweep.config work queue m) :
  (d.set queue m trial o).Sound work
  := by
  constructor
  case placed =>
    intro q n t hsome
    rw [out_set] at hsome
    split at hsome
    case isTrue heq =>
      obtain ⟨rfl, rfl, rfl⟩ := heq
      exact ⟨hn, ht⟩
    case isFalse => exact h.placed q n t hsome
  case below =>
    intro q n t hsome
    rw [out_set] at hsome
    split at hsome
    case isTrue heq =>
      obtain ⟨rfl, rfl, rfl⟩ := heq
      exact hbelow.set hnone
    case isFalse => exact (h.below q n t hsome).set hnone
  case marked =>
    intro q m' hm'
    obtain ⟨hmem, hfull, hclear⟩ := h.marked q m' hm'
    refine ⟨hmem, hfull.set hnone, fun n hle t => ?_⟩
    rw [out_set, if_neg]
    · exact hclear n hle t
    · rintro ⟨rfl, -, -⟩
      cases hmarker.symm.trans hm'
  case config =>
    intro q n t c hc
    rw [out_set] at hc
    split at hc
    case isTrue heq =>
      obtain ⟨rfl, rfl, rfl⟩ := heq
      exact ho c hc
    case isFalse => exact h.config q n t c hc

/-- The last outputs may be removed, or some of them. -/
theorem Directory.Sound.remove (h : d.Sound work) {kept : ℕ → Bool}
    (hclear : d.ClearFrom queue (m + 1)) (hmarker : d.marker queue = none) :
  (d.remove queue m kept).Sound work
  := by
  have hkeep : ∀ {q n t}, ((d.remove queue m kept).out q n t).isSome → (d.out q n t).isSome := by
    intro q n t hsome
    rw [out_remove] at hsome
    split at hsome
    case isTrue => cases hsome
    case isFalse => exact hsome
  constructor
  case placed => exact fun q n t hsome => h.placed q n t (hkeep hsome)
  case below =>
    intro q n t hsome n' hn' hlt
    apply (h.below q n t (hkeep hsome) n' hn' hlt).remove
    by_cases hq : q = queue
    · subst hq
      right
      rintro rfl
      -- there is nothing above the outputs that are removed
      have habsent := hkeep hsome
      rw [hclear n hlt t] at habsent
      cases habsent
    · exact Or.inl hq
  case marked =>
    intro q m' hm'
    obtain ⟨hmem, hfull, hclear'⟩ := h.marked q m' hm'
    have hne : q ≠ queue := by
      rintro rfl
      cases hmarker.symm.trans hm'
    refine ⟨hmem, fun n hn hlt => (hfull n hn hlt).remove (Or.inl hne), fun n hle t => ?_⟩
    rw [out_remove, if_neg fun heq => hne heq.1]
    exact hclear' n hle t
  case config =>
    intro q n t c hc
    rw [out_remove] at hc
    split at hc
    case isTrue => cases hc
    case isFalse => exact h.config q n t c hc

theorem Directory.Sound.mark (h : d.Sound work) (hn : m ∈ THREADS) (hbelow : d.FullBelow queue m)
    (hclear : d.ClearFrom queue m) :
  (d.mark queue m).Sound work
  := by
  constructor
  case placed => exact h.placed
  case below => exact h.below
  case config => exact h.config
  case marked =>
    intro q m' hm'
    simp only [Directory.mark] at hm'
    split at hm'
    case isTrue hq =>
      cases hm'
      subst hq
      exact ⟨hn, hbelow, hclear⟩
    case isFalse => exact h.marked q m' hm'

/-! ### Where the script is -/

/-- The script is at `queue`, and the queues that are to come are `qs`. -/
def AtQueue (d : Directory) (queue : Queue) (qs : List Queue) : Prop :=
  ∃ done, QUEUES = done ++ queue :: qs ∧ ∀ q ∈ done, d.Settled q

/-- The numbers of threads that are to come for `queue` are `ns`. -/
def Passed (d : Directory) (queue : Queue) (ns : List ℕ) : Prop :=
  ∃ done, THREADS = done ++ ns ∧ ∀ n ∈ done, d.Full queue n ∨ d.excludes queue n

/-- The trials that are to come for `queue` and `nThreads` are `ts`. -/
def Tried (d : Directory) (queue : Queue) (nThreads : ℕ) (ts : List ℕ) : Prop :=
  ∃ done, TRIALS = done ++ ts ∧ ∀ t ∈ done, (d.out queue nThreads t).isSome

/-- What is known at each point. -/
def Point.Knows (d : Directory) : Point → Prop
  | .idle => True
  | .queues qs => ∃ done, QUEUES = done ++ qs ∧ ∀ q ∈ done, d.Settled q
  | .threads queue qs ns => AtQueue d queue qs ∧ Passed d queue ns
  | .trials queue qs n ns ts =>
      AtQueue d queue qs ∧ Passed d queue (n :: ns) ∧ d.excludes queue n = false ∧
        Tried d queue n ts
  | .running queue qs n ns t ts =>
      AtQueue d queue qs ∧ Passed d queue (n :: ns) ∧ d.marker queue = none ∧
        d.out queue n t = none ∧ Tried d queue n (t :: ts)
  | .wiping queue qs n =>
      AtQueue d queue qs ∧ n ∈ THREADS ∧ d.FullBelow queue n ∧ d.marker queue = none ∧
        d.ClearFrom queue (n + 1)
  | .marking queue qs n =>
      AtQueue d queue qs ∧ n ∈ THREADS ∧ d.FullBelow queue n ∧ d.ClearFrom queue n

theorem Passed.mem {ns : List ℕ} (h : Passed d q (n :: ns)) :
  n ∈ THREADS
  := by
  obtain ⟨done, hthreads, -⟩ := h
  rw [hthreads]
  simp

theorem Tried.mem {ts : List ℕ} (h : Tried d q n (t :: ts)) :
  t ∈ TRIALS
  := by
  obtain ⟨done, htrials, -⟩ := h
  rw [htrials]
  simp

/-- A queue that times out at a number of threads times out at all higher ones. -/
theorem excludes_mono (h : d.excludes q n) (hle : n ≤ m) :
  d.excludes q m
  := by
  rw [Directory.excludes, Option.any_eq_true] at h ⊢
  obtain ⟨m', hm', hle'⟩ := h
  exact ⟨m', hm', decide_eq_true ((of_decide_eq_true hle').trans hle)⟩

/-- Where the script runs trials all outputs for fewer threads are there. -/
theorem Passed.fullBelow {ns : List ℕ} (h : Passed d q (n :: ns)) (hn : d.excludes q n = false) :
  d.FullBelow q n
  := by
  obtain ⟨done, hthreads, hdone⟩ := h
  intro n' hn' hlt
  have hsorted := threads_sorted
  rw [hthreads] at hn' hsorted
  have hmem : n' ∈ done := by
    rcases List.mem_append.mp hn' with hmem | hmem
    · exact hmem
    · -- nothing that is to come is smaller
      rcases List.mem_cons.mp hmem with rfl | hmem
      · exact absurd hlt (lt_irrefl _)
      · have hafter := (List.pairwise_append.mp hsorted).2.1
        exact absurd (List.rel_of_pairwise_cons hafter hmem) (lt_asymm hlt)
  rcases hdone n' hmem with hfull | hexcl
  · exact hfull
  · cases hn.symm.trans (excludes_mono hexcl hlt.le)

/-- A queue with a trial that is run has no marker. -/
theorem Directory.Sound.unmarked (h : d.Sound work) (hn : n ∈ THREADS) (ht : t ∈ TRIALS)
    (hexcl : d.excludes q n = false) (hnone : d.out q n t = none) :
  d.marker q = none
  := by
  cases hm : d.marker q with
  | none => rfl
  | some m =>
      have hlt : n < m := by
        rw [Directory.excludes, hm, Option.any_some, decide_eq_false_iff_not] at hexcl
        omega
      have hsome := (h.marked q m hm).2.1 n hn hlt t ht
      rw [hnone] at hsome
      cases hsome

/-- A queue with a trial that is run is not settled. -/
theorem not_settled (hn : n ∈ THREADS) (ht : t ∈ TRIALS) (hmarker : d.marker q = none)
    (hnone : d.out q n t = none) :
  ¬ d.Settled q
  := by
  rintro (hmarked | hfull)
  · exact hmarked hmarker
  · have hsome := hfull n hn t ht
    rw [hnone] at hsome
    cases hsome

/-- The queues before the one the script is at are other queues. -/
theorem AtQueue.ne {done qs : List Queue} (h : QUEUES = done ++ queue :: qs) (hq : q ∈ done) :
  q ≠ queue
  := by
  have hnodup := queues_nodup
  rw [h] at hnodup
  rintro rfl
  exact (List.nodup_append.mp hnodup).2.2 q hq q List.mem_cons_self rfl

/-- The script stays at a queue as long as it changes nothing of other queues. -/
theorem AtQueue.keep {d' : Directory} {qs : List Queue} (h : AtQueue d queue qs)
    (hother : ∀ q, q ≠ queue → d.Settled q → d'.Settled q) :
  AtQueue d' queue qs
  := by
  obtain ⟨done, hqueues, hdone⟩ := h
  exact ⟨done, hqueues, fun q hq => hother q (AtQueue.ne hqueues hq) (hdone q hq)⟩

theorem AtQueue.next {qs : List Queue} (h : AtQueue d queue qs) (hsettled : d.Settled queue) :
  ∃ done, QUEUES = done ++ qs ∧ ∀ q ∈ done, d.Settled q
  := by
  obtain ⟨done, hqueues, hdone⟩ := h
  refine ⟨done ++ [queue], ?_, fun q hq => ?_⟩
  · rw [List.append_assoc]
    exact hqueues
  · rcases List.mem_append.mp hq with hq | hq
    · exact hdone q hq
    · rw [List.mem_singleton.mp hq]
      exact hsettled

theorem Directory.Settled.set (h : d.Settled q) (hnone : d.out queue m trial = none) :
  (d.set queue m trial o).Settled q
  := by
  rcases h with hmarked | hfull
  · exact Or.inl hmarked
  · exact Or.inr fun n hn => (hfull n hn).set hnone

theorem Directory.Settled.remove {kept : ℕ → Bool} (h : d.Settled q) (hq : q ≠ queue) :
  (d.remove queue m kept).Settled q
  := by
  rcases h with hmarked | hfull
  · exact Or.inl hmarked
  · exact Or.inr fun n hn => (hfull n hn).remove (Or.inl hq)

theorem Directory.Settled.mark (h : d.Settled q) :
  (d.mark queue m).Settled q
  := by
  rcases h with hmarked | hfull
  · left
    simp only [Directory.mark]
    split
    · simp
    · exact hmarked
  · exact Or.inr hfull

theorem settled_mark :
  (d.mark queue m).Settled queue
  := by
  left
  simp [Directory.mark]

/-- What holds between two steps. -/
structure Inv (work : ℕ) (s : State) : Prop where
  sound : s.dir.Sound work
  knows : s.point.Knows s.dir

/-- The script goes on. -/
theorem Inv.advance {s s' : State} {e : Event} (h : Inv work s)
    (hs : advance s.dir s.point = some (s', e)) :
  Inv work s'
  := by
  obtain ⟨d, point⟩ := s
  obtain ⟨hsound, hknows⟩ := h
  cases point with
  | idle =>
      cases hs
      exact ⟨hsound, [], rfl, fun q hq => by cases hq⟩
  | queues qs =>
      cases qs with
      | nil =>
          cases hs
          exact ⟨hsound, trivial⟩
      | cons queue qs =>
          cases hs
          exact ⟨hsound, hknows, [], rfl, fun n hn => by cases hn⟩
  | threads queue qs ns =>
      obtain ⟨hat, hpassed⟩ := hknows
      obtain ⟨done, hthreads, hdone⟩ := id hpassed
      cases ns with
      | nil =>
          cases hs
          refine ⟨hsound, hat.next ?_⟩
          rw [List.append_nil] at hthreads
          by_cases hmarker : d.marker queue = none
          · right
            intro n hn
            rw [hthreads] at hn
            rcases hdone n hn with hfull | hexcl
            · exact hfull
            · rw [Directory.excludes, hmarker] at hexcl
              cases hexcl
          · exact Or.inl hmarker
      | cons n ns =>
          simp only [Sweep.advance] at hs
          split at hs
          case isTrue hexcl =>
            cases hs
            refine ⟨hsound, hat, done ++ [n], by simpa using hthreads, fun n' hn' => ?_⟩
            rcases List.mem_append.mp hn' with hn' | hn'
            · exact hdone n' hn'
            · rw [List.mem_singleton.mp hn']
              exact Or.inr hexcl
          case isFalse hexcl =>
            cases hs
            exact ⟨hsound, hat, hpassed, Bool.eq_false_iff.mpr hexcl, [], rfl,
              fun t ht => by cases ht⟩
  | trials queue qs n ns ts =>
      obtain ⟨hat, hpassed, hexcl, htried⟩ := hknows
      obtain ⟨done, htrials, hdone⟩ := id htried
      cases ts with
      | nil =>
          cases hs
          obtain ⟨before, hthreads, hbefore⟩ := hpassed
          refine ⟨hsound, hat, before ++ [n], by simpa using hthreads, fun n' hn' => ?_⟩
          rcases List.mem_append.mp hn' with hn' | hn'
          · exact hbefore n' hn'
          · rw [List.mem_singleton.mp hn']
            rw [List.append_nil] at htrials
            left
            intro t ht
            rw [htrials] at ht
            exact hdone t ht
      | cons t ts =>
          simp only [Sweep.advance] at hs
          split at hs
          case isTrue hsome =>
            cases hs
            refine ⟨hsound, hat, hpassed, hexcl, done ++ [t], by simpa using htrials,
              fun t' ht' => ?_⟩
            rcases List.mem_append.mp ht' with ht' | ht'
            · exact hdone t' ht'
            · rw [List.mem_singleton.mp ht']
              exact hsome
          case isFalse hnone =>
            cases hs
            have hnone : d.out queue n t = none := Option.not_isSome_iff_eq_none.mp hnone
            exact ⟨hsound, hat, hpassed, hsound.unmarked hpassed.mem htried.mem hexcl hnone, hnone,
              htried⟩
  | running queue qs n ns t ts => cases hs
  | wiping queue qs n =>
      cases hs
      obtain ⟨hat, hn, hbelow, hmarker, hclear⟩ := hknows
      refine ⟨hsound.remove hclear hmarker, hat.keep fun q hq h => h.remove hq, hn, ?_, ?_⟩
      · exact fun n' hn' hlt => (hbelow n' hn' hlt).remove (Or.inr hlt.ne)
      · intro n' hle t
        rw [out_remove]
        split
        case isTrue => rfl
        case isFalse hne =>
          apply hclear n' _ t
          rcases Nat.lt_or_eq_of_le hle with hlt | rfl
          · exact hlt
          · exact absurd ⟨rfl, rfl, rfl⟩ hne
  | marking queue qs n =>
      cases hs
      obtain ⟨hat, hn, hbelow, hclear⟩ := hknows
      have hat' : AtQueue (d.mark queue n) queue qs := hat.keep fun q _ h => h.mark
      exact ⟨hsound.mark hn hbelow hclear, hat'.next settled_mark⟩

/-- A benchmark leaves the directory as the next command or the next sweep needs it. -/
theorem Inv.leave {qs : List Queue} {ns ts : List ℕ}
    (h : Inv work ⟨d, .running queue qs n ns t ts⟩)
    (ho : ∀ c, o = some (.whole c) → c = config work queue n) :
  (d.set queue n t o).Sound work
  := by
  obtain ⟨hsound, -, ⟨before, hthreads, hbefore⟩, hmarker, hnone, htried⟩ := h
  have hpassed : Passed d queue (n :: ns) := ⟨before, hthreads, hbefore⟩
  have hexcl : d.excludes queue n = false := by
    rw [Directory.excludes, hmarker]
    rfl
  exact hsound.set hpassed.mem htried.mem hnone (hpassed.fullBelow hexcl) hmarker ho

theorem leftover_ne (begun : Bool) (c : Config) :
  leftover begun ≠ some (.whole c)
  := by
  cases begun with
  | false => simp [leftover]
  | true => simp [leftover]

theorem Inv.interrupt {s s' : State} {e : Event} {begun : Bool} {kept : ℕ → Bool} (h : Inv work s)
    (hs : interrupt s.dir begun kept s.point = some (s', e)) :
  Inv work s'
  := by
  obtain ⟨d, point⟩ := s
  cases point with
  | idle => cases hs
  | running queue qs n ns t ts =>
      cases hs
      exact ⟨h.leave fun c hc => absurd hc (leftover_ne begun c), trivial⟩
  | wiping queue qs n =>
      cases hs
      obtain ⟨hsound, -, -, -, hmarker, hclear⟩ := h
      exact ⟨hsound.remove hclear hmarker, trivial⟩
  | _ =>
      cases hs
      exact ⟨h.sound, trivial⟩

/-- What one step of the script does. -/
inductive Goes (work : ℕ) (d : Directory) : Point → Event → State → Prop where
  | advance {point : Point} {e : Event} {s' : State} (hs : advance d point = some (s', e)) :
      Goes work d point e s'
  | interrupt {point : Point} {e : Event} {s' : State} {begun : Bool} {kept : ℕ → Bool}
      (hs : interrupt d begun kept point = some (s', e)) : Goes work d point e s'
  | succeed (queue : Queue) (qs : List Queue) (n : ℕ) (ns : List ℕ) (t : ℕ) (ts : List ℕ) :
      Goes work d (.running queue qs n ns t ts) (.succeeded queue n t)
        ⟨d.set queue n t (some (.whole (config work queue n))), .trials queue qs n ns ts⟩
  | fail (queue : Queue) (qs : List Queue) (n : ℕ) (ns : List ℕ) (t : ℕ) (ts : List ℕ)
      (begun : Bool) :
      Goes work d (.running queue qs n ns t ts) (.failed queue n t)
        ⟨d.set queue n t (leftover begun), .wiping queue qs n⟩

theorem step_goes {s s' : State} {u : Unit} {happening : Happening} {e : Event}
    (hs : step work u happening s = some (s', e)) :
  Goes work s.dir s.point e s'
  := by
  obtain ⟨d, point⟩ := s
  cases happening with
  | goOn => exact .advance hs
  | interrupt begun kept => exact .interrupt hs
  | succeed =>
      cases point with
      | running queue qs n ns t ts =>
          cases hs
          exact .succeed queue qs n ns t ts
      | _ => cases hs
  | fail begun =>
      cases point with
      | running queue qs n ns t ts =>
          cases hs
          exact .fail queue qs n ns t ts begun
      | _ => cases hs

theorem Inv.step {s s' : State} {e : Event} (h : Inv work s) (hs : Goes work s.dir s.point e s') :
  Inv work s'
  := by
  obtain ⟨d, point⟩ := s
  cases hs with
  | advance hs => exact h.advance hs
  | interrupt hs => exact h.interrupt hs
  | succeed queue qs n ns t ts =>
      obtain ⟨hsound, hat, ⟨before, hthreads, hbefore⟩, hmarker, hnone, done, htrials, hdone⟩ := id h
      refine ⟨h.leave ?_, hat.keep fun q _ h => h.set hnone, ?_, ?_, ?_⟩
      · rintro c ⟨⟩
        rfl
      · refine ⟨before, hthreads, fun n' hn' => (hbefore n' hn').imp ?_ id⟩
        exact fun hfull => hfull.set hnone
      · change (d.marker queue).any _ = false
        rw [hmarker]
        rfl
      · refine ⟨done ++ [t], by simpa using htrials, fun t' ht' => ?_⟩
        rcases List.mem_append.mp ht' with ht' | ht'
        · exact isSome_set hnone (hdone t' ht')
        · rw [List.mem_singleton.mp ht', out_set, if_pos ⟨rfl, rfl, rfl⟩]
          rfl
  | fail queue qs n ns t ts begun =>
      obtain ⟨hsound, hat, hpassed, hmarker, hnone, htried⟩ := id h
      have hclear := hsound.clearFrom hpassed.mem htried.mem hnone
      have hexcl : d.excludes queue n = false := by
        rw [Directory.excludes, hmarker]
        rfl
      refine ⟨h.leave fun c hc => absurd hc (leftover_ne begun c),
        hat.keep fun q _ h => h.set hnone, hpassed.mem, (hpassed.fullBelow hexcl).set hnone, hmarker,
        fun n' hle t' => ?_⟩
      rw [out_set, if_neg]
      · exact hclear n' hle t'
      · rintro ⟨-, rfl, -⟩
        exact absurd hle (Nat.not_succ_le_self _)

variable {log : List (Unit × Event)} {s s' : State}

theorem inv (h : Execution (step work) init log s) :
  Inv work s
  := by
  induction h with
  | start =>
      refine ⟨⟨?_, ?_, ?_, ?_⟩, trivial⟩
      · rintro q n t ⟨⟩
      · rintro q n t ⟨⟩
      · rintro q m ⟨⟩
      · rintro q n t c ⟨⟩
  | step _ now ih => exact ih.step (step_goes now)

/-! ### After a sweep that has run to its end -/

/-- The script is not about to change the directory. -/
def Point.Quiet : Point → Prop
  | .running _ _ _ _ _ _ => False
  | .wiping _ _ _ => False
  | .marking _ _ _ => False
  | _ => True

/-- When there is nothing to do for any queue, the script runs no benchmark and changes nothing. -/
theorem quiet_step {e : Event} (h : Inv work s) (hsettled : ∀ q ∈ QUEUES, s.dir.Settled q)
    (hquiet : s.point.Quiet) (hs : Goes work s.dir s.point e s') :
  s'.dir = s.dir ∧ s'.point.Quiet ∧ ∀ q n t, e ≠ .launched q n t
  := by
  obtain ⟨d, point⟩ := s
  cases hs with
  | succeed queue qs n ns t ts => exact hquiet.elim
  | fail queue qs n ns t ts begun => exact hquiet.elim
  | interrupt hs =>
      cases point with
      | idle => cases hs
      | running queue qs n ns t ts => exact hquiet.elim
      | wiping queue qs n => exact hquiet.elim
      | _ =>
          cases hs
          exact ⟨rfl, trivial, fun q n t heq => by cases heq⟩
  | advance hs =>
      cases point with
      | running queue qs n ns t ts => exact hquiet.elim
      | wiping queue qs n => exact hquiet.elim
      | marking queue qs n => exact hquiet.elim
      | idle =>
          cases hs
          exact ⟨rfl, trivial, fun q n t heq => by cases heq⟩
      | queues qs =>
          cases qs with
          | nil =>
              cases hs
              exact ⟨rfl, trivial, fun q n t heq => by cases heq⟩
          | cons queue qs =>
              cases hs
              exact ⟨rfl, trivial, fun q n t heq => by cases heq⟩
      | threads queue qs ns =>
          cases ns with
          | nil =>
              cases hs
              exact ⟨rfl, trivial, fun q n t heq => by cases heq⟩
          | cons n ns =>
              simp only [Sweep.advance] at hs
              split at hs
              all_goals
                cases hs
                exact ⟨rfl, trivial, fun q n t heq => by cases heq⟩
      | trials queue qs n ns ts =>
          obtain ⟨hsound, ⟨before, hqueues, -⟩, hpassed, hexcl, htried⟩ := h
          cases ts with
          | nil =>
              cases hs
              exact ⟨rfl, trivial, fun q n t heq => by cases heq⟩
          | cons t ts =>
              simp only [Sweep.advance] at hs
              split at hs
              case isTrue =>
                cases hs
                exact ⟨rfl, trivial, fun q n t heq => by cases heq⟩
              case isFalse hnone =>
                -- the trial would have an output, or the queue a marker
                have hnone : d.out queue n t = none := Option.not_isSome_iff_eq_none.mp hnone
                have hmem : queue ∈ QUEUES := by
                  rw [hqueues]
                  simp
                apply absurd (hsettled queue hmem)
                apply not_settled hpassed.mem htried.mem _ hnone
                exact hsound.unmarked hpassed.mem htried.mem hexcl hnone

/-- What holds from the end of a sweep on. -/
structure Over (log : List (Unit × Event)) (s : State) : Prop where
  settled : ∀ q ∈ QUEUES, s.dir.Settled q
  /-- All trials of a queue with a number of threads are there, or none. -/
  cells : ∀ q ∈ QUEUES, ∀ n, s.dir.Full q n ∨ ∀ t, s.dir.out q n t = none
  quiet : s.point.Quiet
  /-- No benchmark is run after the end of a sweep. -/
  idle : ∀ log₁ log₂, log = log₁ ++ ((), .completed) :: log₂ →
    ∀ q n t, ((), .launched q n t) ∉ log₂

theorem Directory.Settled.cells (h : d.Settled q) (hsound : d.Sound work) (n : ℕ) :
  d.Full q n ∨ ∀ t, d.out q n t = none
  := by
  by_cases hn : n ∈ THREADS
  · cases hm : d.marker q with
    | none =>
        rcases h with hmarked | hfull
        · exact absurd hm hmarked
        · exact Or.inl (hfull n hn)
    | some m =>
        obtain ⟨-, hbelow, hclear⟩ := hsound.marked q m hm
        rcases Nat.lt_or_ge n m with hlt | hle
        · exact Or.inl (hbelow n hn hlt)
        · exact Or.inr (hclear n hle)
  · right
    intro t
    by_contra hsome
    exact hn (hsound.placed q n t (Option.ne_none_iff_isSome.mp hsome)).1

theorem completed_inv {e : Event} (hs : Goes work s.dir s.point e s') (he : e = .completed) :
  s.point = .queues [] ∧ s'.dir = s.dir ∧ s'.point = .idle
  := by
  subst he
  obtain ⟨d, point⟩ := s
  cases hs with
  | interrupt hs =>
      cases point with
      | _ => cases hs
  | advance hs =>
      cases point with
      | queues qs =>
          cases qs with
          | nil =>
              cases hs
              exact ⟨rfl, rfl, rfl⟩
          | cons queue qs => cases hs
      | threads queue qs ns =>
          cases ns with
          | nil => cases hs
          | cons n ns =>
              simp only [Sweep.advance] at hs
              split at hs
              all_goals cases hs
      | trials queue qs n ns ts =>
          cases ts with
          | nil => cases hs
          | cons t ts =>
              simp only [Sweep.advance] at hs
              split at hs
              all_goals cases hs
      | _ => cases hs

theorem over_of_completed (h : Execution (step work) init log s)
    (hcompleted : ((), .completed) ∈ log) :
  Over log s
  := by
  induction h with
  | start => cases hcompleted
  | @step log s s' u happening e past now ih =>
      have hgoes := step_goes now
      have hsplit : ∀ log₁ log₂, log ++ [(u, e)] = log₁ ++ ((), .completed) :: log₂ →
          log₂ = [] ∨ ∃ log₃, log₂ = log₃ ++ [(u, e)] ∧ log = log₁ ++ ((), .completed) :: log₃ := by
        intro log₁ log₂ heq
        rcases List.eq_nil_or_concat log₂ with rfl | ⟨log₃, x, rfl⟩
        · exact Or.inl rfl
        · right
          rw [List.concat_eq_append, ← List.cons_append, ← List.append_assoc] at heq
          obtain ⟨hlog, hx⟩ := List.append_inj' heq rfl
          cases hx
          exact ⟨log₃, List.concat_eq_append, hlog⟩
      by_cases hbefore : ((), Event.completed) ∈ log
      · obtain ⟨hsettled, hcells, hquiet, hidle⟩ := ih hbefore
        obtain ⟨hdir, hquiet', hlaunch⟩ := quiet_step (inv past) hsettled hquiet hgoes
        refine ⟨hdir ▸ hsettled, hdir ▸ hcells, hquiet', fun log₁ log₂ heq q n t hmem => ?_⟩
        rcases hsplit log₁ log₂ heq with rfl | ⟨log₃, rfl, hlog⟩
        · cases hmem
        · rcases List.mem_append.mp hmem with hmem | hmem
          · exact hidle log₁ log₃ hlog q n t hmem
          · cases List.mem_singleton.mp hmem
            exact hlaunch q n t rfl
      · have he : e = .completed := by
          rcases List.mem_append.mp hcompleted with hmem | hmem
          · exact absurd hmem hbefore
          · exact (congrArg Prod.snd (List.mem_singleton.mp hmem)).symm
        obtain ⟨hpoint, hdir, hidle⟩ := completed_inv hgoes he
        have hknows := (inv past).knows
        rw [hpoint] at hknows
        obtain ⟨done, hqueues, hdone⟩ := hknows
        rw [List.append_nil] at hqueues
        have hsettled : ∀ q ∈ QUEUES, s.dir.Settled q := fun q hq => hdone q (hqueues ▸ hq)
        have hcells : ∀ q ∈ QUEUES, ∀ n, s.dir.Full q n ∨ ∀ t, s.dir.out q n t = none :=
          fun q hq => (hsettled q hq).cells (inv past).sound
        refine ⟨hdir ▸ hsettled, hdir ▸ hcells, ?_, fun log₁ log₂ heq q n t hmem => ?_⟩
        · rw [hidle]
          trivial
        · rcases hsplit log₁ log₂ heq with rfl | ⟨log₃, -, hlog⟩
          · cases hmem
          · rw [hlog] at hbefore
            exact hbefore (by simp)

/-! ### What is run, and how often -/

/-- How often a benchmark for `queue` and `nThreads` has failed. -/
def failures (log : List (Unit × Event)) (queue : Queue) (nThreads : ℕ) : ℕ :=
  log.countP fun e => match e.2 with
    | .failed q n _ => decide (q = queue ∧ n = nThreads)
    | _ => false

/-- Whether the outputs for `queue` and `nThreads` are about to be wiped. -/
def Point.Wipes (queue : Queue) (nThreads : ℕ) : Point → Prop
  | .wiping q _ n => q = queue ∧ n = nThreads
  | _ => False

instance (queue : Queue) (nThreads : ℕ) : DecidablePred (Point.Wipes queue nThreads) := by
  intro point
  cases point with
  | wiping q qs n => exact inferInstanceAs (Decidable (q = queue ∧ n = nThreads))
  | _ => exact .isFalse id

/-- What the log says about the outputs of one trial. -/
structure Recorded (log : List (Unit × Event)) (s : State) (q : Queue) (n t : ℕ) : Prop where
  /-- A trial is not repeated unless its outputs were wiped. -/
  once : total log (.succeeded q n t) ≤
    failures log q n + if (s.dir.out q n t).isSome ∧ ¬ s.point.Wipes q n then 1 else 0
  /-- What is torn was left by a benchmark that was interrupted, or that failed and whose output has
  not been removed. -/
  torn : s.dir.out q n t = some .torn → ((), .cut q n t) ∈ log ∨
    ((), .failed q n t) ∈ log ∧ (s.point.Wipes q n ∨ ((), .interrupted) ∈ log)

/-- What a step has to do with the outputs of one trial. -/
inductive Touches (q : Queue) (n t : ℕ) (s : State) : Event → State → Prop where
  | other {e : Event} {s' : State} (hout : s'.dir.out q n t = s.dir.out q n t)
      (hs : ¬ s.point.Wipes q n) (hs' : ¬ s'.point.Wipes q n) (hsucceeded : e ≠ .succeeded q n t)
      (hfailed : ∀ t', e ≠ .failed q n t') : Touches q n t s e s'
  | wipe {s' : State} (hs : s.point.Wipes q n) (hs' : ¬ s'.point.Wipes q n)
      (hnone : s'.dir.out q n t = none) : Touches q n t s .silent s'
  | keep {s' : State} (hs : s.point.Wipes q n) (hs' : ¬ s'.point.Wipes q n)
      (hout : s'.dir.out q n t = none ∨ s'.dir.out q n t = s.dir.out q n t) :
      Touches q n t s .interrupted s'
  | succeed {s' : State} {c : Config} (hnone : s.dir.out q n t = none)
      (hsome : s'.dir.out q n t = some (.whole c)) (hs' : ¬ s'.point.Wipes q n) :
      Touches q n t s (.succeeded q n t) s'
  | fail {s' : State} {t' : ℕ} (hs : ¬ s.point.Wipes q n) (hs' : s'.point.Wipes q n)
      (hout : t' ≠ t → s'.dir.out q n t = s.dir.out q n t)
      (hnone : t' = t → s.dir.out q n t = none) : Touches q n t s (.failed q n t') s'
  | cut {s' : State} (hs : ¬ s.point.Wipes q n) (hs' : ¬ s'.point.Wipes q n)
      (hnone : s.dir.out q n t = none) : Touches q n t s (.cut q n t) s'

/-- A step that only moves the script on. -/
theorem Touches.move {point point' : Point} {e : Event} (hs : ¬ point.Wipes q n)
    (hs' : ¬ point'.Wipes q n) (hsucceeded : e ≠ .succeeded q n t)
    (hfailed : ∀ t', e ≠ .failed q n t') :
  Touches q n t ⟨d, point⟩ e ⟨d, point'⟩
  := .other rfl hs hs' hsucceeded hfailed

theorem touches (h : Inv work s) {e : Event} (hs : Goes work s.dir s.point e s') (q : Queue)
    (n t : ℕ) :
  Touches q n t s e s'
  := by
  obtain ⟨d, point⟩ := s
  have hmoves : ∀ {point' : Point} {e : Event}, ¬ point.Wipes q n → ¬ point'.Wipes q n →
      (∀ q' n' t', e ≠ .succeeded q' n' t' ∧ e ≠ .failed q' n' t') →
      Touches q n t ⟨d, point⟩ e ⟨d, point'⟩ :=
    fun hs hs' he => .move hs hs' (he q n t).1 fun t' => (he q n t').2
  have hsilent : ∀ q' n' t', Event.silent ≠ .succeeded q' n' t' ∧ Event.silent ≠ .failed q' n' t' :=
    fun q' n' t' => by simp
  cases hs with
  | succeed queue qs m ns trial ts =>
      obtain ⟨-, -, -, -, hnone, -⟩ := h
      by_cases heq : q = queue ∧ n = m ∧ t = trial
      · obtain ⟨rfl, rfl, rfl⟩ := heq
        exact .succeed hnone (if_pos ⟨rfl, rfl, rfl⟩) id
      · refine .other (if_neg heq) id id ?_ (by simp)
        rintro ⟨⟩
        exact heq ⟨rfl, rfl, rfl⟩
  | fail queue qs m ns trial ts begun =>
      obtain ⟨-, -, -, -, hnone, -⟩ := h
      by_cases heq : q = queue ∧ n = m
      · obtain ⟨rfl, rfl⟩ := heq
        have hwipes : (Point.wiping q qs n).Wipes q n := ⟨rfl, rfl⟩
        apply Touches.fail id hwipes
        · intro hne
          exact if_neg fun heq => hne heq.2.2.symm
        · rintro rfl
          exact hnone
      · apply Touches.other
        · exact if_neg fun h => heq ⟨h.1, h.2.1⟩
        · exact id
        · exact fun h => heq ⟨h.1.symm, h.2.symm⟩
        · simp
        · rintro t' ⟨⟩
          exact heq ⟨rfl, rfl⟩
  | interrupt hs =>
      cases point with
      | idle => cases hs
      | running queue qs m ns trial ts =>
          cases hs
          obtain ⟨-, -, -, -, hnone, -⟩ := h
          by_cases heq : q = queue ∧ n = m ∧ t = trial
          · obtain ⟨rfl, rfl, rfl⟩ := heq
            exact .cut id id hnone
          · exact .other (if_neg heq) id id (by simp) (by simp)
      | wiping queue qs m =>
          cases hs
          by_cases heq : q = queue ∧ n = m
          · obtain ⟨rfl, rfl⟩ := heq
            have hwipes : (Point.wiping q qs n).Wipes q n := ⟨rfl, rfl⟩
            apply Touches.keep hwipes id
            simp only [out_remove]
            split
            · exact Or.inl rfl
            · exact Or.inr rfl
          · refine .other (if_neg fun h => heq ⟨h.1, h.2.1⟩) ?_ id (by simp) (by simp)
            exact fun h => heq ⟨h.1.symm, h.2.symm⟩
      | _ =>
          cases hs
          exact hmoves id id fun q' n' t' => by simp
  | advance hs =>
      cases point with
      | running queue qs m ns trial ts => cases hs
      | wiping queue qs m =>
          cases hs
          by_cases heq : q = queue ∧ n = m
          · obtain ⟨rfl, rfl⟩ := heq
            have hwipes : (Point.wiping q qs n).Wipes q n := ⟨rfl, rfl⟩
            exact .wipe hwipes id (if_pos ⟨rfl, rfl, rfl⟩)
          · refine .other (if_neg fun h => heq ⟨h.1, h.2.1⟩) ?_ id (by simp) (by simp)
            exact fun h => heq ⟨h.1.symm, h.2.symm⟩
      | marking queue qs m =>
          cases hs
          exact .other rfl id id (by simp) (by simp)
      | idle =>
          cases hs
          exact hmoves id id fun q' n' t' => by simp
      | queues qs =>
          cases qs with
          | nil =>
              cases hs
              exact hmoves id id fun q' n' t' => by simp
          | cons queue qs =>
              cases hs
              exact hmoves id id hsilent
      | threads queue qs ns =>
          cases ns with
          | nil =>
              cases hs
              exact hmoves id id hsilent
          | cons n ns =>
              simp only [Sweep.advance] at hs
              split at hs
              all_goals
                cases hs
                exact hmoves id id hsilent
      | trials queue qs n ns ts =>
          cases ts with
          | nil =>
              cases hs
              exact hmoves id id hsilent
          | cons t ts =>
              simp only [Sweep.advance] at hs
              split at hs
              all_goals
                cases hs
                exact hmoves id id fun q' n' t' => by simp

theorem failures_append (log : List (Unit × Event)) (u : Unit) (e : Event) :
  failures (log ++ [(u, e)]) q n =
    failures log q n + match e with
      | .failed q' n' _ => if q' = q ∧ n' = n then 1 else 0
      | _ => 0
  := by
  rw [failures, List.countP_append]
  cases e with
  | failed q' n' t' => simp [failures, List.countP_cons]
  | _ => rfl

/-- Only a failure for the same queue and number of threads is counted. -/
theorem failures_other (log : List (Unit × Event)) (u : Unit) {e : Event}
    (h : ∀ t, e ≠ .failed q n t) :
  failures (log ++ [(u, e)]) q n = failures log q n
  := by
  rw [failures_append]
  cases e with
  | failed q' n' t' =>
      change _ + (if q' = q ∧ n' = n then 1 else 0) = _
      rw [if_neg, Nat.add_zero]
      rintro ⟨rfl, rfl⟩
      exact h t' rfl
  | _ => rfl

theorem recorded (h : Execution (step work) init log s) (q : Queue) (n t : ℕ) :
  Recorded log s q n t
  := by
  induction h with
  | start => exact ⟨Nat.zero_le _, fun h => by cases h⟩
  | @step log s s' u happening e past now ih =>
      obtain ⟨honce, htorn⟩ := ih
      have hmem : ∀ {e' : Event}, ((), e') ∈ log → ((), e') ∈ log ++ [(u, e)] :=
        fun hx => List.mem_append_left _ hx
      have hlast : ((), e) ∈ log ++ [(u, e)] := List.mem_append_right _ (List.mem_singleton.mpr rfl)
      have hcount := total_append log u e (.succeeded q n t)
      cases touches (inv past) (step_goes now) q n t with
      | other hout hs hs' hsucceeded hfailed =>
          constructor
          case once =>
            rw [hcount, if_neg hsucceeded, failures_other log u hfailed, hout]
            simpa [hs, hs'] using honce
          case torn =>
            rw [hout]
            intro h
            rcases htorn h with hcut | ⟨hfail, hwipes | hcut⟩
            · exact Or.inl (hmem hcut)
            · exact absurd hwipes hs
            · exact Or.inr ⟨hmem hfail, Or.inr (hmem hcut)⟩
      | wipe hs hs' hnone =>
          constructor
          case once =>
            rw [hcount, if_neg (by simp), failures_other log u (by simp)]
            simp only [hs, not_true_eq_false, and_false, if_false] at honce
            omega
          case torn =>
            rw [hnone]
            rintro ⟨⟩
      | keep hs hs' hout =>
          constructor
          case once =>
            rw [hcount, if_neg (by simp), failures_other log u (by simp)]
            simp only [hs, not_true_eq_false, and_false, if_false] at honce
            omega
          case torn =>
            rcases hout with hnone | hout
            · rw [hnone]
              rintro ⟨⟩
            · rw [hout]
              intro h
              rcases htorn h with hcut | ⟨hfail, -⟩
              · exact Or.inl (hmem hcut)
              · exact Or.inr ⟨hmem hfail, Or.inr hlast⟩
      | succeed hnone hsome hs' =>
          constructor
          case once =>
            rw [hcount, if_pos rfl, failures_other log u (by simp), hsome]
            simp only [hnone, Option.isSome_none, Bool.false_eq_true, false_and, if_false] at honce
            simpa [hs'] using honce
          case torn =>
            rw [hsome]
            rintro ⟨⟩
      | fail hs hs' hout hnone =>
          rename_i t'
          constructor
          case once =>
            have hfails : failures (log ++ [(u, .failed q n t')]) q n = failures log q n + 1 := by
              rw [failures_append]
              exact congrArg _ (if_pos ⟨rfl, rfl⟩)
            rw [hcount, if_neg (by simp), hfails]
            split at honce <;> omega
          case torn =>
            intro h
            by_cases ht : t' = t
            · subst ht
              exact Or.inr ⟨hlast, Or.inl hs'⟩
            · rw [hout ht] at h
              rcases htorn h with hcut | ⟨hfail, -⟩
              · exact Or.inl (hmem hcut)
              · exact Or.inr ⟨hmem hfail, Or.inl hs'⟩
      | cut hs hs' hnone =>
          constructor
          case once =>
            rw [hcount, if_neg (by simp), failures_other log u (by simp)]
            simp only [hnone, Option.isSome_none, Bool.false_eq_true, false_and, if_false] at honce
            omega
          case torn => exact fun _ => Or.inl hlast

/-! ### How long a sweep takes -/

/-- The number of steps a sweep takes at most from a point on. -/
def Point.rest : Point → ℕ
  | .idle => 0
  | .queues qs => 134 * qs.length + 1
  | .threads _ qs ns => 134 * qs.length + 12 * ns.length + 2
  | .trials _ qs _ ns ts => 134 * qs.length + 12 * ns.length + 2 * ts.length + 3
  | .running _ qs _ ns _ ts => 134 * qs.length + 12 * ns.length + 2 * ts.length + 4
  | .wiping _ qs _ => 134 * qs.length + 3
  | .marking _ qs _ => 134 * qs.length + 2

theorem rest_lt {e : Event} (hs : Goes work s.dir s.point e s') :
  s'.point.rest + 1 ≤ s.point.rest ∨ e = .started ∧ s'.point.rest + 1 ≤ 940
  := by
  obtain ⟨d, point⟩ := s
  cases hs with
  | succeed queue qs n ns t ts => exact Or.inl le_rfl
  | fail queue qs n ns t ts begun =>
      left
      simp only [Point.rest]
      omega
  | interrupt hs =>
      left
      cases point with
      | idle => cases hs
      | _ =>
          cases hs
          simp [Point.rest]
  | advance hs =>
      cases point with
      | idle =>
          cases hs
          exact Or.inr ⟨rfl, le_rfl⟩
      | queues qs =>
          left
          cases qs with
          | nil =>
              cases hs
              simp [Point.rest]
          | cons queue qs =>
              cases hs
              simp only [Point.rest, THREADS, List.length_cons, List.length_nil]
              omega
      | threads queue qs ns =>
          left
          cases ns with
          | nil =>
              cases hs
              simp [Point.rest]
          | cons n ns =>
              simp only [Sweep.advance] at hs
              split at hs
              all_goals
                cases hs
                simp only [Point.rest, TRIALS, List.length_cons, List.length_nil]
                omega
      | trials queue qs n ns ts =>
          left
          cases ts with
          | nil =>
              cases hs
              simp [Point.rest]
          | cons t ts =>
              simp only [Sweep.advance] at hs
              split at hs
              all_goals
                cases hs
                simp only [Point.rest, List.length_cons]
                omega
      | running queue qs n ns t ts => cases hs
      | wiping queue qs n =>
          cases hs
          exact Or.inl le_rfl
      | marking queue qs n =>
          cases hs
          exact Or.inl le_rfl

theorem length_le (h : Execution (step work) init log s) :
  log.length + s.point.rest ≤ 940 * total log .started
  := by
  induction h with
  | start => exact le_rfl
  | @step log s s' u happening e past now ih =>
      rw [List.length_append, List.length_singleton, total_append]
      rcases rest_lt (step_goes now) with hlt | ⟨rfl, hlt⟩
      · have hle : 0 ≤ if e = Event.started then 1 else 0 := Nat.zero_le _
        omega
      · rw [if_pos rfl]
        omega

/-- What holds after any number of sweeps in one directory that began empty, whatever was interrupted,
exceeded the time limit or failed. -/
structure Resumes (work : ℕ) (log : List (Unit × Event)) (s : State) : Prop where
  /-- An output is that of its trial, and all outputs of its queue for fewer threads are there. A
  marker has all outputs below it, and none from it on. -/
  sound : s.dir.Sound work
  recorded : ∀ q n t, Recorded log s q n t
  completed : ((), .completed) ∈ log → Over log s
  bounded : log.length ≤ 940 * total log .started

/-- What the logs and the directories of the sweeps with `WORK_ITERS` are like. -/
def Resumable (work : ℕ) : Prop := ∀ log s, Execution (step work) init log s → Resumes work log s

end Sweep
