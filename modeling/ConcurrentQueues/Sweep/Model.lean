import ConcurrentQueues.Library.Log

/-!
# The sweep

The script `sweep.sh`, which runs the benchmark for each queue, number of threads and trial, and
leaves one output file for each of them. A run that exceeds the time limit or fails puts an end to
its queue: the outputs for its number of threads are wiped, and a marker with that number makes
this sweep and later ones skip it and all higher ones. The script may be interrupted
anywhere. It may be started again in the same directory, where it skips what there is.
-/

namespace Sweep

/-- The names in `QUEUES`. -/
inductive Queue where
  | mutexQueue
  | twoLockQueue
  | pljQueue
  | msQueue
  | valoisQueue
  | lcrQueue
  | lprQueue
  deriving DecidableEq

/-- `QUEUES`. -/
def QUEUES : List Queue :=
  [.mutexQueue, .twoLockQueue, .pljQueue, .msQueue, .valoisQueue, .lcrQueue, .lprQueue]

/-- `THREADS`. -/
def THREADS : List ℕ := [1, 2, 4, 8, 16, 32, 48, 64, 96, 144, 192]

/-- `seq 1 TRIALS`. -/
def TRIALS : List ℕ := [1, 2, 3, 4, 5]

/-- `TOTAL_OPS`. -/
def TOTAL_OPS : ℕ := 38400000

/-- `MAX_SAMPLES`. -/
def MAX_SAMPLES : ℕ := 100000

/-- What the benchmark is called with, and writes into the first line of its output. -/
structure Config where
  opsPerThread : ℕ
  workIters : ℕ
  queue : Queue
  nThreads : ℕ
  maxSamples : ℕ
  deriving DecidableEq

/-- The call of the benchmark for `queue` and `n_threads`. -/
def config (workIters : ℕ) (queue : Queue) (nThreads : ℕ) : Config :=
  ⟨TOTAL_OPS / nThreads, workIters, queue, nThreads, MAX_SAMPLES⟩

/-- An output of a benchmark that has ended, or of one that was stopped while it wrote. -/
inductive Output where
  | whole (c : Config)
  | torn
  deriving DecidableEq

/-- `OUTPUT_DIR`: the output of each trial and the number in the marker of each queue. -/
structure Directory where
  out : Queue → ℕ → ℕ → Option Output
  marker : Queue → Option ℕ

/-- Where the script is, with the queues `qs`, numbers of threads `ns` and trials `ts` that are to come
in the loops. -/
inductive Point where
  | idle
  | queues (qs : List Queue)
  | threads (queue : Queue) (qs : List Queue) (ns : List ℕ)
  | trials (queue : Queue) (qs : List Queue) (nThreads : ℕ) (ns ts : List ℕ)
  | running (queue : Queue) (qs : List Queue) (nThreads : ℕ) (ns : List ℕ) (trial : ℕ) (ts : List ℕ)
  | wiping (queue : Queue) (qs : List Queue) (nThreads : ℕ)
  | marking (queue : Queue) (qs : List Queue) (nThreads : ℕ)

/-- The directory, and the script when it runs. -/
structure State where
  dir : Directory
  point : Point

/-- What happens next. A benchmark that fails or is interrupted may have begun to write its output,
and `rm` may be interrupted when it has removed all files but those of the trials that are
`kept`. -/
inductive Happening where
  | goOn
  | succeed
  | fail (begun : Bool)
  | interrupt (begun : Bool) (kept : ℕ → Bool)

/-- What the log of a sweep says. -/
inductive Event where
  | silent
  | started
  | launched (queue : Queue) (nThreads trial : ℕ)
  | succeeded (queue : Queue) (nThreads trial : ℕ)
  | failed (queue : Queue) (nThreads trial : ℕ)
  | cut (queue : Queue) (nThreads trial : ℕ)
  | interrupted
  | completed
  deriving DecidableEq

/-- The output of a trial becomes `o`. -/
def Directory.set (d : Directory) (queue : Queue) (nThreads trial : ℕ) (o : Option Output) :
    Directory :=
  { d with
    out := fun q n t => if q = queue ∧ n = nThreads ∧ t = trial then o else d.out q n t }

/-- The outputs for a queue and a number of threads are removed, but for the trials that are `kept`. -/
def Directory.remove (d : Directory) (queue : Queue) (nThreads : ℕ) (kept : ℕ → Bool) : Directory :=
  { d with
    out := fun q n t => if q = queue ∧ n = nThreads ∧ kept t = false then none else d.out q n t }

/-- The number `nThreads` is written into the marker of a queue. -/
def Directory.mark (d : Directory) (queue : Queue) (nThreads : ℕ) : Directory :=
  { d with marker := fun q => if q = queue then some nThreads else d.marker q }

/-- What a benchmark that has not ended leaves behind. -/
def leftover (begun : Bool) : Option Output := if begun then some .torn else none

/-- The test for the marker: the queue has timed out at `nThreads` or at fewer threads. -/
def Directory.excludes (d : Directory) (queue : Queue) (nThreads : ℕ) : Bool :=
  (d.marker queue).any fun m => decide (m ≤ nThreads)

/-- The script goes on by one command, where it does not wait for a benchmark. -/
def advance (d : Directory) : Point → Option (State × Event)
  | .idle => some (⟨d, .queues QUEUES⟩, .started)
  | .queues [] => some (⟨d, .idle⟩, .completed)
  | .queues (queue :: qs) => some (⟨d, .threads queue qs THREADS⟩, .silent)
  | .threads _ qs [] => some (⟨d, .queues qs⟩, .silent)
  | .threads queue qs (n :: ns) =>
      if d.excludes queue n then some (⟨d, .threads queue qs ns⟩, .silent)
      else some (⟨d, .trials queue qs n ns TRIALS⟩, .silent)
  | .trials queue qs _ ns [] => some (⟨d, .threads queue qs ns⟩, .silent)
  | .trials queue qs n ns (t :: ts) =>
      if (d.out queue n t).isSome then some (⟨d, .trials queue qs n ns ts⟩, .silent)
      else some (⟨d, .running queue qs n ns t ts⟩, .launched queue n t)
  | .running _ _ _ _ _ _ => none
  | .wiping queue qs n =>
      some (⟨d.remove queue n fun _ => false, .marking queue qs n⟩, .silent)
  -- `break 2`
  | .marking queue qs n => some (⟨d.mark queue n, .queues qs⟩, .silent)

/-- The script is interrupted. -/
def interrupt (d : Directory) (begun : Bool) (kept : ℕ → Bool) : Point → Option (State × Event)
  | .idle => none
  | .running queue _ n _ t _ => some (⟨d.set queue n t (leftover begun), .idle⟩, .cut queue n t)
  | .wiping queue _ n => some (⟨d.remove queue n kept, .idle⟩, .interrupted)
  | _ => some (⟨d, .idle⟩, .interrupted)

/-- One step of a script that is called with `WORK_ITERS`. -/
def step (workIters : ℕ) (_ : Unit) (happening : Happening) (s : State) : Option (State × Event) :=
  match happening, s.point with
  | .goOn, point => advance s.dir point
  | .succeed, .running queue qs n ns t ts =>
      some (⟨s.dir.set queue n t (some (.whole (config workIters queue n))),
        .trials queue qs n ns ts⟩, .succeeded queue n t)
  | .fail begun, .running queue qs n _ t _ =>
      some (⟨s.dir.set queue n t (leftover begun), .wiping queue qs n⟩, .failed queue n t)
  | .interrupt begun kept, point => interrupt s.dir begun kept point
  | _, _ => none

/-- An empty directory, in which no script runs. -/
def init : State := ⟨⟨fun _ _ _ => none, fun _ => none⟩, .idle⟩

end Sweep
