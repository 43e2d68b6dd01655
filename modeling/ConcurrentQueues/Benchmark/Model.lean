import ConcurrentQueues.Library.Log

/-!
# The benchmark

The program `benchmark.cc`. `run_performance_test` makes the test items and marks those that are
sampled. `execute_test` runs the workers, each of which enqueues its section of the items and
dequeues as often; the queue is taken as a list on which `enqueue` and `dequeue` are atomic.
`test_summary` and `export_results` read the stamps of the sampled items.
-/

namespace Benchmark

/-- `TestItem`, with time points in nanoseconds. -/
structure TestItem where
  enqueueStart : ℤ
  enqueueDone : ℤ
  dequeueStart : ℤ
  dequeueDone : ℤ
  shouldSample : Bool
  deriving DecidableEq, Inhabited

/-- The variable `count`, a 64-bit product. -/
def itemCount (opsPerThread nThreads : ℕ) : ℕ := opsPerThread * nThreads % 2 ^ 64

/-- The variable `stride`. -/
def stride (count maxSamples : ℕ) : ℕ :=
  if 0 < maxSamples ∧ maxSamples < count then count / maxSamples else 1

/-- The number of samples that is printed before the test. -/
def announced (count maxSamples : ℕ) : ℕ := count / stride count maxSamples

/-- Item `i` is marked if it is to be sampled. -/
def mark (stride : ℕ) (items : List TestItem) (i : ℕ) : List TestItem :=
  items.modify i fun item => { item with shouldSample := i % stride == 0 }

/-- The test items: `count` new items, marked one after the other. -/
def testItems (count stride : ℕ) : List TestItem :=
  (List.range count).foldl (mark stride) (List.replicate count default)

/-- The variable `sampled` of `test_summary`, which is printed after the test. -/
def sampled (items : List TestItem) : ℕ :=
  items.foldl (fun sampled item => if !item.shouldSample then sampled else sampled + 1) 0

/-- The rows `export_results` writes: the times from the start of the enqueue to the end of the
dequeue, of the enqueue, and of the dequeue. -/
def exportRows (items : List TestItem) : List (ℤ × ℤ × ℤ) :=
  items.foldl
    (fun rows item =>
      if !item.shouldSample then rows
      else rows ++ [(item.dequeueDone - item.enqueueStart, item.enqueueDone - item.enqueueStart,
        item.dequeueDone - item.dequeueStart)]) []

/-- `do_work`. -/
def doWork (state : UInt64) : ℕ → UInt64
  | 0 => state
  | iters + 1 => doWork (state * 6364136223846793005 + 9754186451795953191) iters

/-- What `execute_test` is called with: as many items as `run_performance_test` has made for the
numbers of operations and threads, whose product does not overflow. -/
structure Workload where
  opsPerThread : ℕ
  nThreads : ℕ
  workIters : ℕ
  items : List TestItem
  fits : opsPerThread * nThreads < 2 ^ 64
  length_items : items.length = itemCount opsPerThread nThreads

/-- The points of a worker before each of its steps, with the local variables in scope. The index
`got` stands for a pointer to an item. -/
inductive Worker where
  | arrive
  | wait
  | begin
  | loop (i : ℕ) (rng : UInt64)
  | check (i : ℕ) (rng : UInt64)
  | enqueueStart (i : ℕ) (rng : UInt64)
  | enqueue (i : ℕ) (rng : UInt64) (sample : Bool)
  | enqueueDone (i : ℕ) (rng : UInt64)
  | work (i : ℕ) (rng : UInt64)
  | clock (i : ℕ) (rng : UInt64)
  | dequeue (i : ℕ) (rng : UInt64) (t₀ : ℤ)
  | checkGot (i : ℕ) (rng : UInt64) (t₀ : ℤ) (got : ℕ)
  | dequeueStart (i : ℕ) (rng : UInt64) (t₀ : ℤ) (got : ℕ)
  | dequeueDone (i : ℕ) (rng : UInt64) (got : ℕ)
  | rest (i : ℕ) (rng : UInt64)
  | finish (rng : UInt64)
  | ended
  deriving DecidableEq

/-- The four stamps of an item. -/
inductive Stamp where
  | enqueueStart
  | enqueueDone
  | dequeueStart
  | dequeueDone
  deriving DecidableEq

/-- What a worker does in one step: it may enqueue an item, dequeue one, find the queue empty, or
write a stamp of an item. -/
inductive Action where
  | silent
  | enqueue (item : ℕ)
  | dequeue (item : ℕ)
  | refused
  | write (stamp : Stamp) (item : ℕ)
  deriving DecidableEq

/-- The shared memory of `n` workers, and the points at which they are. -/
structure State (n : ℕ) where
  worker : Fin n → Worker
  queue : List ℕ
  items : List TestItem
  arrived : ℕ
  starts : Fin n → ℤ
  ends : Fin n → ℤ

/-- The stamp of an item is set to `now`. -/
def TestItem.stamp (item : TestItem) (now : ℤ) : Stamp → TestItem
  | .enqueueStart => { item with enqueueStart := now }
  | .enqueueDone => { item with enqueueDone := now }
  | .dequeueStart => { item with dequeueStart := now }
  | .dequeueDone => { item with dequeueDone := now }

/-- Worker `t` moves on to `w`. -/
def State.goto {n : ℕ} (s : State n) (t : Fin n) (w : Worker) : State n :=
  { s with worker := Function.update s.worker t w }

/-- A stamp of the item `i` is set to `now`. -/
def State.write {n : ℕ} (s : State n) (stamp : Stamp) (i : ℕ) (now : ℤ) : State n :=
  { s with items := s.items.modify i fun item => item.stamp now stamp }

namespace Workload

variable (W : Workload)

/-- The variable `base` of worker `t`. -/
def base (t : Fin W.nThreads) : ℕ := t * W.opsPerThread % 2 ^ 64

/-- The index of the variable `my_item` of worker `t`. -/
def myItem (t : Fin W.nThreads) (i : ℕ) : ℕ := (W.base t + i) % 2 ^ 64

/-- The state in which the workers are created. -/
def init : State W.nThreads where
  worker _ := .arrive
  queue := []
  items := W.items
  arrived := 0
  starts _ := 0
  ends _ := 0

/-- One step of worker `t`, at which the clock shows `now`. A worker waits at the barrier until all
have arrived, and no worker follows a pointer past the items. -/
def step (t : Fin W.nThreads) (now : ℤ) (s : State W.nThreads) :
    Option (State W.nThreads × Action) :=
  match s.worker t with
  | .arrive => some ({ s.goto t .wait with arrived := s.arrived + 1 }, .silent)
  | .wait => if s.arrived = W.nThreads then some (s.goto t .begin, .silent) else none
  | .begin =>
      some ({ s.goto t (.loop 0 ((UInt64.ofNat t + 1) * 0x9E3779B97F4A7C15)) with
        starts := Function.update s.starts t now }, .silent)
  | .loop i rng =>
      if i < W.opsPerThread then some (s.goto t (.check i rng), .silent)
      else some (s.goto t (.finish rng), .silent)
  | .check i rng =>
      s.items[W.myItem t i]?.map fun item =>
        if item.shouldSample then (s.goto t (.enqueueStart i rng), .silent)
        else (s.goto t (.enqueue i rng false), .silent)
  | .enqueueStart i rng =>
      some ((s.write .enqueueStart (W.myItem t i) now).goto t (.enqueue i rng true),
        .write .enqueueStart (W.myItem t i))
  | .enqueue i rng sample =>
      some ({ s.goto t (if sample then .enqueueDone i rng else .work i rng) with
        queue := s.queue ++ [W.myItem t i] }, .enqueue (W.myItem t i))
  | .enqueueDone i rng =>
      some ((s.write .enqueueDone (W.myItem t i) now).goto t (.work i rng),
        .write .enqueueDone (W.myItem t i))
  | .work i rng => some (s.goto t (.clock i (doWork rng W.workIters)), .silent)
  | .clock i rng => some (s.goto t (.dequeue i rng now), .silent)
  | .dequeue i rng t₀ =>
      match s.queue with
      | [] => some (s.goto t (.clock i rng), .refused)
      | got :: queue =>
          some ({ s.goto t (.checkGot i rng t₀ got) with queue := queue }, .dequeue got)
  | .checkGot i rng t₀ got =>
      s.items[got]?.map fun item =>
        if item.shouldSample then (s.goto t (.dequeueStart i rng t₀ got), .silent)
        else (s.goto t (.rest i rng), .silent)
  | .dequeueStart i rng t₀ got =>
      some ((s.write .dequeueStart got t₀).goto t (.dequeueDone i rng got),
        .write .dequeueStart got)
  | .dequeueDone i rng got =>
      some ((s.write .dequeueDone got now).goto t (.rest i rng), .write .dequeueDone got)
  | .rest i rng => some (s.goto t (.loop (i + 1) (doWork rng W.workIters)), .silent)
  | .finish _ =>
      some ({ s.goto t .ended with ends := Function.update s.ends t now }, .silent)
  | .ended => none

end Workload

end Benchmark
