import ConcurrentQueues.Library.Pattern
import ConcurrentQueues.Sweep.Model
import Mathlib.Data.List.DropRight

/-!
# The output files

What `export_results` of `benchmark.cc` writes into the first lines of an output file, the name that
`sweep.sh` gives to the file, the files that it wipes, and how `parse_one` of `plot.py` reads both.
-/

namespace Results

open Pattern

/-- A number as it is printed. -/
def decimal (n : ℕ) : List Char := Nat.toDigits 10 n

/-- `int` of a string of digits. -/
def int (s : List Char) : ℕ := Nat.ofDigitChars 10 s 0

/-- The class `\s`. -/
def isSpace (c : Char) : Bool :=
  decide (9 ≤ c.toNat ∧ c.toNat ≤ 13 ∨ 28 ≤ c.toNat ∧ c.toNat ≤ 32 ∨
    c.toNat ∈ [0x85, 0xa0, 0x1680, 0x2028, 0x2029, 0x202f, 0x205f, 0x3000] ∨
    0x2000 ≤ c.toNat ∧ c.toNat ≤ 0x200a)

/-- The class `[\d.eE+-]`. -/
def isFloatChar (c : Char) : Bool := c.isDigit || "e.E+-".toList.contains c

/-- The class `[A-Za-z]`. -/
def isLetter (c : Char) : Bool := c.isAlpha

/-! ### The first line -/

/-- What is printed into the first line: the arguments of the benchmark and the wall time, a floating
point number that is printed as `wallS`. -/
structure Header where
  queue : List Char
  nThreads : ℕ
  opsPerThread : ℕ
  wallS : List Char
  workIters : ℕ
  maxSamples : ℕ
  queue_ne : queue ≠ []
  queue_noSpace : ∀ c ∈ queue, isSpace c = false
  wallS_ne : wallS ≠ []
  wallS_float : ∀ c ∈ wallS, isFloatChar c

/-- The first line that `export_results` writes, without the end of the line. -/
def Header.line (h : Header) : List Char :=
  "# queue=".toList ++ (h.queue ++ (" n_threads=".toList ++ (decimal h.nThreads ++
    (" ops_per_thread=".toList ++ (decimal h.opsPerThread ++ (" wall_s=".toList ++ (h.wallS ++
      (" work_iters=".toList ++ (decimal h.workIters ++ (" max_samples=".toList ++
        decimal h.maxSamples))))))))))

/-- An output file: the first line, the names of the columns and the rows. -/
def file (h : Header) (rows : List Char) : List Char :=
  h.line ++ ('\n' :: ("e2e_ns,enqueue_ns,dequeue_ns\n".toList ++ rows))

/-- `HEADER_RE`. -/
def HEADER_RE : List Piece :=
  [.text "queue=".toList, .many true fun c => !isSpace c, .many false isSpace,
    .text "n_threads=".toList, .many true Char.isDigit, .many false isSpace,
    .text "ops_per_thread=".toList, .many true Char.isDigit, .many false isSpace,
    .text "wall_s=".toList, .many true isFloatChar, .many false isSpace,
    .text "work_iters=".toList, .many true Char.isDigit, .many false isSpace,
    .text "max_samples=".toList, .many true Char.isDigit]

/-- `readline`: the first line, with its end. -/
def readline (s : List Char) : List Char :=
  s.takeWhile (· ≠ '\n') ++ (s.dropWhile (· ≠ '\n')).take 1

/-- `lstrip("# ")`. -/
def lstrip (s : List Char) : List Char := s.dropWhile fun c => c = '#' ∨ c = ' '

/-- `strip()`. -/
def strip (s : List Char) : List Char := (s.dropWhile isSpace).rdropWhile isSpace

/-! ### The name of the file -/

/-- What comes before `Queue` in a name in `QUEUES`. -/
def stem : Sweep.Queue → List Char
  | .mutexQueue => "Mutex".toList
  | .twoLockQueue => "TwoLock".toList
  | .pljQueue => "PLJ".toList
  | .msQueue => "MS".toList
  | .valoisQueue => "Valois".toList
  | .lcrQueue => "LCR".toList
  | .lprQueue => "LPR".toList

/-- The part of the name that is the same for all trials. -/
def cellName (queue : Sweep.Queue) (nThreads : ℕ) : List Char :=
  stem queue ++ ("Queue".toList ++ ("_threads".toList ++ (decimal nThreads ++ "_trial".toList)))

/-- The variable `out` of `sweep.sh`, without the directory. -/
def fileName (queue : Sweep.Queue) (nThreads trial : ℕ) : List Char :=
  cellName queue nThreads ++ (decimal trial ++ ".csv".toList)

/-- The names that `rm` is called with: the ones with any string for the trial. -/
def Wiped (queue : Sweep.Queue) (nThreads : ℕ) (name : List Char) : Prop :=
  ∃ any, name = cellName queue nThreads ++ (any ++ ".csv".toList)

/-- `FNAME_RE`, where the name of the queue is captured without `Queue`. -/
def FNAME_RE : List Piece :=
  [.many true isLetter, .text "Queue".toList, .text "_threads".toList, .many true Char.isDigit,
    .text "_trial".toList, .many true Char.isDigit, .text ".csv".toList]

/-! ### Reading a file -/

/-- What `parse_one` finds out about a file without its rows. The wall time is the string that is
converted to a number. -/
structure Run where
  queue : List Char
  nThreads : ℕ
  trial : ℕ
  wallS : List Char
  opsPerThread : ℕ
  deriving DecidableEq

/-- The variable `trial` of `parse_one`, from the name of the file. -/
def trialOf (name : List Char) : ℕ :=
  match matchAt FNAME_RE name with
  | some ([_, _, trial], _) => int trial
  | _ => 0

/-- `parse_one` for a file with the name `name` and the content `s`. When the first line cannot be
parsed it raises an error, with the name and what is left of the line. -/
def parseOne (name s : List Char) : Except (List Char × List Char) Run :=
  let header := strip (lstrip (readline s))
  match search HEADER_RE header with
  | some ([queue, nThreads, opsPerThread, wallS, _, _], _) =>
      .ok ⟨queue, int nThreads, trialOf name, wallS, int opsPerThread⟩
  | _ => .error (name, header)

end Results
