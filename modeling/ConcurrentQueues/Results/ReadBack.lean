import ConcurrentQueues.Results.Model

/-!
# Output files are read as they were written

`plot.py` reads the arguments of a benchmark from the first line of its output file, and its trial from
the name of the file. The names of two files are the same only if their queues, numbers of threads
and trials are, and a queue that times out wipes the files with the same number of threads alone.
-/

namespace Results

open Pattern

/-! ### Numbers -/

theorem int_decimal (n : ℕ) :
  int (decimal n) = n
  := Nat.ofDigitChars_ten_toDigits

theorem decimal_digit (n : ℕ) :
  ∀ c ∈ decimal n, c.isDigit
  := fun _ hc => Nat.isDigit_of_mem_toDigits (by decide) (by decide) hc

theorem decimal_ne (n : ℕ) :
  decimal n ≠ []
  := Nat.toDigits_ne_nil

theorem digit_not_space {c : Char} (h : c.isDigit) :
  isSpace c = false
  := by
  simp only [Char.isDigit, Bool.and_eq_true, decide_eq_true_eq] at h
  have hlow : 48 ≤ c.toNat := h.1
  have hhigh : c.toNat ≤ 57 := h.2
  simp only [isSpace, decide_eq_false_iff_not, List.mem_cons, List.not_mem_nil, or_false]
  omega

theorem ne_newline {c : Char} (h : isSpace c = false) :
  c ≠ '\n'
  := by
  rintro rfl
  cases h

/-! ### The first line -/

/-- A captured string, a space and a text. -/
theorem matchAt_field {cls : Char → Bool} {ps : List Piece} {v w s : List Char}
    {ws : List (List Char)} {rest : List Char} (hv : v ≠ []) (hcls : ∀ c ∈ v, cls c)
    (hspace : cls ' ' = false) (hw : Stops isSpace (w ++ s)) (h : matchAt ps s = some (ws, rest)) :
  matchAt (.many true cls :: .many false isSpace :: .text w :: ps) (v ++ (' ' :: (w ++ s))) =
    some (v :: ws, rest)
  := by
  apply matchAt_many (m := (ws, rest)) hv hcls
  · rintro c ⟨⟩
    exact hspace
  · apply matchAt_many (w := [' ']) (m := (ws, rest)) (by simp) _ hw
    · rw [matchAt_text, h]
    · intro c hc
      rw [List.mem_singleton.mp hc]
      rfl

/-- The first line from `queue` on. -/
def Header.body (h : Header) : List Char :=
  "queue=".toList ++ (h.queue ++ (' ' :: ("n_threads=".toList ++ (decimal h.nThreads ++
    (' ' :: ("ops_per_thread=".toList ++ (decimal h.opsPerThread ++
      (' ' :: ("wall_s=".toList ++ (h.wallS ++
        (' ' :: ("work_iters=".toList ++ (decimal h.workIters ++
          (' ' :: ("max_samples=".toList ++ decimal h.maxSamples)))))))))))))))

theorem line_eq (h : Header) :
  h.line = '#' :: ' ' :: h.body
  := rfl

theorem float_not_space :
  isFloatChar ' ' = false
  := by decide

theorem matchAt_body (h : Header) :
  matchAt HEADER_RE h.body =
    some ([h.queue, decimal h.nThreads, decimal h.opsPerThread, h.wallS, decimal h.workIters,
      decimal h.maxSamples], [])
  := by
  have hlast : matchAt [.many true Char.isDigit] (decimal h.maxSamples) =
      some ([decimal h.maxSamples], []) := by
    have hstop : Stops Char.isDigit [] := by
      rintro c ⟨⟩
    have hmatch : matchAt [.many true Char.isDigit] (decimal h.maxSamples ++ []) =
        some ([decimal h.maxSamples], []) :=
      matchAt_many (m := ([], [])) (decimal_ne _) (decimal_digit _) hstop rfl
    rwa [List.append_nil] at hmatch
  have hdigit : Char.isDigit ' ' = false := by decide
  have hqueue : ∀ c ∈ h.queue, (!isSpace c) = true := by
    intro c hc
    rw [h.queue_noSpace c hc]
    rfl
  apply Eq.trans matchAt_text
  -- one field after the other
  apply matchAt_field h.queue_ne hqueue (by decide) (by rintro c ⟨⟩; decide)
  apply matchAt_field (decimal_ne _) (decimal_digit _) hdigit (by rintro c ⟨⟩; decide)
  apply matchAt_field (decimal_ne _) (decimal_digit _) hdigit (by rintro c ⟨⟩; decide)
  apply matchAt_field h.wallS_ne h.wallS_float float_not_space (by rintro c ⟨⟩; decide)
  apply matchAt_field (decimal_ne _) (decimal_digit _) hdigit (by rintro c ⟨⟩; decide)
  exact hlast

/-- A string is a part of one line. -/
def NoNewline (w : List Char) : Prop := ∀ c ∈ w, c ≠ '\n'

instance : DecidablePred NoNewline := fun w => List.decidableBAll (· ≠ '\n') w

theorem NoNewline.append {w s : List Char} (hw : NoNewline w) (hs : NoNewline s) :
  NoNewline (w ++ s)
  := List.forall_mem_append.mpr ⟨hw, hs⟩

theorem decimal_noNewline (n : ℕ) :
  NoNewline (decimal n)
  := fun c hc => ne_newline (digit_not_space (decimal_digit n c hc))

theorem line_noNewline (h : Header) :
  NoNewline h.line
  := by
  have hqueue : NoNewline h.queue := fun c hc => ne_newline (h.queue_noSpace c hc)
  have hwall : NoNewline h.wallS := by
    have hnewline : isFloatChar '\n' = false := by decide
    rintro c hc rfl
    rw [h.wallS_float _ hc] at hnewline
    cases hnewline
  -- texts and what is printed between them, in turn
  apply NoNewline.append (by decide)
  apply hqueue.append
  apply NoNewline.append (by decide)
  apply (decimal_noNewline h.nThreads).append
  apply NoNewline.append (by decide)
  apply (decimal_noNewline h.opsPerThread).append
  apply NoNewline.append (by decide)
  apply hwall.append
  apply NoNewline.append (by decide)
  apply (decimal_noNewline h.workIters).append
  apply NoNewline.append (by decide)
  exact decimal_noNewline h.maxSamples

theorem readline_file (h : Header) (rows : List Char) :
  readline (file h rows) = h.line ++ ['\n']
  := by
  have hline : ∀ c ∈ h.line, decide (c ≠ '\n') = true :=
    fun c hc => decide_eq_true (line_noNewline h c hc)
  rw [readline, file, List.takeWhile_append_of_pos hline, List.dropWhile_append_of_pos hline]
  simp

/-- The first line is stripped to what is matched. -/
theorem strip_line (h : Header) :
  strip (lstrip (h.line ++ ['\n'])) = h.body
  := by
  have hlstrip : lstrip (h.line ++ ['\n']) = h.body ++ ['\n'] := rfl
  have hleft : (h.body ++ ['\n']).dropWhile isSpace = h.body ++ ['\n'] := rfl
  obtain ⟨init, c, hc⟩ := List.eq_nil_or_concat (decimal h.maxSamples) |>.resolve_left (decimal_ne _)
  have hdigit : c.isDigit := decimal_digit h.maxSamples c (by rw [hc]; simp)
  have hbody : ∃ before, h.body = before ++ [c] := by
    delta Header.body
    rw [hc]
    simp only [List.concat_eq_append, ← List.append_assoc, ← List.cons_append]
    exact ⟨_, rfl⟩
  obtain ⟨before, hbody⟩ := hbody
  have hright : (h.body ++ ['\n']).rdropWhile isSpace = h.body := by
    have hend : isSpace '\n' = true := by decide
    rw [List.rdropWhile_concat_pos isSpace h.body '\n' hend, hbody]
    apply List.rdropWhile_concat_neg
    rw [digit_not_space hdigit]
    exact Bool.false_ne_true
  rw [hlstrip, strip, hleft, hright]

/-! ### The name of the file -/

theorem stem_ne (queue : Sweep.Queue) :
  stem queue ≠ []
  := by
  cases queue
  all_goals decide

theorem stem_letters (queue : Sweep.Queue) :
  ∀ c ∈ stem queue, isLetter c
  := by
  apply List.all_eq_true.mp
  cases queue
  all_goals decide

theorem stem_injective :
  Function.Injective stem
  := by
  intro q q' h
  revert h
  cases q <;> cases q' <;> decide

/-- The pattern of the part of the name that is the same for all trials. -/
def cellPattern : List Piece :=
  [.many true isLetter, .text "Queue".toList, .text "_threads".toList, .many true Char.isDigit,
    .text "_trial".toList]

/-- A pattern behind the part of the name that is the same for all trials. -/
theorem matchAt_cell (p : List Piece) (queue : Sweep.Queue) (nThreads : ℕ) {s : List Char}
    {ws : List (List Char)} {rest : List Char} (h : matchAt p s = some (ws, rest)) :
  matchAt (cellPattern ++ p) (cellName queue nThreads ++ s) =
    some (stem queue :: decimal nThreads :: ws, rest)
  := by
  have hname : cellName queue nThreads ++ s = stem queue ++ ("Queue".toList ++
      ("_threads".toList ++ (decimal nThreads ++ ("_trial".toList ++ s)))) := by
    simp only [cellName, List.append_assoc]
  rw [hname]
  apply matchAt_many_text (m := (decimal nThreads :: ws, rest)) (stem_ne queue)
    (stem_letters queue) (by decide) (List.all_eq_true.mp (by decide)) _ (by decide)
  · apply Eq.trans matchAt_text
    apply matchAt_many (m := (ws, rest)) (decimal_ne _) (decimal_digit _)
    · rintro c ⟨⟩
      decide
    · exact Eq.trans matchAt_text h
  · rintro c ⟨⟩
    decide

theorem matchAt_fileName (queue : Sweep.Queue) (nThreads trial : ℕ) :
  matchAt FNAME_RE (fileName queue nThreads trial) =
    some ([stem queue, decimal nThreads, decimal trial], [])
  := by
  apply matchAt_cell [.many true Char.isDigit, .text ".csv".toList]
  apply matchAt_many (m := ([], [])) (decimal_ne _) (decimal_digit _)
  · rintro c ⟨⟩
    decide
  · rfl

/-- Two files that have the part of a name that is the same for all trials in common belong to the
same queue and number of threads. -/
theorem cell_eq {q q' : Sweep.Queue} {n n' : ℕ} {s s' : List Char}
    (h : cellName q n ++ s = cellName q' n' ++ s') :
  q = q' ∧ n = n' ∧ s = s'
  := by
  have hmatch := matchAt_cell [] q n (s := s) rfl
  rw [h, matchAt_cell [] q' n' rfl] at hmatch
  simp only [Option.some.injEq, Prod.mk.injEq, List.cons.injEq, and_true] at hmatch
  obtain ⟨⟨hq, hn⟩, hs⟩ := hmatch
  refine ⟨(stem_injective hq).symm, ?_, hs.symm⟩
  rw [← int_decimal n, ← int_decimal n', hn]

/-- The outputs of two trials have the same name only if they are the same trial, and a queue that
times out wipes the outputs for the same number of threads and no others. -/
theorem fileNames_distinct (q q' : Sweep.Queue) (n n' t t' : ℕ) :
  (fileName q n t = fileName q' n' t' ↔ q = q' ∧ n = n' ∧ t = t') ∧
    (Wiped q n (fileName q' n' t') ↔ q' = q ∧ n' = n)
  := by
  constructor
  · constructor
    · intro h
      obtain ⟨rfl, rfl, htrial⟩ := cell_eq h
      have hdecimal := List.append_cancel_right htrial
      refine ⟨rfl, rfl, ?_⟩
      rw [← int_decimal t, hdecimal, int_decimal]
    · rintro ⟨rfl, rfl, rfl⟩
      rfl
  · constructor
    · rintro ⟨any, h⟩
      obtain ⟨rfl, rfl, -⟩ := cell_eq h
      exact ⟨rfl, rfl⟩
    · rintro ⟨rfl, rfl⟩
      exact ⟨decimal t', rfl⟩

/-! ### Reading back -/

end Results
