import Mathlib.Data.Int.CardIntervalMod
import ConcurrentQueues.Benchmark.Model

/-!
# The samples of the benchmark

`run_performance_test` marks the items whose latency is recorded, every `stride`-th of them, where
the stride is meant to leave at most `max_samples`. The stride is rounded down, so the cap holds
when no rounding takes place.
-/

namespace Benchmark

/-- The indices of the items that are marked. -/
def marked (count maxSamples : ℕ) : Finset ℕ :=
  {i ∈ Finset.range count |
    ((testItems count (stride count maxSamples))[i]?.map TestItem.shouldSample) = some true}

/-! ### The items that are marked -/

/-- Marking the first `k` items leaves the others as they are. -/
theorem mark_getElem? {count i : ℕ} (stride k : ℕ) (hi : i < count) :
  ((List.range k).foldl (mark stride) (List.replicate count default))[i]? =
    some { (default : TestItem) with shouldSample := decide (i < k) && i % stride == 0 }
  := by
  induction k with
  | zero =>
      rw [List.range_zero, List.foldl_nil, List.getElem?_replicate, if_pos hi]
      rfl
  | succ k ih =>
      rw [List.range_succ, List.foldl_append, List.foldl_cons, List.foldl_nil, mark,
        List.getElem?_modify, ih]
      by_cases hik : k = i
      · subst hik
        simp
      · have hlt : i < k + 1 ↔ i < k := by omega
        simp [hik, hlt]

theorem testItems_getElem? {count i : ℕ} (stride : ℕ) (hi : i < count) :
  (testItems count stride)[i]? =
    some { (default : TestItem) with shouldSample := i % stride == 0 }
  := by
  rw [testItems, mark_getElem? stride count hi, decide_eq_true hi, Bool.true_and]

theorem testItems_length (count stride : ℕ) :
  (testItems count stride).length = count
  := by
  refine List.foldlRecOn (motive := fun items : List TestItem => items.length = count) _ _ ?_ ?_
  · exact List.length_replicate
  · intro items hitems i _
    rw [mark, List.length_modify, hitems]

/-- The flags of the test items. -/
theorem testItems_map (count stride : ℕ) :
  (testItems count stride).map TestItem.shouldSample =
    (List.range count).map fun i => i % stride == 0
  := by
  apply List.ext_getElem?
  intro i
  rw [List.getElem?_map, List.getElem?_map]
  rcases Nat.lt_or_ge i count with hi | hi
  · rw [testItems_getElem? stride hi, List.getElem?_range hi]
    rfl
  · rw [List.getElem?_eq_none (by rwa [testItems_length]),
      List.getElem?_eq_none (by rwa [List.length_range])]
    rfl

theorem mem_marked {count maxSamples i : ℕ} :
  i ∈ marked count maxSamples ↔ i < count ∧ i % stride count maxSamples = 0
  := by
  rw [marked, Finset.mem_filter, Finset.mem_range]
  apply and_congr_right
  intro hi
  rw [testItems_getElem? _ hi]
  simp

theorem stride_pos (count maxSamples : ℕ) :
  0 < stride count maxSamples
  := by
  rw [stride]
  split
  case isTrue h => exact Nat.div_pos (le_of_lt h.2) h.1
  case isFalse => exact Nat.one_pos

/-- The number of marked items is the quotient rounded up. -/
theorem card_marked (count maxSamples : ℕ) :
  (marked count maxSamples).card =
    count / stride count maxSamples + if 0 < count % stride count maxSamples then 1 else 0
  := by
  have hcount := Nat.count_modEq_card count (stride_pos count maxSamples) 0
  rw [Nat.zero_mod, Nat.count_eq_card_filter_range] at hcount
  rw [← hcount]
  congr 1
  ext i
  rw [mem_marked, Finset.mem_filter, Finset.mem_range]
  rfl

/-! ### The items that are counted -/

theorem sampled_eq_countP (items : List TestItem) :
  sampled items = items.countP TestItem.shouldSample
  := by
  have key : ∀ k, items.foldl
      (fun sampled item => if !item.shouldSample then sampled else sampled + 1) k =
        k + items.countP TestItem.shouldSample := by
    induction items with
    | nil =>
        intro k
        rfl
    | cons item items ih =>
        intro k
        rw [List.foldl_cons, ih, List.countP_cons]
        cases item.shouldSample with
        | true => simp [Nat.add_assoc, Nat.add_comm]
        | false => rfl
  rw [sampled, key, Nat.zero_add]

/-- One row is written for each sample. -/
theorem exportRows_length (items : List TestItem) :
  (exportRows items).length = sampled items
  := by
  rw [sampled_eq_countP]
  have key : ∀ rows : List (ℤ × ℤ × ℤ), (items.foldl
      (fun rows item =>
        if !item.shouldSample then rows
        else rows ++ [(item.dequeueDone - item.enqueueStart, item.enqueueDone - item.enqueueStart,
          item.dequeueDone - item.dequeueStart)]) rows).length =
        rows.length + items.countP TestItem.shouldSample := by
    induction items with
    | nil =>
        intro rows
        rfl
    | cons item items ih =>
        intro rows
        rw [List.foldl_cons, ih, List.countP_cons]
        cases item.shouldSample with
        | true => simp [Nat.add_assoc, Nat.add_comm]
        | false => rfl
  rw [exportRows, key, List.length_nil, Nat.zero_add]

/-- What is counted after the test is what has been marked. -/
theorem sampled_testItems (count maxSamples : ℕ) :
  sampled (testItems count (stride count maxSamples)) = (marked count maxSamples).card
  := by
  have hmap := congrArg (List.countP id) (testItems_map count (stride count maxSamples))
  rw [List.countP_map, List.countP_map] at hmap
  rw [sampled_eq_countP]
  apply hmap.trans
  have hcount := Nat.count_eq_card_filter_range (fun i => i % stride count maxSamples = 0) count
  rw [Nat.count] at hcount
  apply Eq.trans _ (hcount.trans _)
  · rfl
  · congr 1
    ext i
    rw [mem_marked, Finset.mem_filter, Finset.mem_range]

/-! ### When the cap holds -/

/-- The announced number is the number of marked items if the stride divides the count. -/
theorem announced_eq_iff (count maxSamples : ℕ) :
  announced count maxSamples = (marked count maxSamples).card ↔
    count % stride count maxSamples = 0
  := by
  rw [card_marked, announced]
  split
  case isTrue h => omega
  case isFalse h => omega

/-- The cap on the samples holds, and their number is announced truthfully, if and only if there are
no more items than samples or the items divide evenly. -/
theorem sampling_capped_iff {count maxSamples : ℕ} (hmax : 0 < maxSamples) :
  (marked count maxSamples).card ≤ maxSamples ∧
      announced count maxSamples = (marked count maxSamples).card ↔
    count ≤ maxSamples ∨ maxSamples ∣ count
  := by
  rcases Nat.lt_or_ge maxSamples count with hlt | hle
  · have hstride : stride count maxSamples = count / maxSamples := if_pos ⟨hmax, hlt⟩
    have hpos := stride_pos count maxSamples
    constructor
    · rintro ⟨hcap, heq⟩
      -- the stride divides the count, and is at least as large as it should be
      right
      have hmod := (announced_eq_iff count maxSamples).mp heq
      rw [← heq, announced] at hcap
      have hcount := Nat.div_add_mod count (stride count maxSamples)
      rw [hmod, Nat.add_zero] at hcount
      have hle : stride count maxSamples * maxSamples ≤ count := by
        rw [hstride]
        apply Nat.div_mul_le_self
      have hge : count ≤ stride count maxSamples * maxSamples := by
        calc count = stride count maxSamples * (count / stride count maxSamples) := hcount.symm
          _ ≤ stride count maxSamples * maxSamples := Nat.mul_le_mul_left _ hcap
      rw [le_antisymm hge hle]
      apply Nat.dvd_mul_left
    · rintro (hle | ⟨d, rfl⟩)
      · omega
      · rw [Nat.mul_div_cancel_left d hmax] at hstride
        have hmod : maxSamples * d % stride (maxSamples * d) maxSamples = 0 := by
          rw [hstride, Nat.mul_mod_left]
        have heq := (announced_eq_iff _ maxSamples).mpr hmod
        use ?_, heq
        rw [← heq, announced, hstride, Nat.mul_div_cancel _ (hstride ▸ hpos)]
  · have hstride : stride count maxSamples = 1 := by
      rw [stride, if_neg]
      omega
    have heq := (announced_eq_iff count maxSamples).mpr (by rw [hstride, Nat.mod_one])
    have hcap : (marked count maxSamples).card ≤ maxSamples := by
      rw [← heq, announced, hstride, Nat.div_one]
      exact hle
    exact ⟨fun _ => Or.inl hle, fun _ => ⟨hcap, heq⟩⟩

/-- With 38400000 items among 192 threads each 384th item is sampled. -/
theorem sampling_capped_iff_even :
  (marked (itemCount 200000 192) 100000).card ≤ 100000 ∧
      announced (itemCount 200000 192) 100000 = (marked (itemCount 200000 192) 100000).card ↔
    itemCount 200000 192 ≤ 100000 ∨ 100000 ∣ itemCount 200000 192
  := sampling_capped_iff (by decide)

/-- With as many items among 144 threads, less the remainder, each 383rd item is sampled. This makes
261 samples too many, one of which is not announced. -/
theorem sampling_overruns :
  (marked (itemCount 266666 144) 100000).card = 100261 ∧
    announced (itemCount 266666 144) 100000 = 100260 ∧
    ¬ ((marked (itemCount 266666 144) 100000).card ≤ 100000 ∧
      announced (itemCount 266666 144) 100000 = (marked (itemCount 266666 144) 100000).card)
  := by
  have hstride : stride (itemCount 266666 144) 100000 = 383 := by decide
  have hcard : (marked (itemCount 266666 144) 100000).card = 100261 := by
    rw [card_marked, hstride]
    decide
  use hcard
  rw [hcard, announced, hstride]
  decide

end Benchmark
