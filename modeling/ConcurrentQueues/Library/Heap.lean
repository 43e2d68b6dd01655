import Mathlib.Logic.Function.Basic
import Mathlib.Order.Basic
import Mathlib.Order.Nat
import Mathlib.Tactic.Common

/-!
# Heaps that reuse addresses

A heap from which blocks are deleted, and which may hand out the address of a deleted block
again. A pointer carries the number of the allocation it came from. No access reads the
number, but it tells a pointer to a deleted block from one to a later block at the same
address.
-/

/-- A pointer that is not null. -/
structure Heap.Pointer where
  address : ℕ
  birth : ℕ
  deriving DecidableEq

/-- What is alive at each address, with the number of its allocation, and how many allocations
there have been. -/
structure Heap (β : Type) where
  block : ℕ → Option (ℕ × β)
  births : ℕ
  born : ∀ x c, block x = some c → c.1 < births

namespace Heap

variable {β : Type}

/-- The heap before the first allocation. -/
def empty : Heap β where
  block _ := none
  births := 0
  born _ _ h := by cases h

/-- The content of the block at the address of `p`, whatever allocation it comes from. -/
def read (h : Heap β) (p : Pointer) : Option β := (h.block p.address).map Prod.snd

/-- A new block with content `b` at the address `x`, which must be free. -/
def new (h : Heap β) (x : ℕ) (b : β) : Option (Heap β × Pointer) :=
  if (h.block x).isNone then
    some (⟨Function.update h.block x (some (h.births, b)), h.births + 1, by
      intro y c hc
      by_cases hy : y = x
      · subst hy
        rw [Function.update_self] at hc
        cases hc
        apply Nat.lt_succ_self
      · rw [Function.update_of_ne hy] at hc
        exact Nat.lt_succ_of_lt (h.born y c hc)⟩, ⟨x, h.births⟩)
  else none

/-- The block at the address of `p` gets the content `b`. -/
def write (h : Heap β) (p : Pointer) (b : β) : Heap β where
  block := Function.update h.block p.address ((h.block p.address).map fun c => (c.1, b))
  births := h.births
  born := by
    intro y c hc
    by_cases hy : y = p.address
    · subst hy
      rw [Function.update_self] at hc
      obtain ⟨d, hd, rfl⟩ := Option.map_eq_some_iff.mp hc
      exact h.born _ d hd
    · rw [Function.update_of_ne hy] at hc
      exact h.born y c hc

/-- The block at the address of `p` is deleted. -/
def delete (h : Heap β) (p : Pointer) : Heap β where
  block := Function.update h.block p.address none
  births := h.births
  born := by
    intro y c hc
    by_cases hy : y = p.address
    · subst hy
      rw [Function.update_self] at hc
      cases hc
    · rw [Function.update_of_ne hy] at hc
      exact h.born y c hc

/-- The block `p` was allocated as is alive and has the content `b`. -/
def Has (h : Heap β) (p : Pointer) (b : β) : Prop := h.block p.address = some (p.birth, b)

/-- The block `p` was allocated as is alive. -/
def Alive (h : Heap β) (p : Pointer) : Prop := ∃ b, h.Has p b

variable {h h' : Heap β} {p q : Pointer} {b c : β} {x : ℕ}

theorem write_block :
  (h.write p b).block =
    Function.update h.block p.address ((h.block p.address).map fun c => (c.1, b))
  := rfl

theorem delete_block :
  (h.delete p).block = Function.update h.block p.address none
  := rfl

theorem Has.read (hp : h.Has p b) :
  h.read p = some b
  := by
  rw [Heap.read, hp]
  rfl

theorem Has.unique (hp : h.Has p b) (hp' : h.Has p c) :
  b = c
  := by
  have heq := hp.symm.trans hp'
  cases heq
  rfl

theorem Has.alive (hp : h.Has p b) :
  h.Alive p
  := ⟨b, hp⟩

/-- A pointer to a living block is determined by its address. -/
theorem Alive.eq (hp : h.Alive p) (hq : h.Alive q) (hpq : p.address = q.address) :
  p = q
  := by
  obtain ⟨b, hb⟩ := hp
  obtain ⟨c, hc⟩ := hq
  rw [Has, hpq, hc] at hb
  cases p
  cases q
  cases hb
  cases hpq
  rfl

theorem Alive.birth_lt (hp : h.Alive p) :
  p.birth < h.births
  := by
  obtain ⟨b, hb⟩ := hp
  exact h.born _ _ hb

theorem empty_alive :
  ¬ (empty : Heap β).Alive p
  := by
  rintro ⟨b, hb⟩
  cases hb

/-! ### Allocation -/

theorem new_inv (hn : h.new x b = some (h', p)) :
  h.block x = none ∧ p = ⟨x, h.births⟩ ∧ h'.births = h.births + 1 ∧
    h'.block = Function.update h.block x (some (h.births, b))
  := by
  rw [new, Option.ite_none_right_eq_some, Option.isNone_iff_eq_none] at hn
  obtain ⟨hnone, heq⟩ := hn
  cases heq
  exact ⟨hnone, rfl, rfl, rfl⟩

theorem new_has (hn : h.new x b = some (h', p)) :
  h'.Has p b
  := by
  obtain ⟨-, rfl, -, hblock⟩ := new_inv hn
  rw [Has, hblock]
  apply Function.update_self

/-- The new block is none of those that were alive. -/
theorem ne_of_new (hn : h.new x b = some (h', p)) (hq : h.Alive q) :
  q ≠ p
  := by
  rintro rfl
  obtain ⟨-, rfl, -⟩ := new_inv hn
  exact absurd hq.birth_lt (Nat.lt_irrefl _)

theorem has_new_iff (hn : h.new x b = some (h', p)) (hqp : q ≠ p) :
  h'.Has q c ↔ h.Has q c
  := by
  obtain ⟨hnone, rfl, -, hblock⟩ := new_inv hn
  rw [Has, Has, hblock]
  by_cases hq : q.address = x
  · rw [hq, Function.update_self, hnone]
    constructor
    · intro heq
      cases q
      cases heq
      cases hq
      exact absurd rfl hqp
    · intro heq
      cases heq
  · rw [Function.update_of_ne hq]

theorem Has.new (hq : h.Has q c) (hn : h.new x b = some (h', p)) :
  h'.Has q c
  := (has_new_iff hn (ne_of_new hn hq.alive)).mpr hq

theorem alive_new_iff (hn : h.new x b = some (h', p)) :
  h'.Alive q ↔ h.Alive q ∨ q = p
  := by
  constructor
  · rintro ⟨c, hc⟩
    by_cases hqp : q = p
    · exact Or.inr hqp
    · exact Or.inl ⟨c, (has_new_iff hn hqp).mp hc⟩
  · rintro (⟨c, hc⟩ | rfl)
    · exact ⟨c, hc.new hn⟩
    · exact ⟨b, new_has hn⟩

/-! ### Writing -/

theorem write_has (hp : h.Alive p) :
  (h.write p b).Has p b
  := by
  obtain ⟨c, hc⟩ := hp
  rw [Has, write_block, Function.update_self, hc]
  rfl

theorem has_write_iff (hp : h.Alive p) (hqp : q ≠ p) :
  (h.write p b).Has q c ↔ h.Has q c
  := by
  by_cases hq : q.address = p.address
  · have hdead : ∀ {d : β}, ¬ h.Has q d := fun hd => hqp (hd.alive.eq hp hq)
    refine ⟨fun hc => ?_, fun hc => absurd hc hdead⟩
    rw [Has, write_block, hq, Function.update_self] at hc
    obtain ⟨⟨d₁, d₂⟩, hd, heq⟩ := Option.map_eq_some_iff.mp hc
    obtain ⟨rfl, -⟩ := Prod.mk.inj heq
    rw [← hq] at hd
    exact absurd hd hdead
  · rw [Has, Has, write_block, Function.update_of_ne hq]

theorem alive_write_iff (hp : h.Alive p) :
  (h.write p b).Alive q ↔ h.Alive q
  := by
  by_cases hqp : q = p
  · subst hqp
    exact ⟨fun _ => hp, fun _ => ⟨b, write_has hp⟩⟩
  · exact exists_congr fun c => has_write_iff hp hqp

/-! ### Deletion -/

theorem delete_dead :
  ¬ (h.delete p).Alive p
  := by
  rintro ⟨b, hb⟩
  rw [Has, delete_block, Function.update_self] at hb
  cases hb

theorem has_delete_iff (hp : h.Alive p) (hqp : q ≠ p) :
  (h.delete p).Has q c ↔ h.Has q c
  := by
  by_cases hq : q.address = p.address
  · constructor
    · intro hc
      rw [Has, delete_block, hq, Function.update_self] at hc
      cases hc
    · intro hc
      exact absurd (hc.alive.eq hp hq) hqp
  · rw [Has, Has, delete_block, Function.update_of_ne hq]

theorem alive_delete_iff (hp : h.Alive p) :
  (h.delete p).Alive q ↔ h.Alive q ∧ q ≠ p
  := by
  by_cases hqp : q = p
  · subst hqp
    exact ⟨fun hq => absurd hq delete_dead, fun hq => absurd rfl hq.2⟩
  · rw [and_iff_left hqp]
    exact exists_congr fun c => has_delete_iff hp hqp

/-! ### Courses -/

/-- What a step does to the heap as far as allocation is concerned. -/
inductive Use where
  | keep
  | new (p : Pointer)
  | delete (p : Pointer)

/-- A step from `h` to `h'`. Only what is alive is deleted. -/
inductive Use.Step : Heap β → Use → Heap β → Prop where
  | keep {h h' : Heap β} (hbirths : h'.births = h.births) (halive : ∀ q, h'.Alive q ↔ h.Alive q) :
      Step h .keep h'
  | new {h h' : Heap β} {x : ℕ} {b : β} {p : Pointer} (hn : h.new x b = some (h', p)) :
      Step h (.new p) h'
  | delete {h : Heap β} {p : Pointer} (hp : h.Alive p) : Step h (.delete p) (h.delete p)

/-- The heaps of a course of `n` steps. -/
structure Course (n : ℕ) (heap : ℕ → Heap β) (use : ℕ → Use) : Prop where
  start : heap 0 = empty
  step : ∀ k < n, Use.Step (heap k) (use k) (heap (k + 1))

namespace Course

variable {n : ℕ} {heap : ℕ → Heap β} {use : ℕ → Use} (C : Course n heap use)

include C

theorem births_mono {k m : ℕ} (hkm : k ≤ m) (hm : m ≤ n) :
  (heap k).births ≤ (heap m).births
  := by
  induction hkm with
  | refl => exact le_rfl
  | @step m _ ih =>
      apply le_trans (ih (Nat.le_of_succ_le hm))
      have hstep := C.step m hm
      generalize use m = u at hstep
      generalize heap (m + 1) = h' at hstep
      cases hstep with
      | keep hbirths => exact le_of_eq hbirths.symm
      | new hn =>
          rw [(new_inv hn).2.2.1]
          apply Nat.le_succ
      | delete => exact le_rfl

/-- What is alive has been allocated and has not been deleted. -/
theorem alive_iff {k : ℕ} (hk : k ≤ n) {p : Pointer} :
  (heap k).Alive p ↔ (∃ m < k, use m = .new p) ∧ ∀ m < k, use m ≠ .delete p
  := by
  induction k with
  | zero =>
      rw [C.start]
      constructor
      · exact fun hp => absurd hp empty_alive
      · rintro ⟨⟨m, hm, -⟩, -⟩
        exact absurd hm (Nat.not_lt_zero m)
  | succ k ih =>
      have ih := ih (Nat.le_of_succ_le hk)
      have hstep := C.step k hk
      simp only [Nat.lt_succ_iff_lt_or_eq, or_imp, forall_and, forall_eq, or_and_right, exists_or,
        exists_eq_left]
      generalize hu : use k = u at hstep
      generalize heap (k + 1) = h' at hstep
      cases hstep with
      | keep _ halive =>
          rw [halive, ih]
          simp
      | @new _ x b p' hn =>
          rw [alive_new_iff hn, ih]
          by_cases hp : p = p'
          · subst hp
            simp only [or_true, true_and, true_iff, and_true, ne_eq, reduceCtorEq,
              not_false_eq_true]
            refine Or.inr fun m hm hdel => ?_
            -- a deletion before would make the block older than it is
            have hbefore := C.step m (hm.trans hk)
            rw [hdel] at hbefore
            generalize hh : heap (m + 1) = h'' at hbefore
            cases hbefore with
            | delete hp =>
                have hlt := lt_of_lt_of_le hp.birth_lt (C.births_mono (le_of_lt hm) (le_of_lt hk))
                rw [(new_inv hn).2.1] at hlt
                exact absurd hlt (Nat.lt_irrefl _)
          · have hne : Use.new p' ≠ .new p := by
              rintro ⟨⟩
              exact hp rfl
            simp [hp, Ne.symm hp]
      | @delete p' hp' =>
          rw [alive_delete_iff hp', ih]
          simp [and_assoc, eq_comm]

/-- No block is deleted twice. -/
theorem delete_unique {k m : ℕ} {p : Pointer} (hk : k < n) (hm : m < n)
    (hkp : use k = .delete p) (hmp : use m = .delete p) :
  k = m
  := by
  have key : ∀ {k m : ℕ}, k < m → m < n → use k = .delete p → use m ≠ .delete p := by
    intro k m hkm hm hkp hmp
    have hstep := C.step m hm
    rw [hmp] at hstep
    generalize heap (m + 1) = h' at hstep
    cases hstep with
    | delete hp => exact ((C.alive_iff (le_of_lt hm)).mp hp).2 k hkm hkp
  rcases lt_trichotomy k m with hlt | heq | hlt
  · exact absurd hmp (key hlt hm hkp)
  · exact heq
  · exact absurd hkp (key hlt hk hmp)

end Course

end Heap
