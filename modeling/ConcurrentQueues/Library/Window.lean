import Mathlib.Data.Nat.ModEq
import Mathlib.Logic.Function.Basic
import Mathlib.Tactic.Common

/-!
# Windows

The cells of a ring with capacity `R` as a window on the sequence of all tickets: it shows the `R`
tickets from the head on, of which the first ones have the items of a list. When the
window moves on by one ticket, the cell of the ticket left behind serves the ticket
that comes into view.
-/

variable {C V : Type}

/-- The cells show the items of `q` at the tickets from `h` on, and none at the tickets after them.
What it means that a cell has an item or none at a ticket is given by `slot`. -/
structure Window (R : ℕ) (slot : ℕ → Option V → C → Prop) (cells : ℕ → C) (h : ℕ)
    (q : List V) : Prop where
  length_le : q.length ≤ R
  cell : ∀ j < R, slot (h + j) q[j]? (cells ((h + j) % R))

namespace Window

variable {R : ℕ} {slot : ℕ → Option V → C → Prop} {cells : ℕ → C} {h : ℕ} {q : List V} {c : C}
  {x : V}

/-- Tickets that are in view together have different cells. -/
theorem residue_ne {j k : ℕ} (hj : j < R) (hk : k < R) (hne : j ≠ k) :
  (h + j) % R ≠ (h + k) % R
  := by
  intro heq
  have hmod : j ≡ k [MOD R] := Nat.ModEq.add_left_cancel' h heq
  rw [Nat.ModEq, Nat.mod_eq_of_lt hj, Nat.mod_eq_of_lt hk] at hmod
  exact hne hmod

/-- Every cell serves a ticket in view. -/
theorem exists_residue (hR : 0 < R) (h t : ℕ) :
  ∃ j < R, (h + j) % R = t % R
  := by
  use (t + (R - h % R)) % R, Nat.mod_lt _ hR
  have hlt := Nat.mod_lt h hR
  have hdiv := Nat.div_add_mod h R
  have hsum : h + (t + (R - h % R)) = t + R * (h / R + 1) := by
    rw [Nat.mul_add, Nat.mul_one]
    omega
  rw [Nat.add_mod_mod, hsum, Nat.add_mul_mod_self_left]

/-- The cell of the head. -/
theorem front (hw : Window R slot cells h q) (hR : 0 < R) :
  slot h q.head? (cells (h % R))
  := by
  rw [List.head?_eq_getElem?]
  exact hw.cell 0 hR

/-- The cell of the first ticket without an item. -/
theorem back (hw : Window R slot cells h q) (hlt : q.length < R) :
  slot (h + q.length) none (cells ((h + q.length) % R))
  := by
  have hcell := hw.cell q.length hlt
  rwa [List.getElem?_eq_none le_rfl] at hcell

/-- When there are no items, no cell has one. -/
theorem vacant (hw : Window R slot cells h []) (hR : 0 < R) (t : ℕ) :
  ∃ k, slot k none (cells (t % R))
  := by
  obtain ⟨j, hj, heq⟩ := exists_residue hR h t
  have hcell := hw.cell j hj
  rw [heq] at hcell
  exact ⟨h + j, hcell⟩

/-- An item is put at the first ticket without one. -/
theorem append (hw : Window R slot cells h q) (hlt : q.length < R)
    (hc : slot (h + q.length) (some x) c) :
  Window R slot (Function.update cells ((h + q.length) % R) c) h (q ++ [x])
  := by
  constructor
  case length_le =>
    rw [List.length_append]
    exact hlt
  case cell =>
    intro j hj
    by_cases heq : j = q.length
    · subst heq
      rw [Function.update_self, List.getElem?_concat_length]
      exact hc
    · rw [Function.update_of_ne (residue_ne hj hlt heq)]
      have hcell := hw.cell j hj
      rcases Nat.lt_or_gt_of_ne heq with hj' | hj'
      · rwa [List.getElem?_append_left hj']
      · rw [List.getElem?_eq_none (le_of_lt hj')] at hcell
        rwa [List.getElem?_eq_none]
        rw [List.length_append]
        exact hj'

/-- The head moves on to the next ticket. -/
theorem next (hw : Window R slot cells h q) (hR : 0 < R) (hc : slot (h + R) none c) :
  Window R slot (Function.update cells (h % R) c) (h + 1) q.tail
  := by
  constructor
  case length_le =>
    rw [List.length_tail]
    exact (Nat.sub_le _ _).trans hw.length_le
  case cell =>
    intro j hj
    have hticket : h + 1 + j = h + (j + 1) := by omega
    have hitem : q.tail[j]? = q[j + 1]? := by rw [List.getElem?_tail]
    rw [hticket, hitem]
    rcases Nat.lt_or_eq_of_le (show j + 1 ≤ R from hj) with hlt | heq
    · rw [Function.update_of_ne]
      · exact hw.cell (j + 1) hlt
      · exact residue_ne (k := 0) hlt hR (Nat.succ_ne_zero j)
    · -- the ticket that comes into view has the cell of the ticket left behind
      have hnone : q[j + 1]? = none := by
        apply List.getElem?_eq_none
        rw [heq]
        exact hw.length_le
      rw [hnone, heq, Nat.add_mod_right, Function.update_self]
      exact hc

end Window
