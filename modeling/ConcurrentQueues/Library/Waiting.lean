import ConcurrentQueues.Library.TicketRing
import Mathlib.Data.List.Range

/-!
# The items a ring is going to hand out

The end of a course of tickets tells which tickets have been used to install an item. Those of them
that lie between the counters make the ring a list: an enqueuer that is going to install its item
appends the item when it draws its ticket, and a dequeuer removes an item when it draws the ticket
of the item. When the dequeuer has come first, the item is handed over at once, at a moment at
which the list is empty.
-/

variable {ι V : Type}

/-- The item that has been installed with a ticket. -/
def TailTicket.installed : TailTicket ι V → Option V
  | .full x => some x
  | _ => none

theorem TailTicket.installed_eq_some {s : TailTicket ι V} {x : V} :
  s.installed = some x ↔ s = .full x
  := by
  cases s with
  | full y => simp [installed]
  | _ => simp [installed]

namespace Tickets

/-- The items that are going to be installed with the tickets between the counters, when `f` is what
is going to be installed with each ticket. -/
def waiting (f : ℕ → Option V) (a : Tickets ι V) : List V :=
  (List.range' a.head (a.tail - a.head)).filterMap f

variable {f : ℕ → Option V} {a a' : Tickets ι V}

theorem waiting_congr (hhead : a'.head = a.head) (htail : a'.tail = a.tail) :
  a'.waiting f = a.waiting f
  := by
  rw [waiting, waiting, hhead, htail]

theorem waiting_nil (h : a.tail ≤ a.head) :
  a.waiting f = []
  := by
  rw [waiting, Nat.sub_eq_zero_of_le h]
  rfl

theorem waiting_tail (h : a.head ≤ a.tail) (hhead : a'.head = a.head) (htail : a'.tail = a.tail + 1) :
  a'.waiting f = a.waiting f ++ (f a.tail).toList
  := by
  rw [waiting, waiting, hhead, htail, Nat.sub_add_comm h, List.range'_concat, List.filterMap_append,
    Nat.one_mul, Nat.add_sub_cancel' h]
  cases hf : f a.tail with
  | none => rw [List.filterMap_cons_none hf, List.filterMap_nil, Option.toList_none]
  | some x => rw [List.filterMap_cons_some hf, List.filterMap_nil, Option.toList_some]

theorem waiting_head (h : a.head < a.tail) (hhead : a'.head = a.head + 1) (htail : a'.tail = a.tail) :
  a.waiting f = (f a.head).toList ++ a'.waiting f
  := by
  have hlength : a.tail - a.head = a.tail - (a.head + 1) + 1 := by omega
  rw [waiting, waiting, hhead, htail, hlength, List.range'_succ]
  cases hf : f a.head with
  | none => rw [List.filterMap_cons_none hf, Option.toList_none, List.nil_append]
  | some x => rw [List.filterMap_cons_some hf, Option.toList_some, List.singleton_append]

/-- No items are waiting when nothing is going to be installed from the head on. -/
theorem waiting_eq_nil (h : ∀ t, a.head ≤ t → f t = none) :
  a.waiting f = []
  := by
  apply List.filterMap_eq_nil_iff.mpr
  intro t ht
  apply h t (List.mem_range'_1.mp ht).1

/-- One item is waiting when one of the tickets between the counters is going to be used. -/
theorem waiting_eq_singleton {t : ℕ} {x : V} (hhead : a.head ≤ t) (htail : t < a.tail)
    (hx : f t = some x) (hother : ∀ u, a.head ≤ u → u < a.tail → u ≠ t → f u = none) :
  a.waiting f = [x]
  := by
  have hsplit : List.range' a.head (a.tail - a.head) =
      List.range' a.head (t - a.head) ++ t :: List.range' (t + 1) (a.tail - (t + 1)) := by
    rw [← List.range'_succ, show a.tail - a.head = (t - a.head) + (a.tail - (t + 1) + 1) by omega,
      ← List.range'_append_1, Nat.add_sub_cancel' hhead]
  have hbefore : (List.range' a.head (t - a.head)).filterMap f = [] := by
    apply List.filterMap_eq_nil_iff.mpr
    intro u hu
    have hu' := List.mem_range'_1.mp hu
    apply hother u hu'.1
    · omega
    · omega
  have hafter : (List.range' (t + 1) (a.tail - (t + 1))).filterMap f = [] := by
    apply List.filterMap_eq_nil_iff.mpr
    intro u hu
    have hu' := List.mem_range'_1.mp hu
    apply hother u
    · omega
    · omega
    · omega
  rw [waiting, hsplit, List.filterMap_append, hbefore, List.filterMap_cons_some hx, hafter]
  rfl

/-! ### Along a course -/

namespace Course

variable {n : ℕ} {T : ℕ → Tickets ι V} {who : ℕ → ι} {ev : ℕ → Option (RingTag V)}
  (h : Course n T who ev) {k m t : ℕ} {x y : V}

include h

/-- What is going to be installed with a ticket that an enqueuer draws is its item. -/
theorem eq_of_full (hk : k < n) (hdraw : ev k = some (.drawTail t x)) (hfull : (T n).enq t = .full y) :
  y = x
  := by
  obtain ⟨m, hm, hins⟩ := h.full_cause le_rfl hfull
  obtain ⟨e, hem, -, he⟩ := h.install_cause hm hins
  obtain rfl := h.drawTail_unique (hem.trans hm) hk he hdraw
  cases he.symm.trans hdraw
  rfl

/-- A ticket that is going to be full and that the head has passed is held by a dequeuer until the
item has been installed. -/
theorem held_of_passed (hk : k ≤ n) (hfull : (T n).enq t = .full y) (hhead : t < (T k).head)
    (hnot : (T k).enq t ≠ .full y) (hdrawn : (T k).tail ≤ t ∨ (T k).enq t ≠ .free) :
  ∃ j, (T k).deq t = .held j
  := by
  cases hdeq : (T k).deq t with
  | held j => exact ⟨j, rfl⟩
  | free =>
      obtain ⟨htail, hfree⟩ := (h.inv hk).passed t hhead hdeq
      rcases hdrawn with hle | hne
      · exact absurd htail (not_lt.mpr hle)
      · exact absurd hfree hne
  | took =>
      obtain ⟨z, hz⟩ := (h.inv hk).took t hdeq
      cases ((h.later hk le_rfl).full t z hz).symm.trans hfull
      exact absurd hz hnot
  | missed => exact absurd hfull ((h.inv le_rfl).missed t ((h.later hk le_rfl).missed t hdeq) y)

/-- A ticket that is going to be full is not drawn from a closed ring. -/
theorem not_full_of_closed (hk : k ≤ n) (hclosed : (T k).closed = true) (ht : (T k).tail ≤ t) :
  (T n).enq t ≠ .full y
  := by
  intro hfull
  cases ((h.later hk le_rfl).skipped t (Or.inr hclosed) ((h.inv hk).enq t ht)).symm.trans hfull

variable {f : ℕ → Option V}

theorem waiting_drawTail (hk : k < n) (hdraw : ev k = some (.drawTail t x)) (hle : (T k).head ≤ t) :
  (T (k + 1)).waiting f = (T k).waiting f ++ (f t).toList
  := by
  obtain ⟨⟨-, rfl⟩, hT⟩ := h.step k hk _ hdraw
  rw [hT]
  exact waiting_tail hle rfl rfl

theorem waiting_drawHead (hk : k < n) (hdraw : ev k = some (.drawHead t)) (hlt : t < (T k).tail) :
  (T k).waiting f = (f t).toList ++ (T (k + 1)).waiting f
  := by
  obtain ⟨hok, hT⟩ := h.step k hk _ hdraw
  obtain rfl : t = (T k).head := hok
  rw [hT]
  exact waiting_head hlt rfl rfl

variable (hf : ∀ t x, f t = some x ↔ (T n).enq t = .full x)

include hf

/-- Nothing else changes the items that are waiting. -/
theorem waiting_other (hk : k < n)
    (htail : ∀ t x, ev k = some (.drawTail t x) → t < (T k).head)
    (hhead : ∀ t, ev k = some (.drawHead t) → (T k).tail ≤ t) :
  (T (k + 1)).waiting f = (T k).waiting f
  := by
  cases he : ev k with
  | none => rw [h.rest k hk he]
  | some τ =>
      obtain ⟨hok, hT⟩ := h.step k hk τ he
      rw [hT]
      cases τ with
      | drawTail t x =>
          obtain ⟨-, rfl⟩ := hok
          have hlt := htail _ x he
          rw [waiting_nil (le_of_lt hlt), waiting_nil]
          exact hlt
      | drawHead t =>
          obtain rfl : t = (T k).head := hok
          have hle := hhead _ he
          rw [waiting_nil hle, waiting_nil]
          exact Nat.le_succ_of_le hle
      | jump t =>
          obtain ⟨-, hlt, hle⟩ := hok
          rw [waiting_nil (le_of_lt (lt_of_lt_of_le hlt hle)), waiting_nil]
          exact hle
      | drawClosed =>
          rcases le_or_gt (T k).head (T k).tail with hle | hlt
          · have hnone : f (T k).tail = none := by
              cases hx : f (T k).tail with
              | none => rfl
              | some x =>
                  exact absurd ((hf _ x).mp hx) (h.not_full_of_closed (le_of_lt hk) hok le_rfl)
            have happend : ((T k).apply (who k) .drawClosed).waiting f
                = (T k).waiting f ++ (f (T k).tail).toList := waiting_tail hle rfl rfl
            rw [happend, hnone, Option.toList_none, List.append_nil]
          · rw [waiting_nil (le_of_lt hlt), waiting_nil]
            exact hlt
      | _ => exact waiting_congr rfl rfl

end Course

end Tickets
