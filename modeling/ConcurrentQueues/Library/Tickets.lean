import Mathlib.Logic.Function.Basic
import Mathlib.Order.Nat
import Mathlib.Tactic.Common

/-!
# Ticket protocols

A ring whose cells are claimed by tickets: enqueuers draw tickets from a tail counter and
dequeuers from a head counter, and the two holders of one ticket meet in a cell. Here is
what such a protocol does to the tickets, whatever the cells look like, and what holds
along any sequence of its events.
-/

/-- An operation on a ring of items. -/
inductive RingOp (V : Type) where
  | enqueue (x : V)
  | dequeue
  deriving DecidableEq

instance {V : Type} : Inhabited (RingOp V) := ⟨.dequeue⟩

/-- What an operation on a ring returns. -/
inductive RingRes (V : Type) where
  | ok
  | closed
  | value (x : V)
  deriving DecidableEq

/-- What an access of a thread does to the tickets. -/
inductive RingTag (V : Type) where
  | other
  | drawTail (t : ℕ) (x : V)
  | drawClosed
  | install (t : ℕ) (x : V)
  | giveUp (t : ℕ)
  | close
  | jump (h : ℕ)
  | drawHead (h : ℕ)
  | look (h : ℕ)
  | take (h : ℕ) (x : V)
  | miss (h : ℕ)
  | sawEmpty (h : ℕ)
  deriving DecidableEq

/-- The tail ticket of a thread that had `e` and has done `τ`. -/
def RingTag.enqAfter {V : Type} (e : Option (ℕ × V)) : RingTag V → Option (ℕ × V)
  | .drawTail t x => some (t, x)
  | .install _ _ | .giveUp _ => none
  | _ => e

/-- The head ticket of a thread that had `d` and has done `τ`. -/
def RingTag.deqAfter {V : Type} (d : Option ℕ) : RingTag V → Option ℕ
  | .drawHead h => some h
  | .take _ _ | .miss _ => none
  | _ => d

/-- The ticket an access settles. -/
def RingTag.ticket {V : Type} : RingTag V → Option ℕ
  | .install t _ | .take t _ | .miss t => some t
  | _ => none

/-- An access of a dequeue draws from the head, or it settles what comes of a head ticket, looks at
the ring, or moves the tail up. -/
def RingTag.OfDequeue {V : Type} : RingTag V → Prop
  | .drawTail _ _ | .drawClosed | .install _ _ | .giveUp _ | .close => False
  | _ => True

/-- A tail ticket: not drawn, held by a thread that wants to install `x`, given up, or used
to install `x`. -/
inductive TailTicket (ι V : Type) where
  | free
  | held (i : ι) (x : V)
  | gone
  | full (x : V)

/-- A head ticket: not drawn, held by a thread, or used with or without getting an item. -/
inductive HeadTicket (ι : Type) where
  | free
  | held (i : ι)
  | took
  | missed

/-- The two counters of a ring, whether it is closed, and its tickets. -/
structure Tickets (ι V : Type) where
  head : ℕ
  tail : ℕ
  closed : Bool
  enq : ℕ → TailTicket ι V
  deq : ℕ → HeadTicket ι

namespace Tickets

variable {ι V : Type}

/-- The tickets of a new ring whose counters start at `k`. -/
def new (k : ℕ) : Tickets ι V := ⟨k, k, false, fun _ => .free, fun _ => .free⟩

/-- What must be the case for thread `i` to do `τ`. -/
def Ok (a : Tickets ι V) (i : ι) : RingTag V → Prop
  | .other | .close => True
  | .drawTail t _ => a.closed = false ∧ t = a.tail
  | .drawClosed => a.closed = true
  | .install t x => a.enq t = .held i x ∧ a.deq t ≠ .took ∧ a.deq t ≠ .missed
  | .giveUp t => ∃ x, a.enq t = .held i x
  | .jump h => a.closed = false ∧ a.tail < h ∧ h ≤ a.head
  | .drawHead h => h = a.head
  | .look h => a.deq h = .held i
  | .take h x => a.deq h = .held i ∧ a.enq h = .full x
  | .miss h => a.deq h = .held i ∧ ∀ x, a.enq h ≠ .full x
  | .sawEmpty h => a.deq h = .missed ∧ a.tail ≤ h + 1

/-- The tickets after thread `i` has done `τ`. -/
def apply (a : Tickets ι V) (i : ι) : RingTag V → Tickets ι V
  | .other | .look _ | .sawEmpty _ => a
  | .drawTail t x => { a with tail := a.tail + 1, enq := Function.update a.enq t (.held i x) }
  | .drawClosed => { a with tail := a.tail + 1 }
  | .install t x => { a with enq := Function.update a.enq t (.full x) }
  | .giveUp t => { a with enq := Function.update a.enq t .gone }
  | .close => { a with closed := true }
  | .jump h => { a with tail := h }
  | .drawHead h => { a with head := a.head + 1, deq := Function.update a.deq h (.held i) }
  | .take h _ => { a with deq := Function.update a.deq h .took }
  | .miss h => { a with deq := Function.update a.deq h .missed }

/-- What holds of the tickets at all times: only tickets below the counters are drawn, an item
is taken exactly from where it has been installed, and a ticket that dequeuers have
passed without drawing it will not be drawn by enqueuers. -/
structure Inv (a : Tickets ι V) : Prop where
  enq : ∀ t, a.tail ≤ t → a.enq t = .free
  deq : ∀ t, a.head ≤ t → a.deq t = .free
  passed : ∀ t < a.head, a.deq t = .free → t < a.tail ∧ a.enq t = .free
  took : ∀ t, a.deq t = .took → ∃ x, a.enq t = .full x
  missed : ∀ t, a.deq t = .missed → ∀ x, a.enq t ≠ .full x

variable {a a' : Tickets ι V} {i : ι} {τ : RingTag V}

theorem new_inv (k : ℕ) :
  (new k : Tickets ι V).Inv
  := by
  constructor
  case enq => exact fun _ _ => rfl
  case deq => exact fun _ _ => rfl
  case passed => exact fun t ht _ => ⟨ht, rfl⟩
  case took =>
    intro t h
    cases h
  case missed =>
    intro t h
    cases h

/-- What is never undone: counters go up, the ring stays closed, used tickets stay used, a
ticket below the tail that is not drawn will not be drawn, and a thread that no longer
holds a ticket has used it. -/
structure Later (a a' : Tickets ι V) : Prop where
  head : a.head ≤ a'.head
  tail : a.tail ≤ a'.tail
  closed : a.closed = true → a'.closed = true
  full : ∀ t x, a.enq t = .full x → a'.enq t = .full x
  gone : ∀ t, a.enq t = .gone → a'.enq t = .gone
  skipped : ∀ t, t < a.tail ∨ a.closed = true → a.enq t = .free → a'.enq t = .free
  took : ∀ t, a.deq t = .took → a'.deq t = .took
  missed : ∀ t, a.deq t = .missed → a'.deq t = .missed
  tailHeld : ∀ t i x, a.enq t = .held i x →
    a'.enq t = .held i x ∨ a'.enq t = .gone ∨ ∃ y, a'.enq t = .full y
  headHeld : ∀ t i, a.deq t = .held i → a'.deq t = .held i ∨ a'.deq t = .took ∨ a'.deq t = .missed

/-- An access that moves only the counters. -/
theorem Later.of_counters {h t : ℕ} {c : Bool} (hh : a.head ≤ h) (ht : a.tail ≤ t)
    (hc : a.closed = true → c = true) :
  a.Later { a with head := h, tail := t, closed := c }
  := by
  constructor
  case head => exact hh
  case tail => exact ht
  case closed => exact hc
  case full => exact fun _ _ => id
  case gone => exact fun _ => id
  case skipped => exact fun _ _ => id
  case took => exact fun _ => id
  case missed => exact fun _ => id
  case tailHeld => exact fun _ _ _ => Or.inl
  case headHeld => exact fun _ _ => Or.inl

theorem Later.refl (a : Tickets ι V) :
  a.Later a
  := Later.of_counters le_rfl le_rfl id

theorem Later.trans {a'' : Tickets ι V} (h : a.Later a') (h' : a'.Later a'') :
  a.Later a''
  := by
  constructor
  case head => exact h.head.trans h'.head
  case tail => exact h.tail.trans h'.tail
  case closed => exact fun hc => h'.closed (h.closed hc)
  case full => exact fun t x ht => h'.full t x (h.full t x ht)
  case gone => exact fun t ht => h'.gone t (h.gone t ht)
  case skipped =>
    intro t hlt ht
    apply h'.skipped t _ (h.skipped t hlt ht)
    exact hlt.imp (fun hlt => lt_of_lt_of_le hlt h.tail) h.closed
  case took => exact fun t ht => h'.took t (h.took t ht)
  case missed => exact fun t ht => h'.missed t (h.missed t ht)
  case tailHeld =>
    intro t i x ht
    rcases h.tailHeld t i x ht with hheld | hgone | ⟨y, hfull⟩
    · exact h'.tailHeld t i x hheld
    · exact Or.inr (Or.inl (h'.gone t hgone))
    · exact Or.inr (Or.inr ⟨y, h'.full t y hfull⟩)
  case headHeld =>
    intro t i ht
    rcases h.headHeld t i ht with hheld | htook | hmissed
    · exact h'.headHeld t i hheld
    · exact Or.inr (Or.inl (h'.took t htook))
    · exact Or.inr (Or.inr (h'.missed t hmissed))

theorem update_ne {α : Type} {f : ℕ → α} {t u : ℕ} {y z : α} (hu : f u = y) (ht : f t ≠ y) :
  Function.update f t z u = y
  := by
  rw [Function.update_of_ne, hu]
  rintro rfl
  exact ht hu

/-- A value of an updated function that is not the new one is an old one. -/
theorem update_inv {α : Type} {f : ℕ → α} {t u : ℕ} {y z : α} (hu : Function.update f t z u = y)
    (hz : z ≠ y) :
  f u = y
  := by
  by_cases hut : u = t
  · subst hut
    exact absurd ((Function.update_self ..).symm.trans hu) hz
  · rwa [Function.update_of_ne hut] at hu

/-- The holder of a tail ticket uses it or gives it up. -/
theorem later_of_held {t : ℕ} {x : V} (hheld : a.enq t = .held i x) {s : TailTicket ι V}
    (hs : s = .gone ∨ ∃ y, s = .full y) :
  a.Later { a with enq := Function.update a.enq t s }
  := by
  have hne : ∀ {r : TailTicket ι V}, (∀ i x, r ≠ .held i x) → a.enq t ≠ r :=
    fun hr heq => hr i x (heq.symm.trans hheld)
  constructor
  case head => exact le_rfl
  case tail => exact le_rfl
  case closed => exact id
  case full => exact fun u y hu => update_ne hu (hne nofun)
  case gone => exact fun u hu => update_ne hu (hne nofun)
  case skipped => exact fun u _ hu => update_ne hu (hne nofun)
  case took => exact fun _ => id
  case missed => exact fun _ => id
  case tailHeld =>
    intro u j y hu
    by_cases hut : u = t
    · subst hut
      right
      simpa using hs
    · left
      exact (Function.update_of_ne hut ..).trans hu
  case headHeld => exact fun _ _ => Or.inl

/-- The holder of a head ticket uses it. -/
theorem later_of_deq_held {t : ℕ} (hheld : a.deq t = .held i) {s : HeadTicket ι}
    (hs : s = .took ∨ s = .missed) :
  a.Later { a with deq := Function.update a.deq t s }
  := by
  have hne : ∀ {r : HeadTicket ι}, (∀ i, r ≠ .held i) → a.deq t ≠ r :=
    fun hr heq => hr i (heq.symm.trans hheld)
  constructor
  case head => exact le_rfl
  case tail => exact le_rfl
  case closed => exact id
  case full => exact fun _ _ => id
  case gone => exact fun _ => id
  case skipped => exact fun _ _ => id
  case took => exact fun u hu => update_ne hu (hne nofun)
  case missed => exact fun u hu => update_ne hu (hne nofun)
  case tailHeld => exact fun _ _ _ => Or.inl
  case headHeld =>
    intro u j hu
    by_cases hut : u = t
    · subst hut
      right
      simpa using hs
    · left
      exact (Function.update_of_ne hut ..).trans hu

/-- An access undoes nothing. -/
theorem Ok.later (h : a.Ok i τ) (ha : a.Inv) :
  a.Later (a.apply i τ)
  := by
  cases τ with
  | other | look | sawEmpty => apply Later.refl
  | drawTail t x =>
      obtain ⟨hclosed, rfl⟩ := h
      have hfree := ha.enq a.tail le_rfl
      have hne : ∀ {s : TailTicket ι V}, s ≠ .free → a.enq a.tail ≠ s :=
        fun hs heq => hs (heq.symm.trans hfree)
      constructor
      case head => exact le_rfl
      case tail => apply Nat.le_succ
      case closed => exact id
      case full => exact fun u y hu => update_ne hu (hne nofun)
      case gone => exact fun u hu => update_ne hu (hne nofun)
      case skipped =>
        rintro u (hlt | hc) hu
        · exact (Function.update_of_ne (ne_of_lt hlt) ..).trans hu
        · cases hclosed.symm.trans hc
      case took => exact fun _ => id
      case missed => exact fun _ => id
      case tailHeld => exact fun u j y hu => Or.inl (update_ne hu (hne nofun))
      case headHeld => exact fun _ _ => Or.inl
  | drawClosed => exact Later.of_counters le_rfl (Nat.le_succ _) id
  | install t x => exact later_of_held h.1 (Or.inr ⟨x, rfl⟩)
  | giveUp t =>
      obtain ⟨x, hheld⟩ := h
      exact later_of_held hheld (Or.inl rfl)
  | close => exact Later.of_counters le_rfl le_rfl fun _ => rfl
  | jump t =>
      obtain ⟨-, hlt, -⟩ := h
      exact Later.of_counters le_rfl (le_of_lt hlt) id
  | drawHead t =>
      obtain rfl : t = a.head := h
      have hfree := ha.deq a.head le_rfl
      have hne : ∀ {s : HeadTicket ι}, s ≠ .free → a.deq a.head ≠ s :=
        fun hs heq => hs (heq.symm.trans hfree)
      constructor
      case head => apply Nat.le_succ
      case tail => exact le_rfl
      case closed => exact id
      case full => exact fun _ _ => id
      case gone => exact fun _ => id
      case skipped => exact fun _ _ => id
      case took => exact fun u hu => update_ne hu (hne nofun)
      case missed => exact fun u hu => update_ne hu (hne nofun)
      case tailHeld => exact fun _ _ _ => Or.inl
      case headHeld => exact fun u j hu => Or.inl (update_ne hu (hne nofun))
  | take t x => exact later_of_deq_held h.1 (Or.inl rfl)
  | miss t => exact later_of_deq_held h.1 (Or.inr rfl)

/-- A head ticket is used by who holds it. -/
theorem Ok.headHeld_used {j : ι} {t : ℕ} (h : a.Ok i τ) (ha : a.Inv) (ht : a.deq t = .held j)
    (hne : (a.apply i τ).deq t ≠ .held j) :
  i = j ∧ (τ = .miss t ∨ ∃ x, τ = .take t x)
  := by
  have hself : ∀ {u : ℕ} {s : HeadTicket ι}, Function.update a.deq u s t ≠ .held j → t = u := by
    intro u s hu
    by_contra hut
    exact hu ((Function.update_of_ne hut ..).trans ht)
  cases τ with
  | miss u =>
      obtain rfl := hself hne
      cases h.1.symm.trans ht
      exact ⟨rfl, Or.inl rfl⟩
  | take u y =>
      obtain rfl := hself hne
      cases h.1.symm.trans ht
      exact ⟨rfl, Or.inr ⟨y, rfl⟩⟩
  | drawHead u =>
      obtain rfl := hself hne
      obtain rfl : t = a.head := h
      cases ht.symm.trans (ha.deq a.head le_rfl)
  | _ => exact absurd ht hne

/-- The tickets keep their invariant. -/
theorem Ok.inv (h : a.Ok i τ) (ha : a.Inv) :
  (a.apply i τ).Inv
  := by
  cases τ with
  | other | look | sawEmpty | close => exact ⟨ha.enq, ha.deq, ha.passed, ha.took, ha.missed⟩
  | drawTail t x =>
      obtain ⟨-, rfl⟩ := h
      have hfree := ha.enq a.tail le_rfl
      constructor
      case enq =>
        intro u hu
        have hlt : a.tail < u := hu
        exact (Function.update_of_ne (ne_of_gt hlt) ..).trans (ha.enq u (le_of_lt hlt))
      case deq => apply ha.deq
      case passed =>
        intro u hu hd
        obtain ⟨hlt, hu'⟩ := ha.passed u hu hd
        exact ⟨Nat.lt_succ_of_lt hlt, (Function.update_of_ne (ne_of_lt hlt) ..).trans hu'⟩
      case took =>
        intro u hu
        obtain ⟨y, hy⟩ := ha.took u hu
        refine ⟨y, update_ne hy ?_⟩
        rw [hfree]
        exact nofun
      case missed =>
        intro u hu y hy
        exact ha.missed u hu y (update_inv hy nofun)
  | drawClosed =>
      exact ⟨fun u hu => ha.enq u (Nat.le_of_succ_le hu), ha.deq,
        fun u hu hd => ⟨Nat.lt_succ_of_lt (ha.passed u hu hd).1, (ha.passed u hu hd).2⟩, ha.took,
        ha.missed⟩
  | install t x =>
      obtain ⟨hheld, htook, hmissed⟩ := h
      have hpassed : ∀ u < a.head, a.deq u = .free →
          Function.update a.enq t (.full x) u = .free := by
        intro u hu hd
        apply update_ne (ha.passed u hu hd).2
        rw [hheld]
        exact nofun
      constructor
      case enq =>
        intro u hu
        have hut : u ≠ t := by
          rintro rfl
          cases hheld.symm.trans (ha.enq u hu)
        exact (Function.update_of_ne hut ..).trans (ha.enq u hu)
      case deq => apply ha.deq
      case passed => exact fun u hu hd => ⟨(ha.passed u hu hd).1, hpassed u hu hd⟩
      case took =>
        intro u hu
        obtain ⟨y, hy⟩ := ha.took u hu
        refine ⟨y, update_ne hy ?_⟩
        rw [hheld]
        exact nofun
      case missed =>
        intro u hu y hy
        by_cases hut : u = t
        · subst hut
          exact hmissed hu
        · exact ha.missed u hu y ((Function.update_of_ne hut ..).symm.trans hy)
  | giveUp t =>
      obtain ⟨x, hheld⟩ := h
      have hpassed : ∀ u < a.head, a.deq u = .free → Function.update a.enq t .gone u = .free := by
        intro u hu hd
        apply update_ne (ha.passed u hu hd).2
        rw [hheld]
        exact nofun
      constructor
      case enq =>
        intro u hu
        have hut : u ≠ t := by
          rintro rfl
          cases hheld.symm.trans (ha.enq u hu)
        exact (Function.update_of_ne hut ..).trans (ha.enq u hu)
      case deq => apply ha.deq
      case passed => exact fun u hu hd => ⟨(ha.passed u hu hd).1, hpassed u hu hd⟩
      case took =>
        intro u hu
        obtain ⟨y, hy⟩ := ha.took u hu
        refine ⟨y, update_ne hy ?_⟩
        rw [hheld]
        exact nofun
      case missed =>
        intro u hu y hy
        exact ha.missed u hu y (update_inv hy nofun)
  | jump t =>
      obtain ⟨-, hlt, -⟩ := h
      exact ⟨fun u hu => ha.enq u (le_of_lt (lt_of_lt_of_le hlt hu)), ha.deq,
        fun u hu hd => ⟨(ha.passed u hu hd).1.trans hlt, (ha.passed u hu hd).2⟩, ha.took, ha.missed⟩
  | drawHead t =>
      obtain rfl : t = a.head := h
      have hfree := ha.deq a.head le_rfl
      constructor
      case enq => apply ha.enq
      case deq =>
        intro u hu
        have hlt : a.head < u := hu
        exact (Function.update_of_ne (ne_of_gt hlt) ..).trans (ha.deq u (le_of_lt hlt))
      case passed =>
        intro u hu hd
        have hd' := update_inv hd nofun
        rcases Nat.lt_succ_iff_lt_or_eq.mp hu with hlt | rfl
        · exact ha.passed u hlt hd'
        · cases (Function.update_self ..).symm.trans hd
      case took =>
        intro u hu
        exact ha.took u (update_inv hu nofun)
      case missed =>
        intro u hu
        exact ha.missed u (update_inv hu nofun)
  | take t x =>
      obtain ⟨hheld, hfull⟩ := h
      constructor
      case enq => apply ha.enq
      case deq =>
        intro u hu
        have hut : u ≠ t := by
          rintro rfl
          cases hheld.symm.trans (ha.deq u hu)
        exact (Function.update_of_ne hut ..).trans (ha.deq u hu)
      case passed => exact fun u hu hd => ha.passed u hu (update_inv hd nofun)
      case took =>
        intro u hu
        by_cases hut : u = t
        · subst hut
          exact ⟨x, hfull⟩
        · exact ha.took u ((Function.update_of_ne hut ..).symm.trans hu)
      case missed =>
        intro u hu
        exact ha.missed u (update_inv hu nofun)
  | miss t =>
      obtain ⟨hheld, hfull⟩ := h
      constructor
      case enq => apply ha.enq
      case deq =>
        intro u hu
        have hut : u ≠ t := by
          rintro rfl
          cases hheld.symm.trans (ha.deq u hu)
        exact (Function.update_of_ne hut ..).trans (ha.deq u hu)
      case passed => exact fun u hu hd => ha.passed u hu (update_inv hd nofun)
      case took =>
        intro u hu
        exact ha.took u (update_inv hu nofun)
      case missed =>
        intro u hu
        by_cases hut : u = t
        · subst hut
          apply hfull
        · exact ha.missed u ((Function.update_of_ne hut ..).symm.trans hu)

/-! ### What a thread holds -/

/-- The tickets thread `i` holds: `e` is its tail ticket, with the item it wants to install,
and `d` its head ticket. -/
structure Holding (a : Tickets ι V) (i : ι) (e : Option (ℕ × V)) (d : Option ℕ) : Prop where
  enq : ∀ t x, a.enq t = .held i x ↔ e = some (t, x)
  deq : ∀ t, a.deq t = .held i ↔ d = some t

theorem new_holding (k : ℕ) (i : ι) :
  (new k : Tickets ι V).Holding i none none
  := by
  constructor
  case enq =>
    intro t x
    constructor <;> exact nofun
  case deq =>
    intro t
    constructor <;> exact nofun

theorem update_iff {α : Type} {f : ℕ → α} {t u : ℕ} {y z : α} (hz : z ≠ y) (ht : f t ≠ y) :
  Function.update f t z u = y ↔ f u = y
  := ⟨fun hu => update_inv hu hz, fun hu => update_ne hu ht⟩

/-- An access of one thread leaves the tickets of the others with them. -/
theorem Ok.frame (h : a.Ok i τ) (ha : a.Inv) {j : ι} (hj : j ≠ i) :
  (∀ t x, (a.apply i τ).enq t = .held j x ↔ a.enq t = .held j x) ∧
    ∀ t, (a.apply i τ).deq t = .held j ↔ a.deq t = .held j
  := by
  have hij : ∀ {x y : V}, TailTicket.held i x ≠ .held j y := by
    intro x y heq
    cases heq
    exact hj rfl
  have hij' : HeadTicket.held i ≠ .held j := by
    intro heq
    cases heq
    exact hj rfl
  cases τ with
  | other | look | sawEmpty | close | drawClosed | jump =>
      exact ⟨fun _ _ => Iff.rfl, fun _ => Iff.rfl⟩
  | drawTail t x =>
      obtain ⟨-, rfl⟩ := h
      refine ⟨fun u y => update_iff hij ?_, fun _ => Iff.rfl⟩
      rw [ha.enq a.tail le_rfl]
      exact nofun
  | install t x =>
      refine ⟨fun u y => update_iff nofun ?_, fun _ => Iff.rfl⟩
      rw [h.1]
      exact hij
  | giveUp t =>
      obtain ⟨x, hheld⟩ := h
      refine ⟨fun u y => update_iff nofun ?_, fun _ => Iff.rfl⟩
      rw [hheld]
      exact hij
  | drawHead t =>
      obtain rfl : t = a.head := h
      refine ⟨fun _ _ => Iff.rfl, fun u => update_iff hij' ?_⟩
      rw [ha.deq a.head le_rfl]
      exact nofun
  | take t x =>
      refine ⟨fun _ _ => Iff.rfl, fun u => update_iff nofun ?_⟩
      rw [h.1]
      exact hij'
  | miss t =>
      refine ⟨fun _ _ => Iff.rfl, fun u => update_iff nofun ?_⟩
      rw [h.1]
      exact hij'

variable {e : Option (ℕ × V)} {d : Option ℕ}

theorem Holding.frame {j : ι} (hold : a.Holding j e d) (h : a.Ok i τ) (ha : a.Inv)
    (hj : j ≠ i) :
  (a.apply i τ).Holding j e d
  := by
  obtain ⟨henq, hdeq⟩ := h.frame ha hj
  exact ⟨fun t x => (henq t x).trans (hold.enq t x), fun t => (hdeq t).trans (hold.deq t)⟩

/-- A thread draws no ticket while it holds one. -/
def Draws (e : Option (ℕ × V)) (d : Option ℕ) : RingTag V → Prop
  | .drawTail _ _ | .drawHead _ => e = none ∧ d = none
  | _ => True

/-- An access changes what its thread holds. -/
theorem Holding.step (hold : a.Holding i e d) (h : a.Ok i τ) (hdraw : Draws e d τ) :
  (a.apply i τ).Holding i (τ.enqAfter e) (τ.deqAfter d)
  := by
  have hone : ∀ {t : ℕ} {x : V}, a.enq t = .held i x → e = some (t, x) :=
    fun ht => (hold.enq _ _).mp ht
  have hone' : ∀ {t : ℕ}, a.deq t = .held i → d = some t := fun ht => (hold.deq _).mp ht
  have huse : ∀ {t : ℕ} {x : V} {z : TailTicket ι V}, a.enq t = .held i x →
      (∀ y, z ≠ .held i y) → ∀ u y, Function.update a.enq t z u = .held i y ↔
        (none : Option (ℕ × V)) = some (u, y) := by
    intro t x z ht hz u y
    refine ⟨fun hu => ?_, nofun⟩
    have hut : u ≠ t := by
      rintro rfl
      rw [Function.update_self] at hu
      exact hz y hu
    have hu' := hone ((Function.update_of_ne hut ..).symm.trans hu)
    rw [hone ht] at hu'
    cases hu'
    exact absurd rfl hut
  have huse' : ∀ {t : ℕ} {z : HeadTicket ι}, a.deq t = .held i → z ≠ .held i →
      ∀ u, Function.update a.deq t z u = .held i ↔ (none : Option ℕ) = some u := by
    intro t z ht hz u
    refine ⟨fun hu => ?_, nofun⟩
    have hut : u ≠ t := by
      rintro rfl
      rw [Function.update_self] at hu
      exact hz hu
    have hu' := hone' ((Function.update_of_ne hut ..).symm.trans hu)
    rw [hone' ht] at hu'
    cases hu'
    exact absurd rfl hut
  cases τ with
  | other | look | sawEmpty | close | drawClosed | jump => exact ⟨hold.enq, hold.deq⟩
  | drawTail t x =>
      refine ⟨fun u y => ?_, hold.deq⟩
      constructor
      · intro hu
        by_cases hut : u = t
        · subst hut
          cases (Function.update_self ..).symm.trans hu
          rfl
        · have hu' := hone ((Function.update_of_ne hut ..).symm.trans hu)
          rw [hdraw.1] at hu'
          cases hu'
      · intro hu
        cases hu
        apply Function.update_self
  | install t x => exact ⟨huse h.1 nofun, hold.deq⟩
  | giveUp t =>
      obtain ⟨x, hheld⟩ := h
      exact ⟨huse hheld nofun, hold.deq⟩
  | drawHead t =>
      refine ⟨hold.enq, fun u => ?_⟩
      constructor
      · intro hu
        by_cases hut : u = t
        · subst hut
          rfl
        · have hu' := hone' ((Function.update_of_ne hut ..).symm.trans hu)
          rw [hdraw.2] at hu'
          cases hu'
      · intro hu
        cases hu
        apply Function.update_self
  | take t x => exact ⟨hold.enq, huse' h.1 nofun⟩
  | miss t => exact ⟨hold.enq, huse' h.1 nofun⟩

/-- An access settles only its own ticket. -/
theorem Ok.settled (h : a.Ok i τ) (ha : a.Inv) {u : ℕ} (hu : τ.ticket ≠ some u) :
  (∀ x, (a.apply i τ).enq u = .full x ↔ a.enq u = .full x) ∧
    ((a.apply i τ).deq u = .took ↔ a.deq u = .took) ∧
    ((a.apply i τ).deq u = .missed ↔ a.deq u = .missed)
  := by
  cases τ with
  | other | look | sawEmpty | close | drawClosed | jump =>
      exact ⟨fun _ => Iff.rfl, Iff.rfl, Iff.rfl⟩
  | drawTail t x =>
      obtain ⟨-, rfl⟩ := h
      refine ⟨fun y => update_iff nofun ?_, Iff.rfl, Iff.rfl⟩
      rw [ha.enq a.tail le_rfl]
      exact nofun
  | giveUp t =>
      obtain ⟨x, hheld⟩ := h
      refine ⟨fun y => update_iff nofun ?_, Iff.rfl, Iff.rfl⟩
      rw [hheld]
      exact nofun
  | drawHead t =>
      obtain rfl : t = a.head := h
      have hfree := ha.deq a.head le_rfl
      refine ⟨fun _ => Iff.rfl, update_iff nofun ?_, update_iff nofun ?_⟩
      · rw [hfree]
        exact nofun
      · rw [hfree]
        exact nofun
  | install t x =>
      have hut : u ≠ t := fun heq => hu (congrArg some heq.symm)
      simp only [apply, Function.update_of_ne hut, and_self, implies_true]
  | take t x | miss t =>
      have hut : u ≠ t := fun heq => hu (congrArg some heq.symm)
      simp only [apply, Function.update_of_ne hut, and_self, implies_true]

/-- All items that threads want to install, or have installed, satisfy `P`. -/
def All (a : Tickets ι V) (P : V → Prop) : Prop :=
  ∀ t x, (∃ i, a.enq t = .held i x) ∨ a.enq t = .full x → P x

theorem new_all (k : ℕ) (P : V → Prop) :
  (new k : Tickets ι V).All P
  := by
  rintro t x (⟨i, h⟩ | h)
  · cases h
  · cases h

theorem Ok.all (h : a.Ok i τ) {P : V → Prop} (hall : a.All P)
    (hdraw : ∀ t x, τ = .drawTail t x → P x) :
  (a.apply i τ).All P
  := by
  have hupdate : ∀ {t : ℕ} {z : TailTicket ι V},
      (∀ x, (∃ i, z = .held i x) ∨ z = .full x → P x) → ∀ u y,
      (∃ i, Function.update a.enq t z u = .held i y) ∨ Function.update a.enq t z u = .full y →
      P y := by
    intro t z hz u y hu
    by_cases hut : u = t
    · subst hut
      rw [Function.update_self] at hu
      exact hz y hu
    · rw [Function.update_of_ne hut] at hu
      exact hall u y hu
  cases τ with
  | other | look | sawEmpty | close | drawClosed | jump | drawHead | take | miss => exact hall
  | drawTail t x =>
      apply hupdate
      rintro y (⟨j, hy⟩ | hy)
      · cases hy
        exact hdraw t x rfl
      · cases hy
  | install t x =>
      apply hupdate
      rintro y (⟨j, hy⟩ | hy)
      · cases hy
      · cases hy
        exact hall t x (Or.inl ⟨i, h.1⟩)
  | giveUp t =>
      apply hupdate
      rintro y (⟨j, hy⟩ | hy)
      · cases hy
      · cases hy

/-! ### Courses of events -/

/-- A sequence of accesses, where access `k` is by thread `who k` and does `ev k` to the
tickets, if anything. -/
structure Course (n : ℕ) (T : ℕ → Tickets ι V) (who : ℕ → ι) (ev : ℕ → Option (RingTag V)) :
    Prop where
  start : ∃ m, T 0 = new m
  step : ∀ k < n, ∀ τ, ev k = some τ → (T k).Ok (who k) τ ∧ T (k + 1) = (T k).apply (who k) τ
  rest : ∀ k < n, ev k = none → T (k + 1) = T k

namespace Course

variable {n : ℕ} {T : ℕ → Tickets ι V} {who : ℕ → ι} {ev : ℕ → Option (RingTag V)}
  (h : Course n T who ev) {k m t u : ℕ} {x y : V}

include h

theorem inv (hk : k ≤ n) :
  (T k).Inv
  := by
  induction k with
  | zero =>
      obtain ⟨m, hm⟩ := h.start
      rw [hm]
      apply new_inv
  | succ k ih =>
      have hinv := ih (Nat.le_of_succ_le hk)
      cases he : ev k with
      | none =>
          rw [h.rest k hk he]
          exact hinv
      | some τ =>
          obtain ⟨hok, hT⟩ := h.step k hk τ he
          rw [hT]
          exact hok.inv hinv

theorem later_succ (hk : k < n) :
  (T k).Later (T (k + 1))
  := by
  cases he : ev k with
  | none =>
      rw [h.rest k hk he]
      apply Later.refl
  | some τ =>
      obtain ⟨hok, hT⟩ := h.step k hk τ he
      rw [hT]
      exact hok.later (h.inv (le_of_lt hk))

theorem later (hkm : k ≤ m) (hm : m ≤ n) :
  (T k).Later (T m)
  := by
  induction m, hkm using Nat.le_induction with
  | base => apply Later.refl
  | succ m hkm ih => exact (ih (Nat.le_of_succ_le hm)).trans (h.later_succ hm)

/-- Tail tickets are drawn in order. -/
theorem drawTail_lt (hkm : k < m) (hm : m < n) (hk : ev k = some (.drawTail t x))
    (hu : ev m = some (.drawTail u y)) :
  t < u
  := by
  obtain ⟨⟨-, ht⟩, hT⟩ := h.step k (hkm.trans hm) _ hk
  obtain ⟨⟨-, rfl⟩, -⟩ := h.step m hm _ hu
  have htail := (h.later hkm (le_of_lt hm)).tail
  rw [hT] at htail
  rw [ht]
  exact htail

/-- A tail ticket is drawn at most once. -/
theorem drawTail_unique (hk : k < n) (hm : m < n) (ht : ev k = some (.drawTail t x))
    (ht' : ev m = some (.drawTail t y)) :
  k = m
  := by
  rcases lt_trichotomy k m with hlt | heq | hlt
  · exact absurd (h.drawTail_lt hlt hm ht ht') (lt_irrefl t)
  · exact heq
  · exact absurd (h.drawTail_lt hlt hk ht' ht) (lt_irrefl t)

/-- Head tickets are drawn in order. -/
theorem drawHead_lt (hkm : k < m) (hm : m < n) (hk : ev k = some (.drawHead t))
    (hu : ev m = some (.drawHead u)) :
  t < u
  := by
  obtain ⟨ht, hT⟩ := h.step k (hkm.trans hm) _ hk
  obtain ⟨hu, -⟩ := h.step m hm _ hu
  have hhead := (h.later hkm (le_of_lt hm)).head
  rw [hT] at hhead
  rw [show t = (T k).head from ht, show u = (T m).head from hu]
  exact hhead

/-- A head ticket is drawn at most once. -/
theorem drawHead_unique (hk : k < n) (hm : m < n) (ht : ev k = some (.drawHead t))
    (ht' : ev m = some (.drawHead t)) :
  k = m
  := by
  rcases lt_trichotomy k m with hlt | heq | hlt
  · exact absurd (h.drawHead_lt hlt hm ht ht') (lt_irrefl t)
  · exact heq
  · exact absurd (h.drawHead_lt hlt hk ht' ht) (lt_irrefl t)

/-- A ticket that the head has passed was drawn, unless it had been passed at the start. -/
theorem drawHead_cause (hk : k ≤ n) (ht : t < (T k).head) :
  t < (T 0).head ∨ ∃ m < k, ev m = some (.drawHead t)
  := by
  induction k with
  | zero => exact Or.inl ht
  | succ k ih =>
      by_cases hold : t < (T k).head
      · rcases ih (Nat.le_of_succ_le hk) hold with hstart | ⟨m, hm, hdraw⟩
        · exact Or.inl hstart
        · exact Or.inr ⟨m, Nat.lt_succ_of_lt hm, hdraw⟩
      · cases he : ev k with
        | none =>
            rw [h.rest k hk he] at ht
            exact absurd ht hold
        | some τ =>
            obtain ⟨hok, hT⟩ := h.step k hk τ he
            rw [hT] at ht
            cases τ with
            | drawHead u =>
                obtain rfl : u = (T k).head := hok
                have hle : t ≤ (T k).head := Nat.le_of_lt_succ ht
                obtain rfl := Nat.le_antisymm hle (Nat.not_lt.mp hold)
                exact Or.inr ⟨k, Nat.lt_succ_self k, he⟩
            | _ => exact absurd ht hold

/-- A property of one tail ticket that changes only by one kind of event. -/
theorem enq_cause {s : TailTicket ι V} (hk : k ≤ n) (ht : (T k).enq t = s) (hs : s ≠ .free) :
  ∃ m < k, ∃ τ, ev m = some τ ∧ (T m).enq t ≠ s ∧ ((T m).apply (who m) τ).enq t = s
  := by
  induction k with
  | zero =>
      obtain ⟨m, hm⟩ := h.start
      rw [hm] at ht
      exact absurd ht.symm hs
  | succ k ih =>
      by_cases hold : (T k).enq t = s
      · obtain ⟨m, hm, hcause⟩ := ih (Nat.le_of_succ_le hk) hold
        exact ⟨m, Nat.lt_succ_of_lt hm, hcause⟩
      · cases he : ev k with
        | none =>
            rw [h.rest k hk he] at ht
            exact absurd ht hold
        | some τ =>
            obtain ⟨-, hT⟩ := h.step k hk τ he
            rw [hT] at ht
            exact ⟨k, Nat.lt_succ_self k, τ, he, hold, ht⟩

theorem deq_cause {s : HeadTicket ι} (hk : k ≤ n) (ht : (T k).deq t = s) (hs : s ≠ .free) :
  ∃ m < k, ∃ τ, ev m = some τ ∧ (T m).deq t ≠ s ∧ ((T m).apply (who m) τ).deq t = s
  := by
  induction k with
  | zero =>
      obtain ⟨m, hm⟩ := h.start
      rw [hm] at ht
      exact absurd ht.symm hs
  | succ k ih =>
      by_cases hold : (T k).deq t = s
      · obtain ⟨m, hm, hcause⟩ := ih (Nat.le_of_succ_le hk) hold
        exact ⟨m, Nat.lt_succ_of_lt hm, hcause⟩
      · cases he : ev k with
        | none =>
            rw [h.rest k hk he] at ht
            exact absurd ht hold
        | some τ =>
            obtain ⟨-, hT⟩ := h.step k hk τ he
            rw [hT] at ht
            exact ⟨k, Nat.lt_succ_self k, τ, he, hold, ht⟩

omit h in
/-- A new value of an updated function is the one it was updated with. -/
theorem eq_of_update {α : Type} {f : ℕ → α} {y z : α} (hold : f t ≠ y)
    (hnew : Function.update f u z t = y) :
  t = u ∧ z = y
  := by
  by_cases htu : t = u
  · subst htu
    exact ⟨rfl, (Function.update_self ..).symm.trans hnew⟩
  · exact absurd ((Function.update_of_ne htu ..).symm.trans hnew) hold

/-- Who holds a tail ticket has drawn it. -/
theorem held_cause {i : ι} (hk : k ≤ n) (ht : (T k).enq t = .held i x) :
  ∃ m < k, who m = i ∧ ev m = some (.drawTail t x)
  := by
  obtain ⟨m, hm, τ, he, hold, hnew⟩ := h.enq_cause hk ht nofun
  cases τ with
  | drawTail u y =>
      obtain ⟨rfl, heq⟩ := eq_of_update hold hnew
      cases heq
      exact ⟨m, hm, rfl, he⟩
  | install u y | giveUp u =>
      obtain ⟨-, heq⟩ := eq_of_update hold hnew
      cases heq
  | _ => exact absurd hnew hold

/-- A full ticket has been used to install its item. -/
theorem full_cause (hk : k ≤ n) (ht : (T k).enq t = .full x) :
  ∃ m < k, ev m = some (.install t x)
  := by
  obtain ⟨m, hm, τ, he, hold, hnew⟩ := h.enq_cause hk ht nofun
  cases τ with
  | install u y =>
      obtain ⟨rfl, heq⟩ := eq_of_update hold hnew
      cases heq
      exact ⟨m, hm, he⟩
  | drawTail u y | giveUp u =>
      obtain ⟨-, heq⟩ := eq_of_update hold hnew
      cases heq
  | _ => exact absurd hnew hold

/-- Who holds a head ticket has drawn it. -/
theorem deq_held_cause {i : ι} (hk : k ≤ n) (ht : (T k).deq t = .held i) :
  ∃ m < k, who m = i ∧ ev m = some (.drawHead t)
  := by
  obtain ⟨m, hm, τ, he, hold, hnew⟩ := h.deq_cause hk ht nofun
  cases τ with
  | drawHead u =>
      obtain ⟨rfl, heq⟩ := eq_of_update hold hnew
      cases heq
      exact ⟨m, hm, rfl, he⟩
  | take u y | miss u =>
      obtain ⟨-, heq⟩ := eq_of_update hold hnew
      cases heq
  | _ => exact absurd hnew hold

/-- A ticket that took something has been used to take an item. -/
theorem took_cause (hk : k ≤ n) (ht : (T k).deq t = .took) :
  ∃ m < k, ∃ x, ev m = some (.take t x)
  := by
  obtain ⟨m, hm, τ, he, hold, hnew⟩ := h.deq_cause hk ht nofun
  cases τ with
  | take u y =>
      obtain ⟨rfl, -⟩ := eq_of_update hold hnew
      exact ⟨m, hm, y, he⟩
  | drawHead u | miss u =>
      obtain ⟨-, heq⟩ := eq_of_update hold hnew
      cases heq
  | _ => exact absurd hnew hold

/-- A thread that holds a tail ticket at two moments holds it in between. -/
theorem tailHeld_between {i : ι} {l : ℕ} (hkm : k ≤ m) (hml : m ≤ l) (hl : l ≤ n)
    (hk : (T k).enq t = .held i x) (ht : (T l).enq t = .held i x) :
  (T m).enq t = .held i x
  := by
  have hlater := h.later hml hl
  rcases (h.later hkm (hml.trans hl)).tailHeld t i x hk with hheld | hgone | ⟨y, hfull⟩
  · exact hheld
  · cases (hlater.gone t hgone).symm.trans ht
  · cases (hlater.full t y hfull).symm.trans ht

theorem headHeld_between {i : ι} {l : ℕ} (hkm : k ≤ m) (hml : m ≤ l) (hl : l ≤ n)
    (hk : (T k).deq t = .held i) (ht : (T l).deq t = .held i) :
  (T m).deq t = .held i
  := by
  have hlater := h.later hml hl
  rcases (h.later hkm (hml.trans hl)).headHeld t i hk with hheld | htook | hmissed
  · exact hheld
  · cases (hlater.took t htook).symm.trans ht
  · cases (hlater.missed t hmissed).symm.trans ht

/-- Who holds a tail ticket has drawn it, and has held it since. -/
theorem held_since {i : ι} (hk : k ≤ n) (ht : (T k).enq t = .held i x) :
  ∃ m < k, who m = i ∧ ev m = some (.drawTail t x) ∧
    ∀ l, m < l → l ≤ k → (T l).enq t = .held i x
  := by
  obtain ⟨m, hm, hi, hdraw⟩ := h.held_cause hk ht
  obtain ⟨-, hT⟩ := h.step m (lt_of_lt_of_le hm hk) _ hdraw
  have hfirst : (T (m + 1)).enq t = .held i x := by
    rw [hT, hi]
    apply Function.update_self
  exact ⟨m, hm, hi, hdraw, fun l hml hlk => h.tailHeld_between hml hlk hk hfirst ht⟩

/-- Who holds a head ticket has drawn it, and has held it since. -/
theorem deq_held_since {i : ι} (hk : k ≤ n) (ht : (T k).deq t = .held i) :
  ∃ m < k, who m = i ∧ ev m = some (.drawHead t) ∧
    ∀ l, m < l → l ≤ k → (T l).deq t = .held i
  := by
  obtain ⟨m, hm, hi, hdraw⟩ := h.deq_held_cause hk ht
  obtain ⟨-, hT⟩ := h.step m (lt_of_lt_of_le hm hk) _ hdraw
  have hfirst : (T (m + 1)).deq t = .held i := by
    rw [hT, hi]
    apply Function.update_self
  exact ⟨m, hm, hi, hdraw, fun l hml hlk => h.headHeld_between hml hlk hk hfirst ht⟩

/-- Who no longer holds a head ticket has used it. -/
theorem headHeld_used {i : ι} (hkm : k ≤ m) (hm : m ≤ n) (hk : (T k).deq t = .held i)
    (ht : (T m).deq t ≠ .held i) :
  ∃ l, k ≤ l ∧ l < m ∧ who l = i ∧ (ev l = some (.miss t) ∨ ∃ x, ev l = some (.take t x))
  := by
  induction m, hkm using Nat.le_induction with
  | base => exact absurd hk ht
  | succ m hkm ih =>
      by_cases hold : (T m).deq t = .held i
      · refine ⟨m, hkm, Nat.lt_succ_self m, ?_⟩
        cases he : ev m with
        | none =>
            rw [h.rest m hm he] at ht
            exact absurd hold ht
        | some τ =>
            obtain ⟨hok, hT⟩ := h.step m hm τ he
            rw [hT] at ht
            obtain ⟨hi, hτ⟩ := hok.headHeld_used (h.inv (Nat.le_of_succ_le hm)) hold ht
            exact ⟨hi, hτ.imp (congrArg some) fun ⟨x, hx⟩ => ⟨x, congrArg some hx⟩⟩
      · obtain ⟨l, hkl, hlm, hl⟩ := ih (Nat.le_of_succ_le hm) hold
        exact ⟨l, hkl, Nat.lt_succ_of_lt hlm, hl⟩

/-- What is installed with a ticket has been drawn for by the same thread. -/
theorem install_cause (hk : k < n) (ht : ev k = some (.install t x)) :
  ∃ m < k, who m = who k ∧ ev m = some (.drawTail t x)
  := h.held_cause (le_of_lt hk) (h.step k hk _ ht).1.1

/-- What is taken has been installed with the same ticket, and the thread has drawn it. -/
theorem take_cause (hk : k < n) (ht : ev k = some (.take t x)) :
  (∃ m < k, ev m = some (.install t x)) ∧ ∃ m < k, who m = who k ∧ ev m = some (.drawHead t)
  := by
  obtain ⟨⟨hheld, hfull⟩, -⟩ := h.step k hk _ ht
  exact ⟨h.full_cause (le_of_lt hk) hfull, h.deq_held_cause (le_of_lt hk) hheld⟩

/-- After an installation the ticket is full. -/
theorem full_of_install (hkm : k < m) (hm : m ≤ n) (ht : ev k = some (.install t x)) :
  (T m).enq t = .full x
  := by
  obtain ⟨-, hT⟩ := h.step k (lt_of_lt_of_le hkm hm) _ ht
  apply (h.later hkm hm).full
  rw [hT]
  apply Function.update_self

/-- A ticket is used to install at most once. -/
theorem install_unique (hk : k < n) (hm : m < n) (ht : ev k = some (.install t x))
    (ht' : ev m = some (.install t y)) :
  k = m
  := by
  rcases lt_trichotomy k m with hlt | heq | hlt
  · cases (h.full_of_install hlt (le_of_lt hm) ht).symm.trans (h.step m hm _ ht').1.1
  · exact heq
  · cases (h.full_of_install hlt (le_of_lt hk) ht').symm.trans (h.step k hk _ ht).1.1

theorem took_of_take (hkm : k < m) (hm : m ≤ n) (ht : ev k = some (.take t x)) :
  (T m).deq t = .took
  := by
  obtain ⟨-, hT⟩ := h.step k (lt_of_lt_of_le hkm hm) _ ht
  apply (h.later hkm hm).took
  rw [hT]
  apply Function.update_self

/-- A ticket is used to take at most once. -/
theorem take_unique (hk : k < n) (hm : m < n) (ht : ev k = some (.take t x))
    (ht' : ev m = some (.take t y)) :
  k = m
  := by
  rcases lt_trichotomy k m with hlt | heq | hlt
  · cases (h.took_of_take hlt (le_of_lt hm) ht).symm.trans (h.step m hm _ ht').1.1
  · exact heq
  · cases (h.took_of_take hlt (le_of_lt hk) ht').symm.trans (h.step k hk _ ht).1.1

/-- When the holder of a head ticket has left without an item, none is installed later. -/
theorem not_install_of_miss (hkm : k ≤ m) (hm : m < n) (ht : ev k = some (.miss t)) :
  ev m ≠ some (.install t x)
  := by
  intro ht'
  obtain ⟨⟨hheld, hdeq, hmissed⟩, -⟩ := h.step m hm _ ht'
  obtain ⟨-, hT⟩ := h.step k (lt_of_le_of_lt hkm hm) _ ht
  rcases Nat.lt_or_eq_of_le hkm with hlt | rfl
  · apply hmissed
    apply (h.later hlt (le_of_lt hm)).missed
    rw [hT]
    apply Function.update_self
  · cases ht.symm.trans ht'

end Course

end Tickets
