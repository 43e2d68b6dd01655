import ConcurrentQueues.PLJQueue.Model
import Mathlib.Data.List.Nodup
import Mathlib.Data.List.Infix

/-!
# The history of a PLJQueue

The ghost of `PLJQueue` is the list of all objects ever enqueued, how many of them are
dequeued, which one the tail has reached, and the stage of the queue. A queue with one
object is emptied in three stages, marking the object, taking the tail to null and
taking the head to null, and filled again in two.
-/

namespace PLJQueue

variable {ι V : Type}

/-- The stages of the queue. -/
inductive Stage where
  | normal
  | marked
  | draining
  | empty
  | filling
  deriving DecidableEq

/-- The tail is not null. -/
def Stage.HasTail : Stage → Prop
  | .normal | .marked | .filling => True
  | .draining | .empty => False

/-- The objects ever enqueued, the number of them that are dequeued, the one the tail has
reached, the stage, the owners of objects that are in the hands of one thread, and
the threads that have last loaded the tail when the queue was empty. -/
structure History (ι : Type) where
  nodes : List ℕ
  removed : ℕ
  tail : ℕ
  stage : Stage
  owner : ℕ → Option ι
  saw : ι → Bool

/-- The counter of a pointer as a number. -/
def Pointer.age (p : Pointer) : ℕ := p.count.counter.toNat

/-- The field `nextobject` of the last object. -/
def Pointer.unlinked : Pointer := ⟨none, ⟨0, ENQ⟩⟩

/-- The field `nextobject` of the only object when it is going to be dequeued. -/
def Pointer.marked : Pointer := ⟨none, ⟨1, DEQ⟩⟩

/-- The field `nextobject` of an object that is followed by `p`, if any. -/
def Pointer.follow : Option ℕ → Pointer
  | none => .unlinked
  | some p => ⟨some p, ⟨1, ENQ⟩⟩

namespace History

/-- The number of objects the head has reached, or can reach in the normal stage. -/
def opened (a : History ι) : ℕ :=
  match a.stage with
  | .filling => a.nodes.length - 1
  | _ => a.nodes.length

/-- Thread `i` has loaded the tail. -/
def see [DecidableEq ι] (a : History ι) (i : ι) : History ι :=
  { a with saw := Function.update a.saw i (decide (a.nodes.length ≤ a.removed)) }

/-- The owner of the object `p` becomes `i`. -/
def give (a : History ι) (p : ℕ) (i : Option ι) : History ι :=
  { a with owner := Function.update a.owner p i }

/-- The object `p` is linked behind the last one. -/
def link (a : History ι) (p : ℕ) : History ι := { a.give p none with nodes := a.nodes ++ [p] }

/-- Thread `i` dequeues the object `p`. -/
def remove (a : History ι) (i : ι) (p : Option ℕ) : History ι :=
  match p with
  | none => a
  | some p => { a.give p (some i) with removed := a.removed + 1 }

/-- The queue comes to another stage. -/
def enter (a : History ι) (g : Stage) : History ι := { a with stage := g }

/-- The tail reaches the next object. -/
def shiftTail (a : History ι) : History ι := { a with tail := a.tail + 1 }

/-- The tail reaches the object `p`, the only one of the queue. -/
def fill (a : History ι) (p : ℕ) : History ι :=
  { a.link p with tail := a.nodes.length, stage := .filling }

/-- What each step of thread `i` does to the history. -/
def next [DecidableEq ι] (i : ι) (a : History ι) : Tag → History ι
  | .silent | .write _ => a
  | .new p => a.give p (some i)
  | .loadTail => a.see i
  | .link p => a.link p
  | .mark p => (a.remove i p).enter .marked
  | .shiftTail => a.shiftTail
  | .shiftHead p => a.remove i p
  | .drainTail => a.enter .draining
  | .drainHead => a.enter .empty
  | .fillTail p => a.fill p
  | .fillHead => a.enter .normal

end History

/-- What the head, the tail and the positions are at each stage. -/
def Stage.Fits (s : Shared V) (a : History ι) : Stage → Prop
  | .normal => a.removed ≤ a.tail ∧ a.tail < a.nodes.length ∧ a.nodes.length ≤ a.tail + 2 ∧
      s.head.ptr = a.nodes[a.removed]? ∧ s.tail.ptr = a.nodes[a.tail]?
  | .marked => a.removed = a.nodes.length ∧ a.tail + 1 = a.nodes.length ∧
      s.head.ptr = a.nodes[a.tail]? ∧ s.tail.ptr = a.nodes[a.tail]? ∧
      ∀ p, a.nodes[a.tail]? = some p → (s.object p).nextobject = .marked
  | .draining => a.removed = a.nodes.length ∧ a.tail + 1 = a.nodes.length ∧
      s.head.ptr = a.nodes[a.tail]? ∧ s.tail.ptr = none
  | .empty => a.removed = a.nodes.length ∧ a.tail ≤ a.nodes.length ∧ s.head.ptr = none ∧
      s.tail.ptr = none
  | .filling => a.removed = a.tail ∧ a.tail + 1 = a.nodes.length ∧ s.head.ptr = none ∧
      s.tail.ptr = a.nodes[a.tail]?

/-- The history `a` describes the shared memory `s`. -/
structure Fits (s : Shared V) (a : History ι) : Prop where
  nodup : a.nodes.Nodup
  below : ∀ p ∈ a.nodes, p < s.fresh
  owned : ∀ p i, a.owner p = some i →
    p < s.fresh ∧ ∀ k, a.nodes[k]? = some p → k < a.removed
  next : ∀ k p, a.removed ≤ k → a.nodes[k]? = some p →
    (s.object p).nextobject = .follow a.nodes[k + 1]?
  gone : ∀ k p, k < a.removed → a.nodes[k]? = some p → (s.object p).nextobject ≠ .unlinked
  stage : a.stage.Fits s a

/-- The items in the queue. -/
def items (s : Shared V) (a : History ι) : List V :=
  (a.nodes.drop a.removed).map fun p => (s.object p).data

variable {s : Shared V} {a : History ι} {i j : ι} {p q k m : ℕ}

/-! ### The items -/

/-- The items after `p` has joined the list. -/
theorem items_append {s' : Shared V} (hdata : ∀ q ∈ a.nodes, (s'.object q).data = (s.object q).data)
    (hp : (s'.object p).data = (s.object p).data) {b : History ι}
    (hnodes : b.nodes = a.nodes ++ [p]) (hr : b.removed = a.removed)
    (hle : a.removed ≤ a.nodes.length) :
  items s' b = items s a ++ [(s.object p).data]
  := by
  rw [items, items, hnodes, hr, List.drop_append_of_le_length hle, List.map_append]
  congr 1
  · apply List.map_congr_left
    intro q hq
    apply hdata q (List.mem_of_mem_drop hq)
  · simp [hp]

/-- The items before the first object is dequeued. -/
theorem items_remove {s' : Shared V} (hdata : ∀ q ∈ a.nodes, (s'.object q).data = (s.object q).data)
    {b : History ι} (hnodes : b.nodes = a.nodes) (hr : b.removed = a.removed + 1)
    (hp : a.nodes[a.removed]? = some p) :
  items s a = (s.object p).data :: items s' b
  := by
  obtain ⟨hlt, hget⟩ := List.getElem?_eq_some_iff.mp hp
  rw [items, items, hnodes, hr, List.drop_eq_getElem_cons hlt, hget, List.map_cons]
  congr 1
  apply List.map_congr_left
  intro q hq
  symm
  apply hdata q (List.mem_of_mem_drop hq)

/-- Objects keep the items while they keep their data. -/
theorem items_keep {s' : Shared V} (hdata : ∀ q ∈ a.nodes, (s'.object q).data = (s.object q).data)
    {b : History ι} (hnodes : b.nodes = a.nodes) (hr : b.removed = a.removed) :
  items s' b = items s a
  := by
  rw [items, items, hnodes, hr]
  apply List.map_congr_left
  intro q hq
  apply hdata q (List.mem_of_mem_drop hq)

theorem items_eq_nil :
  items s a = [] ↔ a.nodes.length ≤ a.removed
  := by
  rw [items, List.map_eq_nil_iff, List.drop_eq_nil_iff]

/-! ### Positions -/

/-- An object has one position. -/
theorem Fits.position (h : Fits s a) (hk : a.nodes[k]? = some p) (hm : a.nodes[m]? = some p) :
  k = m
  := by
  obtain ⟨hlt, -⟩ := List.getElem?_eq_some_iff.mp hk
  apply (List.getElem?_inj hlt h.nodup).mp
  rw [hk, hm]

/-- An object of the queue whose field `nextobject` is as for a last one is the last one. -/
theorem Fits.unlinked (h : Fits s a) (hk : a.nodes[k]? = some p)
    (hp : (s.object p).nextobject = .unlinked) :
  a.removed ≤ k ∧ k + 1 = a.nodes.length
  := by
  obtain ⟨hlt, -⟩ := List.getElem?_eq_some_iff.mp hk
  have hle : a.removed ≤ k := by
    apply Nat.le_of_not_lt
    intro hlt
    exact h.gone k p hlt hk hp
  use hle
  have hnext := h.next k p hle hk
  rw [hp] at hnext
  cases hq : a.nodes[k + 1]? with
  | none => exact le_antisymm hlt (List.getElem?_eq_none_iff.mp hq)
  | some q =>
      rw [hq] at hnext
      cases hnext

/-- If moreover the head can reach the object, the queue is in the normal stage. -/
theorem Fits.normal (h : Fits s a) (hk : a.nodes[k]? = some p) (hle : a.removed ≤ k)
    (hopened : k < a.opened) :
  a.stage = .normal
  := by
  obtain ⟨hlt, -⟩ := List.getElem?_eq_some_iff.mp hk
  have hstage := h.stage
  cases hg : a.stage with
  | normal => rfl
  | marked =>
      rw [hg] at hstage
      obtain ⟨hr, -⟩ := hstage
      omega
  | draining =>
      rw [hg] at hstage
      obtain ⟨hr, -⟩ := hstage
      omega
  | empty =>
      rw [hg] at hstage
      obtain ⟨hr, -⟩ := hstage
      omega
  | filling =>
      rw [hg] at hstage
      obtain ⟨hr, hlast, -⟩ := hstage
      rw [History.opened, hg] at hopened
      simp only at hopened
      omega

theorem Fits.owned_notMem (h : Fits s a) (hp : a.owner p = some i) (hk : a.nodes[k]? = some q)
    (hle : a.removed ≤ k) :
  p ≠ q
  := by
  rintro rfl
  exact absurd ((h.owned p i hp).2 k hk) (Nat.not_lt.mpr hle)

/-! ### The steps -/

theorem setObject_self (v : Object V) :
  (s.setObject p v).object p = v
  := Function.update_self ..

theorem setObject_of_ne (h : q ≠ p) (v : Object V) :
  (s.setObject p v).object q = s.object q
  := Function.update_of_ne h ..

theorem setNext_self (n : Pointer) :
  ((s.setNext p n).object p).nextobject = n
  := by
  simp [Shared.setNext, Shared.setObject]

theorem setNext_of_ne (h : q ≠ p) (n : Pointer) :
  (s.setNext p n).object q = s.object q
  := Function.update_of_ne h ..

theorem setNext_data (n : Pointer) :
  ((s.setNext p n).object q).data = (s.object q).data
  := by
  by_cases h : q = p
  · subst h
    simp [Shared.setNext, Shared.setObject]
  · rw [setNext_of_ne h]

/-- The steps of thread `i` on the shared memory and its history. -/
inductive HistoryStep [DecidableEq ι] (i : ι) :
    Shared V × History ι → Shared V × History ι → Prop where
  | stay (x : Shared V × History ι) : HistoryStep i x x
  | see {s : Shared V} {a : History ι} : HistoryStep i (s, a) (s, a.see i)
  | new {s : Shared V} {a : History ι} (v : Object V) :
      HistoryStep i (s, a)
        ({ s.setObject s.fresh v with fresh := s.fresh + 1 }, a.give s.fresh (some i))
  | write {s : Shared V} {a : History ι} {p : ℕ} {n : Pointer} : a.owner p = some i →
      (p ∈ a.nodes → n ≠ .unlinked) → (a.stage = .marked → a.nodes[a.tail]? ≠ some p) →
      HistoryStep i (s, a) (s.setNext p n, a)
  | link {s : Shared V} {a : History ι} {k p q : ℕ} : a.nodes[k]? = some q →
      (s.object q).nextobject = .unlinked → k < a.opened → k ≤ a.tail → a.owner p = some i →
      p ∉ a.nodes → (s.object p).nextobject = .unlinked →
      HistoryStep i (s, a) (s.setNext q (.follow (some p)), a.link p)
  | mark {s : Shared V} {a : History ι} {k q : ℕ} : a.nodes[k]? = some q →
      (s.object q).nextobject = .unlinked → k < a.opened → k ≤ a.tail → k ≤ a.removed →
      HistoryStep i (s, a) (s.setNext q .marked, (a.remove i (some q)).enter .marked)
  | shiftTail {s : Shared V} {a : History ι} {q : ℕ} : a.stage = .normal →
      a.nodes[a.tail + 1]? = some q →
      HistoryStep i (s, a) ({ s with tail := s.tail.shift (some q) }, a.shiftTail)
  | shiftHead {s : Shared V} {a : History ι} {p q : ℕ} : a.stage = .normal →
      a.removed < a.tail → a.nodes[a.removed]? = some p → a.nodes[a.removed + 1]? = some q →
      HistoryStep i (s, a) ({ s with head := s.head.shift (some q) }, a.remove i (some p))
  | drainTail {s : Shared V} {a : History ι} : a.stage = .marked →
      HistoryStep i (s, a) ({ s with tail := s.tail.shift none }, a.enter .draining)
  | drainHead {s : Shared V} {a : History ι} : a.stage = .draining →
      HistoryStep i (s, a) ({ s with head := s.head.shift none }, a.enter .empty)
  | fillTail {s : Shared V} {a : History ι} {p : ℕ} : a.stage = .empty → a.owner p = some i →
      p ∉ a.nodes → (s.object p).nextobject = .unlinked →
      HistoryStep i (s, a) ({ s with tail := s.tail.shift (some p) }, a.fill p)
  | fillHead {s : Shared V} {a : History ι} {q : ℕ} : a.stage = .filling →
      a.nodes[a.tail]? = some q →
      HistoryStep i (s, a) ({ s with head := s.head.shift (some q) }, a.enter .normal)

theorem give_of_ne (h : q ≠ p) (o : Option ι) :
  (a.give p o).owner q = a.owner q
  := Function.update_of_ne h ..

theorem give_self (o : Option ι) :
  (a.give p o).owner p = o
  := Function.update_self ..

theorem Fits.see [DecidableEq ι] (h : Fits s a) :
  Fits s (a.see i)
  := by
  refine ⟨h.nodup, h.below, h.owned, h.next, h.gone, ?_⟩
  have hstage := h.stage
  cases hg : a.stage with
  | normal | marked | draining | empty | filling =>
      rw [hg] at hstage
      simp only [History.see, hg]
      exact hstage

theorem Fits.new (h : Fits s a) (v : Object V) :
  Fits { s.setObject s.fresh v with fresh := s.fresh + 1 } (a.give s.fresh (some i))
  := by
  have hkeep : ∀ {k p : ℕ}, a.nodes[k]? = some p →
      (s.setObject s.fresh v).object p = s.object p := by
    intro k p hk
    exact setObject_of_ne (ne_of_lt (h.below p (List.mem_of_getElem? hk))) v
  constructor
  case nodup => apply h.nodup
  case below => exact fun p hp => Nat.lt_succ_of_lt (h.below p hp)
  case owned =>
    intro p j hp
    by_cases hpf : p = s.fresh
    · subst hpf
      use Nat.lt_succ_self _
      intro k hk
      exact absurd (h.below _ (List.mem_of_getElem? hk)) (Nat.lt_irrefl _)
    · rw [give_of_ne hpf] at hp
      obtain ⟨hlt, hk⟩ := h.owned p j hp
      exact ⟨Nat.lt_succ_of_lt hlt, hk⟩
  case next =>
    intro k p hle hk
    apply Eq.trans (congrArg Object.nextobject (hkeep hk)) (h.next k p hle hk)
  case gone =>
    intro k p hlt hk hp
    exact h.gone k p hlt hk ((congrArg Object.nextobject (hkeep hk)).symm.trans hp)
  case stage =>
    have hstage := h.stage
    cases hg : a.stage with
    | marked =>
        rw [hg] at hstage
        obtain ⟨hr, ht, hhead, htail, hmark⟩ := hstage
        simp only [History.give, hg]
        refine ⟨hr, ht, hhead, htail, ?_⟩
        intro p hp
        exact (congrArg Object.nextobject (hkeep hp)).trans (hmark p hp)
    | normal | draining | empty | filling =>
        rw [hg] at hstage
        simp only [History.give, hg]
        exact hstage

/-- Writing an object that is not in the queue. -/
theorem Fits.write (h : Fits s a) {n : Pointer} (hp : a.owner p = some i)
    (hn : p ∈ a.nodes → n ≠ .unlinked) (hm : a.stage = .marked → a.nodes[a.tail]? ≠ some p) :
  Fits (s.setNext p n) a
  := by
  constructor
  case nodup => apply h.nodup
  case below => apply h.below
  case owned => apply h.owned
  case next =>
    intro k q hle hk
    rw [setNext_of_ne (h.owned_notMem hp hk hle).symm]
    apply h.next k q hle hk
  case gone =>
    intro k q hlt hk
    by_cases hq : q = p
    · subst hq
      rw [setNext_self]
      apply hn (List.mem_of_getElem? hk)
    · rw [setNext_of_ne hq]
      apply h.gone k q hlt hk
  case stage =>
    have hstage := h.stage
    cases hg : a.stage with
    | marked =>
        rw [hg] at hstage
        obtain ⟨hr, ht, hhead, htail, hmark⟩ := hstage
        refine ⟨hr, ht, hhead, htail, ?_⟩
        intro q hq
        have hqp : q ≠ p := by
          rintro rfl
          exact hm hg hq
        rw [setNext_of_ne hqp]
        apply hmark q hq
    | normal | draining | empty | filling =>
        rw [hg] at hstage
        exact hstage

theorem getElem?_concat {l : List ℕ} (h : (l ++ [p])[m]? = some q) :
  (m < l.length ∧ l[m]? = some q) ∨ (m = l.length ∧ q = p)
  := by
  rcases lt_trichotomy m l.length with hlt | rfl | hlt
  · exact Or.inl ⟨hlt, (List.getElem?_append_left hlt).symm.trans h⟩
  · rw [List.getElem?_concat_length] at h
    exact Or.inr ⟨rfl, (Option.some.inj h).symm⟩
  · have hlen : (l ++ [p]).length ≤ m := by
      rw [List.length_append]
      exact hlt
    rw [List.getElem?_eq_none hlen] at h
    cases h

/-- An owned object that joins the list. -/
theorem Fits.append (h : Fits s a) (hp : a.owner p = some i) (hmem : p ∉ a.nodes) :
  (a.link p).nodes.Nodup ∧ (∀ x ∈ (a.link p).nodes, x < s.fresh) ∧
    ∀ x j, (a.link p).owner x = some j →
      x < s.fresh ∧ ∀ k, (a.link p).nodes[k]? = some x → k < a.removed
  := by
  refine ⟨?_, ?_, ?_⟩
  · apply List.Nodup.append h.nodup (List.nodup_singleton p)
    intro x hx hx'
    rw [List.mem_singleton] at hx'
    exact hmem (hx' ▸ hx)
  · intro x hx
    rcases List.mem_append.mp hx with hx | hx
    · apply h.below x hx
    · rw [List.mem_singleton.mp hx]
      exact (h.owned p i hp).1
  · intro x j hx
    by_cases hxp : x = p
    · subst hxp
      cases (give_self none).symm.trans hx
    · obtain ⟨hlt, hm⟩ := h.owned x j ((give_of_ne hxp none).symm.trans hx)
      use hlt
      intro m hxm
      rcases getElem?_concat hxm with ⟨-, hxm⟩ | ⟨-, rfl⟩
      · apply hm m hxm
      · exact absurd rfl hxp

theorem Fits.link (h : Fits s a) (hk : a.nodes[k]? = some q)
    (hq : (s.object q).nextobject = .unlinked) (hopened : k < a.opened) (hkt : k ≤ a.tail)
    (hp : a.owner p = some i) (hmem : p ∉ a.nodes) (hpn : (s.object p).nextobject = .unlinked) :
  Fits (s.setNext q (.follow (some p))) (a.link p)
  := by
  obtain ⟨hle, hlast⟩ := h.unlinked hk hq
  have hnormal := h.normal hk hle hopened
  have hkeep : ∀ {m : ℕ}, m < a.nodes.length → (a.nodes ++ [p])[m]? = a.nodes[m]? :=
    fun hm => List.getElem?_append_left hm
  have hpq := h.owned_notMem hp hk hle
  obtain ⟨hnodup, hbelow, howned⟩ := h.append hp hmem
  constructor
  case nodup => apply hnodup
  case below => apply hbelow
  case owned => apply howned
  case next =>
    intro m x hm hx
    change _ = Pointer.follow (a.nodes ++ [p])[m + 1]?
    rcases getElem?_concat hx with ⟨hlt, hx⟩ | ⟨rfl, rfl⟩
    · by_cases hxq : x = q
      · subst hxq
        obtain rfl := h.position hx hk
        rw [setNext_self, hlast, List.getElem?_concat_length]
      · have hmk : m ≠ k := by
          rintro rfl
          exact hxq (Option.some.inj (hx.symm.trans hk))
        rw [setNext_of_ne hxq, hkeep (show m + 1 < a.nodes.length by omega)]
        apply h.next m x hm hx
    · rw [setNext_of_ne hpq, hpn, List.getElem?_eq_none (by simp)]
      rfl
  case gone =>
    intro m x hm hx
    rcases getElem?_concat hx with ⟨-, hx⟩ | ⟨rfl, rfl⟩
    · have hxq : x ≠ q := by
        rintro rfl
        exact absurd hm (Nat.not_lt.mpr (h.position hk hx ▸ hle))
      rw [setNext_of_ne hxq]
      apply h.gone m x hm hx
    · exact absurd hm (Nat.not_lt.mpr (hle.trans (by omega)))
  case stage =>
    have hstage := h.stage
    rw [hnormal] at hstage
    obtain ⟨hrt, htl, hlt, hhead, htail⟩ := hstage
    have hlength : (a.link p).nodes.length = a.nodes.length + 1 := by simp [History.link]
    rw [show (a.link p).stage = .normal from hnormal]
    refine ⟨hrt, ?_, ?_, ?_, ?_⟩
    · rw [hlength]
      exact Nat.lt_succ_of_lt htl
    · rw [hlength, ← hlast]
      exact Nat.add_le_add_right hkt 2
    · exact hhead.trans (hkeep (lt_of_le_of_lt hrt htl)).symm
    · exact htail.trans (hkeep htl).symm

theorem Fits.mark (h : Fits s a) (hk : a.nodes[k]? = some q)
    (hq : (s.object q).nextobject = .unlinked) (hopened : k < a.opened) (hkt : k ≤ a.tail)
    (hkr : k ≤ a.removed) :
  Fits (s.setNext q .marked) ((a.remove i (some q)).enter .marked)
  := by
  obtain ⟨hle, hlast⟩ := h.unlinked hk hq
  have hnormal := h.normal hk hle hopened
  have hstage := h.stage
  rw [hnormal] at hstage
  obtain ⟨hrt, htl, hlt, hhead, htail⟩ := hstage
  obtain rfl : a.tail = k := by omega
  have hr : a.removed = a.tail := le_antisymm hle hkr
  constructor
  case nodup => apply h.nodup
  case below => apply h.below
  case owned =>
    intro p j hp
    by_cases hpq : p = q
    · subst hpq
      use h.below p (List.mem_of_getElem? hk)
      intro m hm
      rw [h.position hm hk, ← hr]
      exact Nat.lt_succ_self _
    · obtain ⟨hlt, hm⟩ := h.owned p j ((give_of_ne hpq (some i)).symm.trans hp)
      exact ⟨hlt, fun m hpm => Nat.lt_succ_of_lt (hm m hpm)⟩
  case next =>
    intro m p hm hp
    obtain ⟨hlt, -⟩ := List.getElem?_eq_some_iff.mp hp
    have hm' : a.removed + 1 ≤ m := hm
    have hlt' : m < a.nodes.length := hlt
    omega
  case gone =>
    intro m p hm hp
    by_cases hpq : p = q
    · subst hpq
      rw [setNext_self]
      exact fun h => nomatch h
    · rw [setNext_of_ne hpq]
      have hmt : m ≠ a.tail := by
        rintro rfl
        exact hpq (Option.some.inj (hp.symm.trans hk))
      have hm' : m < a.removed + 1 := hm
      apply h.gone m p (by omega) hp
  case stage =>
    refine ⟨?_, hlast, ?_, htail, ?_⟩
    · change a.removed + 1 = a.nodes.length
      omega
    · exact hhead.trans (congrArg (a.nodes[·]?) hr)
    · intro p hp
      obtain rfl := Option.some.inj (hk.symm.trans hp)
      apply setNext_self

theorem Fits.shiftTail (h : Fits s a) (hg : a.stage = .normal)
    (hq : a.nodes[a.tail + 1]? = some q) :
  Fits { s with tail := s.tail.shift (some q) } a.shiftTail
  := by
  have hstage := h.stage
  rw [hg] at hstage
  obtain ⟨hrt, htl, hlt, hhead, htail⟩ := hstage
  obtain ⟨hlt', -⟩ := List.getElem?_eq_some_iff.mp hq
  refine ⟨h.nodup, h.below, h.owned, h.next, h.gone, ?_⟩
  rw [show a.shiftTail.stage = .normal from hg]
  exact ⟨Nat.le_succ_of_le hrt, hlt', Nat.le_succ_of_le hlt, hhead, hq.symm⟩

theorem Fits.shiftHead (h : Fits s a) (hg : a.stage = .normal) (hlt : a.removed < a.tail)
    (hp : a.nodes[a.removed]? = some p) (hq : a.nodes[a.removed + 1]? = some q) :
  Fits { s with head := s.head.shift (some q) } (a.remove i (some p))
  := by
  have hstage := h.stage
  rw [hg] at hstage
  obtain ⟨hrt, htl, hlen, hhead, htail⟩ := hstage
  constructor
  case nodup => apply h.nodup
  case below => apply h.below
  case owned =>
    intro x j hx
    by_cases hxp : x = p
    · subst hxp
      use h.below x (List.mem_of_getElem? hp)
      intro k hk
      rw [h.position hk hp]
      exact Nat.lt_succ_self _
    · obtain ⟨hlt, hk⟩ := h.owned x j ((give_of_ne hxp (some i)).symm.trans hx)
      exact ⟨hlt, fun k hxk => Nat.lt_succ_of_lt (hk k hxk)⟩
  case next =>
    intro k x hk hx
    apply h.next k x (Nat.le_of_succ_le hk) hx
  case gone =>
    intro k x hk hx
    rcases Nat.lt_succ_iff_lt_or_eq.mp hk with hk | rfl
    · apply h.gone k x hk hx
    · have hnext := h.next a.removed x le_rfl hx
      rw [hq] at hnext
      simp only
      rw [hnext]
      exact fun h => nomatch h
  case stage =>
    rw [show (a.remove i (some p)).stage = .normal from hg]
    exact ⟨hlt, htl, hlen, hq.symm, htail⟩

theorem Fits.drainTail (h : Fits s a) (hg : a.stage = .marked) :
  Fits { s with tail := s.tail.shift none } (a.enter .draining)
  := by
  have hstage := h.stage
  rw [hg] at hstage
  obtain ⟨hr, ht, hhead, htail, -⟩ := hstage
  exact ⟨h.nodup, h.below, h.owned, h.next, h.gone, hr, ht, hhead, rfl⟩

theorem Fits.drainHead (h : Fits s a) (hg : a.stage = .draining) :
  Fits { s with head := s.head.shift none } (a.enter .empty)
  := by
  have hstage := h.stage
  rw [hg] at hstage
  obtain ⟨hr, ht, hhead, htail⟩ := hstage
  exact ⟨h.nodup, h.below, h.owned, h.next, h.gone, hr, Nat.le_of_succ_le (le_of_eq ht), rfl, htail⟩

theorem Fits.fillTail (h : Fits s a) (hg : a.stage = .empty) (hp : a.owner p = some i)
    (hmem : p ∉ a.nodes) (hpn : (s.object p).nextobject = .unlinked) :
  Fits { s with tail := s.tail.shift (some p) } (a.fill p)
  := by
  have hstage := h.stage
  rw [hg] at hstage
  obtain ⟨hr, ht, hhead, htail⟩ := hstage
  obtain ⟨hnodup, hbelow, howned⟩ := h.append hp hmem
  have hkeep : ∀ {m x : ℕ}, m < a.removed → (a.nodes ++ [p])[m]? = some x →
      a.nodes[m]? = some x :=
    fun hm hx => (List.getElem?_append_left (hr ▸ hm)).symm.trans hx
  constructor
  case nodup => apply hnodup
  case below => apply hbelow
  case owned => apply howned
  case next =>
    intro m x hm hx
    change _ = Pointer.follow (a.nodes ++ [p])[m + 1]?
    rcases getElem?_concat hx with ⟨hlt, -⟩ | ⟨rfl, rfl⟩
    · exact absurd hlt (Nat.not_lt.mpr (hr ▸ hm))
    · rw [List.getElem?_eq_none (by simp)]
      apply hpn
  case gone =>
    intro m x hm hx
    apply h.gone m x hm (hkeep hm hx)
  case stage =>
    refine ⟨hr, ?_, hhead, ?_⟩
    · simp [History.fill, History.link]
    · simp [History.fill, History.link, Pointer.shift]

theorem Fits.fillHead (h : Fits s a) (hg : a.stage = .filling)
    (hq : a.nodes[a.tail]? = some q) :
  Fits { s with head := s.head.shift (some q) } (a.enter .normal)
  := by
  have hstage := h.stage
  rw [hg] at hstage
  obtain ⟨hr, ht, hhead, htail⟩ := hstage
  refine ⟨h.nodup, h.below, h.owned, h.next, h.gone, le_of_eq hr, ?_, ?_, ?_, htail⟩
  · exact le_of_eq ht
  · exact Nat.le_succ_of_le (le_of_eq ht.symm)
  · change some q = a.nodes[a.removed]?
    rw [hr, hq]

theorem opened_of_ne (h : a.stage ≠ .filling) :
  a.opened = a.nodes.length
  := by
  rw [History.opened]
  cases hg : a.stage with
  | filling => exact absurd hg h
  | normal | marked | draining | empty => rfl

theorem opened_le (a : History ι) :
  a.opened ≤ a.nodes.length
  := by
  rw [History.opened]
  split
  · apply Nat.sub_le
  · apply le_rfl

section step

variable [DecidableEq ι] {x x' : Shared V × History ι}

/-- The history describes the memory after each step. -/
theorem HistoryStep.fits (h : HistoryStep i x x') (hx : Fits x.1 x.2) :
  Fits x'.1 x'.2
  := by
  cases h with
  | stay => apply hx
  | see => apply hx.see
  | new v => apply hx.new
  | write hp hn hm => apply hx.write hp hn hm
  | link hk hq hopened hkt hp hmem hpn => apply hx.link hk hq hopened hkt hp hmem hpn
  | mark hk hq hopened hkt hkr => apply hx.mark hk hq hopened hkt hkr
  | shiftTail hg hq => apply hx.shiftTail hg hq
  | shiftHead hg hlt hp hq => apply hx.shiftHead hg hlt hp hq
  | drainTail hg => apply hx.drainTail hg
  | drainHead hg => apply hx.drainHead hg
  | fillTail hg hp hmem hpn => apply hx.fillTail hg hp hmem hpn
  | fillHead hg hq => apply hx.fillHead hg hq

/-! ### Growth -/

/-- What thread `j` sees of the steps of others: objects are added at the end, positions
move forward, the counters of head and tail go up when head and tail change, the stages
follow each other in a circle, and `j` keeps its own objects. -/
structure Grows (j : ι) (x x' : Shared V × History ι) : Prop where
  nodes : x.2.nodes <+: x'.2.nodes
  removed : x.2.removed ≤ x'.2.removed
  tail : x.2.tail ≤ x'.2.tail
  opened : x.2.opened ≤ x'.2.opened
  newHead : x'.1.head ≠ x.1.head → x.1.head.age < x'.1.head.age
  newTail : x'.1.tail ≠ x.1.tail → x.1.tail.age < x'.1.tail.age
  atTail : ∀ k, k < x.2.nodes.length → k ≤ x.2.tail → x'.2.tail = k → x'.2.stage.HasTail →
    x'.1.tail = x.1.tail ∧ x.2.tail = k ∧ x.2.stage.HasTail
  marked : x.2.stage = .marked → (x'.2.stage = .marked ∧ x'.1.tail = x.1.tail) ∨
    (x'.2.stage = .draining ∧ x'.1.head = x.1.head ∧ x'.1.tail ≠ x.1.tail)
  unmarked : ∀ k < x.2.removed, x'.2.stage = .marked → x'.2.tail = k →
    x.2.stage = .marked ∧ x.2.tail = k
  draining : x.2.stage = .draining → x'.1.head = x.1.head → x'.2.stage = .draining
  empty : x.2.stage = .empty → x'.1.tail = x.1.tail → x'.2.stage = .empty
  filling : x.2.stage = .filling → x'.1.head = x.1.head →
    x'.2.stage = .filling ∧ x'.2.nodes = x.2.nodes
  owner : ∀ p, x.2.owner p = some j →
    x'.2.owner p = some j ∧ x'.1.object p = x.1.object p ∧ (p ∈ x'.2.nodes → p ∈ x.2.nodes)
  data : ∀ p ∈ x.2.nodes, (x'.1.object p).data = (x.1.object p).data
  saw : x'.2.saw j = x.2.saw j

theorem shift_ne (p : Pointer) (q : Option ℕ) :
  p.shift q ≠ p
  := by
  intro h
  have hc : p.count.counter + 1 = p.count.counter := congrArg (fun x => x.count.counter) h
  have hn := congrArg UInt32.toBitVec hc
  simp at hn

theorem HistoryStep.nodes (h : HistoryStep i x x') :
  x.2.nodes <+: x'.2.nodes
  := by
  cases h with
  | link | fillTail => apply List.prefix_append
  | _ => apply List.prefix_rfl

theorem HistoryStep.removed (h : HistoryStep i x x') :
  x.2.removed ≤ x'.2.removed
  := by
  cases h with
  | mark | shiftHead => apply Nat.le_succ
  | _ => apply le_rfl

theorem HistoryStep.tail (h : HistoryStep i x x') (hx : Fits x.1 x.2) :
  x.2.tail ≤ x'.2.tail
  := by
  cases h with
  | shiftTail => apply Nat.le_succ
  | fillTail hg =>
      have hstage := hx.stage
      rw [hg] at hstage
      exact hstage.2.1
  | _ => apply le_rfl

theorem HistoryStep.opened (h : HistoryStep i x x') (hx : Fits x.1 x.2) :
  x.2.opened ≤ x'.2.opened
  := by
  cases h with
  | @link s a k p q hk hq hopened =>
      have hg := hx.normal hk (hx.unlinked hk hq).1 hopened
      have hne : a.stage ≠ .filling := by
        rw [hg]
        exact fun h => nomatch h
      simp only
      rw [opened_of_ne hne, opened_of_ne (a := a.link p) hne]
      simp [History.link]
  | mark | fillHead =>
      apply le_trans (opened_le _)
      apply le_of_eq
      symm
      apply opened_of_ne
      exact fun h => nomatch h
  | drainTail hg | drainHead hg =>
      simp only [History.opened, History.enter, hg]
      apply le_rfl
  | fillTail hg =>
      simp [History.opened, History.fill, History.link, hg]
  | _ => apply le_rfl

theorem HistoryStep.atTail (h : HistoryStep i x x') (hx : Fits x.1 x.2)
    (hk : k < x.2.nodes.length)
    (hkt : k ≤ x.2.tail) (ht : x'.2.tail = k) (hg : x'.2.stage.HasTail) :
  x'.1.tail = x.1.tail ∧ x.2.tail = k ∧ x.2.stage.HasTail
  := by
  cases h with
  | @shiftTail s a q =>
      have ht' : a.tail + 1 = k := ht
      exact absurd hkt (by simp only; omega)
  | fillTail =>
      exact absurd hk (by rw [← ht]; exact Nat.lt_irrefl _)
  | drainTail | drainHead => exact absurd hg id
  | @link s a m p q hm hq hopened => exact ⟨rfl, ht, hg⟩
  | mark hm hq hopened =>
      refine ⟨rfl, ht, ?_⟩
      simp only
      rw [hx.normal hm (hx.unlinked hm hq).1 hopened]
      trivial
  | fillHead hf =>
      refine ⟨rfl, ht, ?_⟩
      simp only [hf]
      trivial
  | _ => exact ⟨rfl, ht, hg⟩

theorem HistoryStep.marked (h : HistoryStep i x x') (hx : Fits x.1 x.2)
    (hg : x.2.stage = .marked) :
  (x'.2.stage = .marked ∧ x'.1.tail = x.1.tail) ∨
    (x'.2.stage = .draining ∧ x'.1.head = x.1.head ∧ x'.1.tail ≠ x.1.tail)
  := by
  cases h with
  | drainTail => exact Or.inr ⟨rfl, rfl, shift_ne _ _⟩
  | link hk hq hopened | mark hk hq hopened =>
      cases hg.symm.trans (hx.normal hk (hx.unlinked hk hq).1 hopened)
  | shiftTail h | shiftHead h | drainHead h | fillTail h | fillHead h => cases hg.symm.trans h
  | _ => exact Or.inl ⟨hg, rfl⟩

theorem HistoryStep.unmarked (h : HistoryStep i x x') (hx : Fits x.1 x.2) (hk : k < x.2.removed)
    (hg : x'.2.stage = .marked) (ht : x'.2.tail = k) :
  x.2.stage = .marked ∧ x.2.tail = k
  := by
  cases h with
  | @mark s a m q hm hq hopened =>
      have hstage := hx.stage
      rw [hx.normal hm (hx.unlinked hm hq).1 hopened] at hstage
      have ht' : a.tail = k := ht
      exact absurd hk (Nat.not_lt.mpr (ht' ▸ hstage.1))
  | drainTail | drainHead | fillTail | fillHead => cases hg
  | shiftTail hn => cases hn.symm.trans hg
  | _ => exact ⟨hg, ht⟩

theorem HistoryStep.draining (h : HistoryStep i x x') (hx : Fits x.1 x.2)
    (hg : x.2.stage = .draining) (hhead : x'.1.head = x.1.head) :
  x'.2.stage = .draining
  := by
  cases h with
  | drainHead => exact absurd hhead (shift_ne _ _)
  | link hk hq hopened | mark hk hq hopened =>
      cases hg.symm.trans (hx.normal hk (hx.unlinked hk hq).1 hopened)
  | shiftTail h | shiftHead h | drainTail h | fillTail h | fillHead h => cases hg.symm.trans h
  | _ => exact hg

theorem HistoryStep.empty (h : HistoryStep i x x') (hx : Fits x.1 x.2)
    (hg : x.2.stage = .empty) (htail : x'.1.tail = x.1.tail) :
  x'.2.stage = .empty
  := by
  cases h with
  | fillTail => exact absurd htail (shift_ne _ _)
  | link hk hq hopened | mark hk hq hopened =>
      cases hg.symm.trans (hx.normal hk (hx.unlinked hk hq).1 hopened)
  | shiftTail h | shiftHead h | drainTail h | drainHead h | fillHead h => cases hg.symm.trans h
  | _ => exact hg

theorem HistoryStep.filling (h : HistoryStep i x x') (hx : Fits x.1 x.2)
    (hg : x.2.stage = .filling) (hhead : x'.1.head = x.1.head) :
  x'.2.stage = .filling ∧ x'.2.nodes = x.2.nodes
  := by
  cases h with
  | fillHead => exact absurd hhead (shift_ne _ _)
  | link hk hq hopened | mark hk hq hopened =>
      cases hg.symm.trans (hx.normal hk (hx.unlinked hk hq).1 hopened)
  | shiftTail h | shiftHead h | drainTail h | drainHead h | fillTail h => cases hg.symm.trans h
  | _ => exact ⟨hg, rfl⟩

/-- An object owned by another thread is left alone. -/
theorem HistoryStep.owner (h : HistoryStep i x x') (hx : Fits x.1 x.2) (hij : j ≠ i)
    (hp : x.2.owner p = some j) :
  x'.2.owner p = some j ∧ x'.1.object p = x.1.object p ∧ (p ∈ x'.2.nodes → p ∈ x.2.nodes)
  := by
  have hne : ∀ {q : ℕ}, x.2.owner q = some i → p ≠ q := by
    rintro q hq rfl
    exact hij (Option.some.inj (hp.symm.trans hq))
  cases h with
  | @new s a v =>
      have hpf : p ≠ s.fresh := ne_of_lt (hx.owned p j hp).1
      exact ⟨(give_of_ne hpf _).trans hp, setObject_of_ne hpf v, id⟩
  | write hq => exact ⟨hp, setNext_of_ne (hne hq) _, id⟩
  | link hk hq hopened hkt hown =>
      refine ⟨(give_of_ne (hne hown) _).trans hp, setNext_of_ne ?_ _, ?_⟩
      · apply hx.owned_notMem hp hk (hx.unlinked hk hq).1
      · intro hmem
        rcases List.mem_append.mp hmem with hmem | hmem
        · exact hmem
        · exact absurd (List.mem_singleton.mp hmem) (hne hown)
  | mark hk hq =>
      have hpq := hx.owned_notMem hp hk (hx.unlinked hk hq).1
      exact ⟨(give_of_ne hpq _).trans hp, setNext_of_ne hpq _, id⟩
  | shiftHead hg hlt hk =>
      exact ⟨(give_of_ne (hx.owned_notMem hp hk le_rfl) _).trans hp, rfl, id⟩
  | fillTail hg hown =>
      refine ⟨(give_of_ne (hne hown) _).trans hp, rfl, ?_⟩
      intro hmem
      rcases List.mem_append.mp hmem with hmem | hmem
      · exact hmem
      · exact absurd (List.mem_singleton.mp hmem) (hne hown)
  | _ => exact ⟨hp, rfl, id⟩

/-- Objects in the list keep their data. -/
theorem HistoryStep.data (h : HistoryStep i x x') (hx : Fits x.1 x.2) (hp : p ∈ x.2.nodes) :
  (x'.1.object p).data = (x.1.object p).data
  := by
  cases h with
  | @new s a v =>
      have hpf : p ≠ s.fresh := ne_of_lt (hx.below p hp)
      exact congrArg Object.data (setObject_of_ne hpf v)
  | write | link | mark => apply setNext_data
  | _ => rfl

theorem HistoryStep.saw (h : HistoryStep i x x') (hij : j ≠ i) :
  x'.2.saw j = x.2.saw j
  := by
  cases h with
  | see => exact Function.update_of_ne hij ..
  | _ => rfl

/-- The steps of a thread let the history grow for the others, provided the counters of
head and tail have not come round. -/
theorem HistoryStep.grows (h : HistoryStep i x x') (hx : Fits x.1 x.2) (hij : j ≠ i)
    (newHead : x'.1.head ≠ x.1.head → x.1.head.age < x'.1.head.age)
    (newTail : x'.1.tail ≠ x.1.tail → x.1.tail.age < x'.1.tail.age) :
  Grows j x x'
  := ⟨h.nodes, h.removed, h.tail hx, h.opened hx, newHead, newTail,
    fun _ hk hkt ht hg => h.atTail hx hk hkt ht hg, h.marked hx,
    fun _ hk hg ht => h.unmarked hx hk hg ht, h.draining hx, h.empty hx, h.filling hx,
    fun _ hp => h.owner hx hij hp, fun _ hp => h.data hx hp, h.saw hij⟩

end step

end PLJQueue
