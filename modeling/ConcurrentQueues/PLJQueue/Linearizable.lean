import ConcurrentQueues.Library.Script
import ConcurrentQueues.PLJQueue.History
import Mathlib.Data.Finset.Range
import Mathlib.Data.Finset.Card
import Mathlib.Algebra.Ring.Nat

/-!
# PLJQueue is linearizable

A thread acts on a snapshot that may be stale when it acts. As long as the counters do not
come round, head or tail has its old value only if it has not changed, and so what a
thread knows is of the form that something holds if the head, or the tail, is still what it was.
-/

namespace PLJQueue

open Machine

variable {ι V : Type}

/-! ### What a thread knows from a snapshot -/

/-- The counter of `p` has been read before that of `q`. -/
def Older (p q : Pointer) : Prop := p.age ≤ q.age

/-- The tail `t` was read when it had reached the object at position `k`. -/
def TailAt (x : Shared V × History ι) (t : Pointer) (k : ℕ) : Prop :=
  ∃ p, t.ptr = some p ∧ x.2.nodes[k]? = some p ∧ k ≤ x.2.tail ∧
    (x.2.tail = k → x.2.stage.HasTail → x.1.tail = t)

/-- What is known from having seen the head `h`, a tail `t` that had reached the object at
position `k`, and the field `n` of that object at one moment. -/
structure View (x : Shared V × History ι) (h t n : Pointer) (k : ℕ) : Prop where
  filling : h.ptr = none → x.1.head = h →
    x.2.stage = .filling ∧ x.2.nodes.getLast? = t.ptr
  opened : h.ptr ≠ none → k < x.2.opened
  head : ∀ p, h.ptr = some p → ∃ m, x.2.nodes[m]? = some p ∧ m ≤ k ∧ m ≤ x.2.removed
  link : ∀ q, n.ptr = some q → x.2.nodes[k + 1]? = some q
  unlinked : h.ptr ≠ none → n.ptr = none → n.count.mark ≠ DEQ → n = .unlinked
  marked : h.ptr ≠ none → n.ptr = none → n.count.mark = DEQ → h.ptr = t.ptr ∧
    (x.1.tail = t → x.2.stage = .marked) ∧
    (x.1.head = h → (x.2.stage = .marked ∧ x.1.tail = t) ∨ x.2.stage = .draining)
  apart : h.ptr ≠ t.ptr → n.ptr = none → n.count.mark ≠ DEQ

/-- What thread `i` knows from having loaded a null tail while the head was `h`. -/
def NullTail (i : ι) (x : Shared V × History ι) (h : Pointer) : Prop :=
  x.1.head = h → (h.ptr ≠ none → x.2.stage = .draining) ∧ (h.ptr = none → x.2.saw i = true)

/-- What thread `i` knows at each point of a snapshot. -/
def Snapshot.Knows (i : ι) (x : Shared V × History ι) : Snapshot → Prop
  | .loadHead _ => True
  | .loadTail h _ => Older h x.1.head
  | .loadNext h t _ => Older h x.1.head ∧ Older t x.1.tail ∧ ∃ k, TailAt x t k
  | .checkTail h t n => Older h x.1.head ∧ Older t x.1.tail ∧ (t.ptr = none → NullTail i x h) ∧
      (t.ptr ≠ none → ∃ k, TailAt x t k ∧ (x.1.tail = t → x.1.head = h → View x h t n k))
  | .checkHead h t n => Older h x.1.head ∧ Older t x.1.tail ∧ (t.ptr = none → NullTail i x h) ∧
      (t.ptr ≠ none → ∃ k, TailAt x t k ∧ (x.1.head = h → View x h t n k))
  | .done h t n => Older h x.1.head ∧ Older t x.1.tail ∧
      (t.ptr = none → h.ptr ≠ none → x.1.head = h → x.2.stage = .draining) ∧
      (t.ptr = none → h.ptr = none →
        x.2.saw i = true ∧ (x.1.tail = t → x.2.stage = .empty)) ∧
      (t.ptr ≠ none → ∃ k, TailAt x t k ∧ View x h t n k)

/-- Whether a thread at a point of a snapshot has loaded the tail of an empty queue, where
`b` tells this of its last load. -/
def Snapshot.saw (b : Bool) : Snapshot → Bool
  | .loadHead _ | .loadTail _ _ => false
  | .loadNext _ _ _ | .checkTail _ _ _ | .checkHead _ _ _ | .done _ _ _ => b

section stable

variable {i : ι} {x x' : Shared V × History ι} {h t n : Pointer} {k : ℕ}

theorem Older.keepHead (hh : Older h x.1.head) (hg : Grows i x x') :
  Older h x'.1.head
  := by
  by_cases hne : x'.1.head = x.1.head
  · rwa [hne]
  · exact le_of_lt (lt_of_le_of_lt hh (hg.newHead hne))

theorem Older.keepTail (ht : Older t x.1.tail) (hg : Grows i x x') :
  Older t x'.1.tail
  := by
  by_cases hne : x'.1.tail = x.1.tail
  · rwa [hne]
  · exact le_of_lt (lt_of_le_of_lt ht (hg.newTail hne))

/-- The head is what it was only if it has been so all the time. -/
theorem Older.head_eq (hh : Older h x.1.head) (hg : Grows i x x') (heq : x'.1.head = h) :
  x.1.head = h
  := by
  by_contra hne
  have hlt := hg.newHead (fun h' => hne (h'.symm.trans heq))
  rw [heq] at hlt
  exact absurd hh (Nat.not_le.mpr hlt)

theorem Older.tail_eq (ht : Older t x.1.tail) (hg : Grows i x x') (heq : x'.1.tail = t) :
  x.1.tail = t
  := by
  by_contra hne
  have hlt := hg.newTail (fun h' => hne (h'.symm.trans heq))
  rw [heq] at hlt
  exact absurd ht (Nat.not_le.mpr hlt)

theorem Grows.getElem? {p : ℕ} (hg : Grows i x x') (hk : x.2.nodes[k]? = some p) :
  x'.2.nodes[k]? = some p
  := by
  obtain ⟨rest, hrest⟩ := hg.nodes
  rw [← hrest, List.getElem?_append_left (List.getElem?_eq_some_iff.mp hk).1, hk]

theorem TailAt.keep (ht : TailAt x t k) (hg : Grows i x x') :
  TailAt x' t k
  := by
  obtain ⟨p, hp, hk, hle, htail⟩ := ht
  refine ⟨p, hp, hg.getElem? hk, hle.trans hg.tail, ?_⟩
  intro hk' hstage'
  obtain ⟨htail', hk'', hstage⟩ :=
    hg.atTail k (List.getElem?_eq_some_iff.mp hk).1 hle hk' hstage'
  rw [htail', htail hk'' hstage]

/-- That the queue is filling stays known as long as the head does not change. -/
theorem filling_keep {q : Option ℕ} (hh : Older h x.1.head) (hg : Grows i x x')
    (hf : x.1.head = h → x.2.stage = .filling ∧ x.2.nodes.getLast? = q) (heq : x'.1.head = h) :
  x'.2.stage = .filling ∧ x'.2.nodes.getLast? = q
  := by
  have heq₀ := hh.head_eq hg heq
  obtain ⟨hs, hn⟩ := hf heq₀
  obtain ⟨hs', hn'⟩ := hg.filling hs (heq.trans heq₀.symm)
  exact ⟨hs', hn' ▸ hn⟩

theorem draining_keep (hh : Older h x.1.head) (hg : Grows i x x')
    (hd : x.1.head = h → x.2.stage = .draining) (heq : x'.1.head = h) :
  x'.2.stage = .draining
  := by
  have heq₀ := hh.head_eq hg heq
  exact hg.draining (hd heq₀) (heq.trans heq₀.symm)

theorem marked_keep (ht : Older t x.1.tail) (hg : Grows i x x')
    (hm : x.1.tail = t → x.2.stage = .marked) (heq : x'.1.tail = t) :
  x'.2.stage = .marked
  := by
  have heq₀ := ht.tail_eq hg heq
  rcases hg.marked (hm heq₀) with ⟨hs, -⟩ | ⟨-, -, hne⟩
  · exact hs
  · exact absurd (heq.trans heq₀.symm) hne

theorem drained_keep (hh : Older h x.1.head) (hg : Grows i x x')
    (hd : x.1.head = h → (x.2.stage = .marked ∧ x.1.tail = t) ∨ x.2.stage = .draining)
    (heq : x'.1.head = h) :
  (x'.2.stage = .marked ∧ x'.1.tail = t) ∨ x'.2.stage = .draining
  := by
  have heq₀ := hh.head_eq hg heq
  rcases hd heq₀ with ⟨hs, ht⟩ | hs
  · rcases hg.marked hs with ⟨hs', ht'⟩ | ⟨hs', -⟩
    · exact Or.inl ⟨hs', ht'.trans ht⟩
    · exact Or.inr hs'
  · exact Or.inr (hg.draining hs (heq.trans heq₀.symm))

theorem empty_keep (ht : Older t x.1.tail) (hg : Grows i x x')
    (he : x.1.tail = t → x.2.stage = .empty) (heq : x'.1.tail = t) :
  x'.2.stage = .empty
  := by
  have heq₀ := ht.tail_eq hg heq
  exact hg.empty (he heq₀) (heq.trans heq₀.symm)

theorem View.keep (hv : View x h t n k) (hh : Older h x.1.head) (ht : Older t x.1.tail)
    (hg : Grows i x x') :
  View x' h t n k
  := by
  constructor
  case filling =>
    intro hnull
    apply filling_keep hh hg (hv.filling hnull)
  case opened => exact fun hne => lt_of_lt_of_le (hv.opened hne) hg.opened
  case head =>
    intro p hp
    obtain ⟨m, hm, hmk, hmr⟩ := hv.head p hp
    exact ⟨m, hg.getElem? hm, hmk, hmr.trans hg.removed⟩
  case link => exact fun q hq => hg.getElem? (hv.link q hq)
  case unlinked => apply hv.unlinked
  case marked =>
    intro hne hnull hmark
    obtain ⟨heq, htail, hhead⟩ := hv.marked hne hnull hmark
    exact ⟨heq, marked_keep ht hg htail, drained_keep hh hg hhead⟩
  case apart => apply hv.apart

theorem NullTail.keep (hn : NullTail i x h) (hh : Older h x.1.head) (hg : Grows i x x') :
  NullTail i x' h
  := by
  intro heq
  have heq₀ := hh.head_eq hg heq
  obtain ⟨hd, hs⟩ := hn heq₀
  use fun hne => hg.draining (hd hne) (heq.trans heq₀.symm)
  intro hnull
  rw [hg.saw]
  apply hs hnull

theorem Snapshot.Knows.keep {pc : Snapshot} (hpc : pc.Knows i x) (hg : Grows i x x') :
  pc.Knows i x'
  := by
  cases pc with
  | loadHead n => trivial
  | loadTail h n => exact Older.keepHead hpc hg
  | loadNext h t n =>
      obtain ⟨hh, ht, k, hk⟩ := hpc
      exact ⟨hh.keepHead hg, ht.keepTail hg, k, hk.keep hg⟩
  | checkTail h t n =>
      obtain ⟨hh, ht, hnull, hview⟩ := hpc
      refine ⟨hh.keepHead hg, ht.keepTail hg, fun h => (hnull h).keep hh hg, ?_⟩
      intro hne
      obtain ⟨k, hk, hv⟩ := hview hne
      refine ⟨k, hk.keep hg, ?_⟩
      intro htail hhead
      exact (hv (ht.tail_eq hg htail) (hh.head_eq hg hhead)).keep hh ht hg
  | checkHead h t n =>
      obtain ⟨hh, ht, hnull, hview⟩ := hpc
      refine ⟨hh.keepHead hg, ht.keepTail hg, fun h => (hnull h).keep hh hg, ?_⟩
      intro hne
      obtain ⟨k, hk, hv⟩ := hview hne
      refine ⟨k, hk.keep hg, ?_⟩
      intro hhead
      exact (hv (hh.head_eq hg hhead)).keep hh ht hg
  | done h t n =>
      obtain ⟨hh, ht, hdrain, hempty, hview⟩ := hpc
      refine ⟨hh.keepHead hg, ht.keepTail hg,
        fun htn hhn => draining_keep hh hg (hdrain htn hhn), ?_, ?_⟩
      · intro htn hhn
        obtain ⟨hsaw, hstage⟩ := hempty htn hhn
        exact ⟨hg.saw.trans hsaw, empty_keep ht hg hstage⟩
      · intro hne
        obtain ⟨k, hk, hv⟩ := hview hne
        exact ⟨k, hk.keep hg, hv.keep hh ht hg⟩

end stable

/-! ### The steps of a snapshot -/

section snapshot

variable {i : ι} {s : Shared V} {a : History ι} {p : ℕ}

/-- What the memory shows when the tail is not null. -/
theorem Fits.tail_inv (h : Fits s a) (hp : s.tail.ptr = some p) :
  a.nodes[a.tail]? = some p ∧ a.stage.HasTail
  := by
  have hstage := h.stage
  cases hg : a.stage with
  | normal =>
      rw [hg] at hstage
      obtain ⟨-, -, -, -, htail⟩ := hstage
      exact ⟨htail.symm.trans hp, trivial⟩
  | marked =>
      rw [hg] at hstage
      obtain ⟨-, -, -, htail, -⟩ := hstage
      exact ⟨htail.symm.trans hp, trivial⟩
  | filling =>
      rw [hg] at hstage
      obtain ⟨-, -, -, htail⟩ := hstage
      exact ⟨htail.symm.trans hp, trivial⟩
  | draining =>
      rw [hg] at hstage
      obtain ⟨-, -, -, htail⟩ := hstage
      cases htail.symm.trans hp
  | empty =>
      rw [hg] at hstage
      obtain ⟨-, -, -, htail⟩ := hstage
      cases htail.symm.trans hp

/-- What the memory shows when the tail is null. -/
theorem Fits.tail_null (h : Fits s a) (ht : s.tail.ptr = none) :
  (s.head.ptr ≠ none ∧ a.stage = .draining) ∨ (s.head.ptr = none ∧ a.stage = .empty)
  := by
  have hstage := h.stage
  have hlast : a.tail < a.nodes.length → a.nodes[a.tail]? ≠ none := by
    intro hlt hnone
    exact absurd hlt (Nat.not_lt.mpr (List.getElem?_eq_none_iff.mp hnone))
  cases hg : a.stage with
  | normal =>
      rw [hg] at hstage
      obtain ⟨-, hlt, -, -, htail⟩ := hstage
      exact absurd (htail.symm.trans ht) (hlast hlt)
  | marked =>
      rw [hg] at hstage
      obtain ⟨-, hlt, -, htail, -⟩ := hstage
      exact absurd (htail.symm.trans ht) (hlast (by omega))
  | filling =>
      rw [hg] at hstage
      obtain ⟨-, hlt, -, htail⟩ := hstage
      exact absurd (htail.symm.trans ht) (hlast (by omega))
  | draining =>
      rw [hg] at hstage
      obtain ⟨-, hlt, hhead, -⟩ := hstage
      exact Or.inl ⟨fun hnone => hlast (by omega) (hhead.symm.trans hnone), rfl⟩
  | empty =>
      rw [hg] at hstage
      obtain ⟨-, -, hhead, -⟩ := hstage
      exact Or.inr ⟨hhead, rfl⟩

/-- The tail that is read now has reached the object it points to. -/
theorem Fits.tailAt (h : Fits s a) (hp : s.tail.ptr = some p) :
  TailAt (s, a) s.tail a.tail
  := ⟨p, hp, (h.tail_inv hp).1, le_rfl, fun _ _ => rfl⟩

/-- A position of the tail that is read now. -/
theorem Fits.at_tail (h : Fits s a) {k : ℕ} (ht : TailAt (s, a) s.tail k) :
  k = a.tail
  := by
  obtain ⟨p, hp, hk, -⟩ := ht
  exact h.position hk (h.tail_inv hp).1

/-- Head, tail and the field `nextobject` of the last object at the present moment. -/
theorem Fits.view (h : Fits s a) (hp : s.tail.ptr = some p) :
  View (s, a) s.head s.tail (s.object p).nextobject a.tail
  := by
  obtain ⟨hk, htail⟩ := h.tail_inv hp
  obtain ⟨hlt, -⟩ := List.getElem?_eq_some_iff.mp hk
  have hstage := h.stage
  cases hg : a.stage with
  | draining | empty =>
      rw [hg] at htail
      cases htail
  | normal =>
      rw [hg] at hstage
      obtain ⟨hrt, -, hlen, hhead, htail⟩ := hstage
      have hnext := h.next a.tail p hrt hk
      have hr : s.head.ptr ≠ none := by
        rw [hhead, List.getElem?_eq_getElem (lt_of_le_of_lt hrt hlt)]
        apply Option.some_ne_none
      constructor
      case filling => exact fun hnull => absurd hnull hr
      case opened =>
        intro _
        simp only [History.opened, hg]
        exact hlt
      case head => exact fun q hq => ⟨a.removed, hhead.symm.trans hq, hrt, le_rfl⟩
      case link =>
        intro q hq
        rw [hnext] at hq
        simp only
        cases hx : a.nodes[a.tail + 1]? with
        | none =>
            rw [hx] at hq
            cases hq
        | some x =>
            rw [hx] at hq
            exact hq
      case unlinked =>
        intro _ hnull _
        rw [hnext] at hnull ⊢
        cases hx : a.nodes[a.tail + 1]? with
        | none => rfl
        | some x =>
            rw [hx] at hnull
            cases hnull
      case marked =>
        intro _ _ hmark
        rw [hnext] at hmark
        cases hx : a.nodes[a.tail + 1]? <;> rw [hx] at hmark <;> cases hmark
      case apart =>
        intro _ _ hmark
        rw [hnext] at hmark
        cases hx : a.nodes[a.tail + 1]? <;> rw [hx] at hmark <;> cases hmark
  | marked =>
      rw [hg] at hstage
      obtain ⟨hr, hlen, hhead, htail, hmarked⟩ := hstage
      rw [hmarked p hk]
      constructor
      case filling =>
        intro hnull
        cases (hhead.symm.trans hnull).symm.trans hk
      case opened =>
        intro _
        simp only [History.opened, hg]
        exact hlt
      case head =>
        intro q hq
        refine ⟨a.tail, hhead.symm.trans hq, le_rfl, ?_⟩
        simp only
        omega
      case link =>
        intro q hq
        cases hq
      case unlinked => exact fun _ _ hmark => absurd rfl hmark
      case marked =>
        exact fun _ _ _ => ⟨hhead.trans htail.symm, fun _ => hg, fun _ => Or.inl ⟨hg, rfl⟩⟩
      case apart => exact fun hne => absurd (hhead.trans htail.symm) hne
  | filling =>
      rw [hg] at hstage
      obtain ⟨hr, hlen, hhead, htail⟩ := hstage
      have hnext := h.next a.tail p (le_of_eq hr) hk
      rw [List.getElem?_eq_none (by omega)] at hnext
      rw [hnext]
      constructor
      case filling =>
        intro _ _
        use hg
        simp only
        rw [htail, List.getLast?_eq_getElem?, ← hlen, Nat.add_sub_cancel]
      case opened => exact fun hne => absurd hhead hne
      case head =>
        intro q hq
        cases hhead.symm.trans hq
      case link =>
        intro q hq
        cases hq
      case unlinked => exact fun hne => absurd hhead hne
      case marked => exact fun hne => absurd hhead hne
      case apart =>
        intro _ _ hmark
        cases hmark

variable [DecidableEq ι]

/-- Each access of a snapshot keeps what the thread knows. One that loads the tail when the
queue is empty sees this. -/
theorem snapshot_spec {pc pc' : Snapshot} {t : Tag} (h : Fits s a) (hpc : pc.Knows i (s, a))
    (hs : snapshot s pc = some (pc', t)) :
  HistoryStep i (s, a) (s, a.next i t) ∧ pc'.Knows i (s, a.next i t) ∧
    (t = .silent ∨ t = .loadTail) ∧
    Phase.Step .none (items s a) (.removing (pc.saw (a.saw i))) (items s (a.next i t))
      (.removing (pc'.saw ((a.next i t).saw i)))
  := by
  cases pc with
  | loadHead n =>
      cases hs
      exact ⟨.stay _, le_rfl, Or.inl rfl, .same _ _⟩
  | loadTail hd n =>
      have hsaw : (a.see i).saw i = decide (a.nodes.length ≤ a.removed) := Function.update_self ..
      have hsee : ∀ {b : Bool}, Phase.Step .none (items s a) (.removing b) (items s (a.see i))
          (.removing ((a.see i).saw i)) := by
        intro b
        change Phase.Step .none (items s a) (.removing b) (items s a) _
        rw [hsaw]
        by_cases hle : a.nodes.length ≤ a.removed
        · rw [items_eq_nil.mpr hle, decide_eq_true hle]
          apply Phase.Step.see
        · rw [decide_eq_false hle]
          apply Phase.Step.forget
      simp only [snapshot] at hs
      split at hs
      case isTrue hne =>
        cases hs
        obtain ⟨p, hp⟩ := Option.ne_none_iff_exists'.mp hne
        exact ⟨.see, ⟨hpc, le_rfl, a.tail, h.tailAt hp⟩, Or.inr rfl, hsee⟩
      case isFalse hnull =>
        cases hs
        have hnull := not_not.mp hnull
        refine ⟨.see, ⟨hpc, le_rfl, ?_, fun hne => absurd hnull hne⟩, Or.inr rfl, hsee⟩
        intro _ heq
        simp only at heq
        subst heq
        rcases h.tail_null hnull with ⟨hne, hg⟩ | ⟨hnone, hg⟩
        · exact ⟨fun _ => hg, fun hnone => absurd hnone hne⟩
        · refine ⟨fun hne => absurd hnone hne, fun _ => ?_⟩
          have hstage := h.stage
          rw [hg] at hstage
          exact hsaw.trans (decide_eq_true (le_of_eq hstage.1.symm))
  | loadNext hd t n =>
      obtain ⟨hh, ht, k, hk⟩ := hpc
      obtain ⟨p, hp, heq⟩ := Option.map_eq_some_iff.mp hs
      cases heq
      refine ⟨.stay _, ⟨hh, ht, fun hnull => ?_, fun _ => ⟨k, hk, ?_⟩⟩, Or.inl rfl, .same _ _⟩
      · cases hnull.symm.trans hp
      · intro htail hhead
        simp only at htail hhead
        subst htail hhead
        rw [h.at_tail hk]
        apply h.view hp
  | checkTail hd t n =>
      obtain ⟨hh, ht, hnull, hview⟩ := hpc
      simp only [snapshot] at hs
      split at hs
      case isTrue heq =>
        cases hs
        refine ⟨.stay _, ⟨hh, le_rfl, heq ▸ hnull, fun hne => ?_⟩, Or.inl rfl, .same _ _⟩
        obtain ⟨k, hk, hv⟩ := hview (heq ▸ hne)
        exact ⟨k, heq ▸ hk, fun hhead => heq ▸ hv heq hhead⟩
      case isFalse =>
        cases hs
        exact ⟨.stay _, hh, Or.inl rfl, .forget _ _⟩
  | checkHead hd t n =>
      obtain ⟨hh, ht, hnull, hview⟩ := hpc
      simp only [snapshot] at hs
      split at hs
      case isTrue heq =>
        cases hs
        refine ⟨.stay _, ⟨le_rfl, ht, fun htn hhn _ => ?_, fun htn hhn => ?_, fun hne => ?_⟩,
          Or.inl rfl, .same _ _⟩
        · exact (hnull htn heq).1 (heq ▸ hhn)
        · use (hnull htn heq).2 (heq ▸ hhn)
          intro htail
          rcases h.tail_null (show s.tail.ptr = none from htail ▸ htn) with ⟨hne, -⟩ | ⟨-, hg⟩
          · exact absurd hhn hne
          · exact hg
        · obtain ⟨k, hk, hv⟩ := hview hne
          exact ⟨k, hk, heq ▸ hv heq⟩
      case isFalse =>
        cases hs
        exact ⟨.stay _, trivial, Or.inl rfl, .forget _ _⟩
  | done hd t n => cases hs

end snapshot

/-! ### What a thread knows at each point -/

/-- The states `determineState` tells apart. -/
inductive InState (h t n : Pointer) : ℕ → Prop where
  | one (hh : h.ptr ≠ none) (ht : t.ptr ≠ none) (hne : h.ptr ≠ t.ptr) (hn : n.ptr = none) :
      InState h t n 1
  | two (hh : h.ptr ≠ none) (ht : t.ptr ≠ none) (hne : h.ptr ≠ t.ptr) (hn : n.ptr ≠ none) :
      InState h t n 2
  | three (hh : h.ptr ≠ none) (ht : t.ptr ≠ none) (heq : h.ptr = t.ptr) (hn : n.ptr = none)
      (hm : n.count.mark ≠ DEQ) : InState h t n 3
  | four (hh : h.ptr ≠ none) (ht : t.ptr ≠ none) (hn : n.ptr = none) (hm : n.count.mark = DEQ) :
      InState h t n 4
  | five (hh : h.ptr ≠ none) (ht : t.ptr ≠ none) (hn : n.ptr ≠ none) : InState h t n 5
  | six (hh : h.ptr ≠ none) (ht : t.ptr = none) : InState h t n 6
  | seven (hh : h.ptr = none) (ht : t.ptr = none) : InState h t n 7
  | eight (hh : h.ptr = none) (ht : t.ptr ≠ none) : InState h t n 8

theorem determineState_inState (h t n : Pointer) :
  InState h t n (determineState h t n)
  := by
  rw [determineState]
  split
  case isTrue heq =>
    have ht : t.ptr ≠ none := heq.2 ▸ heq.1
    split
    case isTrue hn =>
      split
      case isTrue hm => exact .four heq.1 ht hn hm
      case isFalse hm => exact .three heq.1 ht heq.2 hn hm
    case isFalse hn => exact .five heq.1 ht hn
  case isFalse hne =>
    split
    case isTrue hb =>
      split
      case isTrue hn => exact .one hb.1 hb.2.1 hb.2.2 hn
      case isFalse hn => exact .two hb.1 hb.2.1 hb.2.2 hn
    case isFalse hb =>
      by_cases hh : h.ptr = none
      · by_cases ht : t.ptr = none
        · simp only [hh, ht, and_self, if_true]
          exact .seven hh ht
        · simp only [hh, ht, and_false, ne_eq, not_true, if_false, not_false_iff, and_self,
            if_true]
          exact .eight hh ht
      · by_cases ht : t.ptr = none
        · simp only [hh, ht, false_and, ne_eq, not_false_iff, and_self, if_true, if_false]
          exact .six hh ht
        · exact absurd ⟨hh, ht, fun heq => hne ⟨hh, heq⟩⟩ hb

/-- Thread `i` owns the object `object` with data `item`, which is not in the list. -/
def Owns (i : ι) (x : Shared V × History ι) (item : V) (object : ℕ) : Prop :=
  x.2.owner object = some i ∧ object ∉ x.2.nodes ∧ (x.1.object object).data = item

/-- Moreover the object is ready to be linked. -/
def Holds (i : ι) (x : Shared V × History ι) (item : V) (object : ℕ) : Prop :=
  Owns i x item object ∧ (x.1.object object).nextobject = .unlinked

/-- What is known from having seen the queue marked. -/
def Marked (x : Shared V × History ι) (h t : Pointer) : Prop :=
  Older h x.1.head ∧ Older t x.1.tail ∧ (x.1.tail = t → x.2.stage = .marked) ∧
    (x.1.head = h → (x.2.stage = .marked ∧ x.1.tail = t) ∨ x.2.stage = .draining)

/-- What is known from having seen the head `h` while the queue was draining. -/
def Drained (x : Shared V × History ι) (h : Pointer) : Prop :=
  Older h x.1.head ∧ (x.1.head = h → x.2.stage = .draining)

/-- What is known from having seen the head `h` while the queue was filling with `q`. -/
def Filled (x : Shared V × History ι) (h : Pointer) (q : Option ℕ) : Prop :=
  Older h x.1.head ∧ (x.1.head = h → x.2.stage = .filling ∧ x.2.nodes.getLast? = q)

/-- Thread `i` has dequeued the object at position `k`. -/
def Taken (i : ι) (x : Shared V × History ι) (object : Option ℕ) (k : ℕ) : Prop :=
  ∃ p, object = some p ∧ x.2.owner p = some i ∧ x.2.nodes[k]? = some p ∧ k < x.2.removed ∧
    (x.1.object p).nextobject.count.counter = 1

/-- Thread `i` has dequeued an object, and the tail has left it. -/
def Passed (i : ι) (x : Shared V × History ι) (object : Option ℕ) : Prop :=
  ∃ k, Taken i x object k ∧ ¬ (x.2.stage = .marked ∧ x.2.tail = k)

/-- What thread `i` knows at each point of `enqueue`. -/
def Enqueue.Knows (i : ι) (x : Shared V × History ι) : Enqueue V → Prop
  | .new _ => True
  | .storeNext item object => Owns i x item object
  | .snapshot item object pc => Holds i x item object ∧ pc.Knows i x
  | .link item object t n =>
      Holds i x item object ∧ n = .unlinked ∧ ∃ k, TailAt x t k ∧ k < x.2.opened
  | .swing _ object t => ∃ k, TailAt x t k ∧ x.2.nodes[k + 1]? = some object
  | .shiftTail item object t n =>
      Holds i x item object ∧ ∃ k q, TailAt x t k ∧ n.ptr = some q ∧ x.2.nodes[k + 1]? = some q
  | .drainTail item object h t => Holds i x item object ∧ Marked x h t
  | .drainHead item object h => Holds i x item object ∧ Drained x h
  | .fillTail item object h t => Holds i x item object ∧ Older h x.1.head ∧ Older t x.1.tail ∧
      (x.1.tail = t → x.2.stage = .empty)
  | .fill _ object h => Filled x h (some object)
  | .fillHead item object h t => Holds i x item object ∧ Filled x h t.ptr
  | .done _ => True

/-- What thread `i` knows at each point of `dequeue`. -/
def Dequeue.Knows (i : ι) (x : Shared V × History ι) : Dequeue V → Prop
  | .snapshot _ pc => pc.Knows i x
  | .loadHeadNext _ h => Older h x.1.head ∧
      ∃ m p, h.ptr = some p ∧ x.2.nodes[m]? = some p ∧ m < x.2.tail
  | .shiftHead _ h next => Older h x.1.head ∧
      ∃ m p, h.ptr = some p ∧ x.2.nodes[m]? = some p ∧ m < x.2.tail ∧
        (x.1.head = h → ∃ q, next = some q ∧ x.2.nodes[m + 1]? = some q)
  | .mark _ h t n => Older h x.1.head ∧ Older t x.1.tail ∧ n = .unlinked ∧ h.ptr = t.ptr ∧
      ∃ k, TailAt x t k ∧ k < x.2.opened ∧ k ≤ x.2.removed
  | .markTail _ object h t => Marked x h t ∧ ∃ k, TailAt x t k ∧ Taken i x object k
  | .markHead _ object h => Drained x h ∧ Passed i x object
  | .drainTail _ h t => Marked x h t
  | .drainHead _ h => Drained x h
  | .loadTailNext _ t => Older t x.1.tail ∧ ∃ k q, TailAt x t k ∧ x.2.nodes[k + 1]? = some q
  | .shiftTail _ t next => Older t x.1.tail ∧
      ∃ k q, TailAt x t k ∧ x.2.nodes[k + 1]? = some q ∧ (x.1.tail = t → next = some q)
  | .fillHead _ h t => Filled x h t.ptr
  | .delinkLoad _ object => Passed i x (some object)
  | .delinkStore _ object oldNext => Passed i x (some object) ∧ oldNext.count.counter = 1
  | .readData _ object => object ∈ x.2.nodes
  | .refused _ => True
  | .done _ => True

/-- What thread `i` knows about its own position. -/
def Knows (i : ι) (x : Shared V × History ι) : Option (Local V) → Prop
  | none => True
  | some (.enqueue pc) => pc.Knows i x
  | some (.dequeue pc) => pc.Knows i x

/-- The phase of a dequeue with a dequeued object. -/
def taken (s : Shared V) : Option ℕ → Phase V
  | none => .removing true
  | some p => .removed (s.object p).data

/-- The phase of a call of thread `i`. -/
def phase (i : ι) (x : Shared V × History ι) : Local V → Phase V
  | .enqueue (.swing item _ _) | .enqueue (.fill item _ _) | .enqueue (.done item) =>
      .appended item
  | .enqueue (.new item) | .enqueue (.storeNext item _) | .enqueue (.snapshot item _ _)
  | .enqueue (.link item _ _ _) | .enqueue (.shiftTail item _ _ _)
  | .enqueue (.drainTail item _ _ _) | .enqueue (.drainHead item _ _)
  | .enqueue (.fillTail item _ _ _) | .enqueue (.fillHead item _ _ _) => .appending item
  | .dequeue (.snapshot _ pc) => .removing (pc.saw (x.2.saw i))
  | .dequeue (.markTail _ object _ _) | .dequeue (.markHead _ object _) => taken x.1 object
  | .dequeue (.delinkLoad _ object) | .dequeue (.delinkStore _ object _)
  | .dequeue (.readData _ object) => taken x.1 (some object)
  | .dequeue (.done item) => .removed item
  | .dequeue (.refused _) => .removing true
  | .dequeue _ => .removing false

section keep

variable {i : ι} {x x' : Shared V × History ι} {h t : Pointer}

theorem Owns.keep {item : V} {object : ℕ} (ho : Owns i x item object) (hg : Grows i x x') :
  Owns i x' item object
  := by
  obtain ⟨howner, hmem, hdata⟩ := ho
  obtain ⟨howner', hobject, hmem'⟩ := hg.owner object howner
  exact ⟨howner', fun h => hmem (hmem' h), hobject ▸ hdata⟩

theorem Holds.keep {item : V} {object : ℕ} (ho : Holds i x item object) (hg : Grows i x x') :
  Holds i x' item object
  := by
  obtain ⟨-, hobject, -⟩ := hg.owner object ho.1.1
  exact ⟨ho.1.keep hg, hobject ▸ ho.2⟩

theorem Marked.keep (hm : Marked x h t) (hg : Grows i x x') :
  Marked x' h t
  := by
  obtain ⟨hh, ht, htail, hhead⟩ := hm
  exact ⟨hh.keepHead hg, ht.keepTail hg, marked_keep ht hg htail, drained_keep hh hg hhead⟩

theorem Drained.keep (hd : Drained x h) (hg : Grows i x x') :
  Drained x' h
  := ⟨hd.1.keepHead hg, draining_keep hd.1 hg hd.2⟩

theorem Filled.keep {q : Option ℕ} (hf : Filled x h q) (hg : Grows i x x') :
  Filled x' h q
  := ⟨hf.1.keepHead hg, filling_keep hf.1 hg hf.2⟩

theorem Taken.keep {object : Option ℕ} {k : ℕ} (ht : Taken i x object k) (hg : Grows i x x') :
  Taken i x' object k
  := by
  obtain ⟨p, rfl, howner, hk, hlt, hcounter⟩ := ht
  obtain ⟨howner', hobject, -⟩ := hg.owner p howner
  exact ⟨p, rfl, howner', hg.getElem? hk, lt_of_lt_of_le hlt hg.removed, hobject ▸ hcounter⟩

theorem Passed.keep {object : Option ℕ} (hp : Passed i x object) (hg : Grows i x x') :
  Passed i x' object
  := by
  obtain ⟨k, ht, hne⟩ := hp
  refine ⟨k, ht.keep hg, ?_⟩
  rintro ⟨hstage, htail⟩
  obtain ⟨-, -, -, -, hlt, -⟩ := ht
  exact hne (hg.unmarked k hlt hstage htail)

theorem Enqueue.Knows.keep {pc : Enqueue V} (hpc : pc.Knows i x) (hg : Grows i x x') :
  pc.Knows i x'
  := by
  cases pc with
  | new item => trivial
  | storeNext item object => exact Owns.keep hpc hg
  | snapshot item object pc => exact ⟨hpc.1.keep hg, hpc.2.keep hg⟩
  | link item object t n =>
      obtain ⟨ho, hn, k, ht, hopened⟩ := hpc
      exact ⟨ho.keep hg, hn, k, ht.keep hg, lt_of_lt_of_le hopened hg.opened⟩
  | swing item object t =>
      obtain ⟨k, ht, hk⟩ := hpc
      exact ⟨k, ht.keep hg, hg.getElem? hk⟩
  | shiftTail item object t n =>
      obtain ⟨ho, k, q, ht, hn, hk⟩ := hpc
      exact ⟨ho.keep hg, k, q, ht.keep hg, hn, hg.getElem? hk⟩
  | drainTail item object h t => exact ⟨hpc.1.keep hg, hpc.2.keep hg⟩
  | drainHead item object h => exact ⟨hpc.1.keep hg, hpc.2.keep hg⟩
  | fillTail item object h t =>
      obtain ⟨ho, hh, ht, he⟩ := hpc
      exact ⟨ho.keep hg, hh.keepHead hg, ht.keepTail hg, empty_keep ht hg he⟩
  | fill item object h => exact Filled.keep hpc hg
  | fillHead item object h t => exact ⟨hpc.1.keep hg, hpc.2.keep hg⟩
  | done item => trivial

theorem Dequeue.Knows.keep {pc : Dequeue V} (hpc : pc.Knows i x) (hg : Grows i x x') :
  pc.Knows i x'
  := by
  cases pc with
  | snapshot item pc => exact Snapshot.Knows.keep hpc hg
  | loadHeadNext item h =>
      obtain ⟨hh, m, p, hp, hm, hlt⟩ := hpc
      exact ⟨hh.keepHead hg, m, p, hp, hg.getElem? hm, lt_of_lt_of_le hlt hg.tail⟩
  | shiftHead item h next =>
      obtain ⟨hh, m, p, hp, hm, hlt, hq⟩ := hpc
      refine ⟨hh.keepHead hg, m, p, hp, hg.getElem? hm, lt_of_lt_of_le hlt hg.tail, ?_⟩
      intro heq
      obtain ⟨q, hnext, hq⟩ := hq (hh.head_eq hg heq)
      exact ⟨q, hnext, hg.getElem? hq⟩
  | mark item h t n =>
      obtain ⟨hh, ht, hn, heq, k, hk, hopened, hr⟩ := hpc
      exact ⟨hh.keepHead hg, ht.keepTail hg, hn, heq, k, hk.keep hg,
        lt_of_lt_of_le hopened hg.opened, hr.trans hg.removed⟩
  | markTail item object h t =>
      obtain ⟨hm, k, ht, hk⟩ := hpc
      exact ⟨hm.keep hg, k, ht.keep hg, hk.keep hg⟩
  | markHead item object h => exact ⟨hpc.1.keep hg, hpc.2.keep hg⟩
  | drainTail item h t => exact Marked.keep hpc hg
  | drainHead item h => exact Drained.keep hpc hg
  | loadTailNext item t =>
      obtain ⟨ht, k, q, hk, hq⟩ := hpc
      exact ⟨ht.keepTail hg, k, q, hk.keep hg, hg.getElem? hq⟩
  | shiftTail item t next =>
      obtain ⟨ht, k, q, hk, hq, hnext⟩ := hpc
      exact ⟨ht.keepTail hg, k, q, hk.keep hg, hg.getElem? hq,
        fun heq => hnext (ht.tail_eq hg heq)⟩
  | fillHead item h t => exact Filled.keep hpc hg
  | delinkLoad item object => exact Passed.keep hpc hg
  | delinkStore item object oldNext => exact ⟨hpc.1.keep hg, hpc.2⟩
  | readData item object => exact hg.nodes.subset hpc
  | refused item => trivial
  | done item => trivial

end keep

/-! ### The steps of the two operations -/

section spec

variable {i : ι} {s s' : Shared V} {a : History ι} {h t n : Pointer} {k m p q : ℕ}

/-- Who takes the tail of a marked queue to null may then take the head to null. -/
theorem Marked.drain_eq (hm : Marked (s, a) h t) :
  Drained ({ s with tail := s.tail.shift none }, a.enter .draining) h
  := ⟨hm.1, fun _ => rfl⟩

/-- So may who finds that the tail has changed. -/
theorem Marked.drain_ne (hm : Marked (s, a) h t) (hne : s.tail ≠ t) :
  Drained (s, a) h
  := by
  obtain ⟨hh, -, -, hhead⟩ := hm
  use hh
  intro heq
  rcases hhead heq with ⟨-, htail⟩ | hd
  · exact absurd htail hne
  · exact hd

/-- A tail that is followed by an object belongs to a normal queue. -/
theorem Fits.normal_of_tail (hf : Fits s a) (ht : TailAt (s, a) s.tail k)
    (hq : a.nodes[k + 1]? = some q) :
  k = a.tail ∧ a.stage = .normal ∧ a.nodes[a.tail + 1]? = some q
  := by
  obtain rfl := hf.at_tail ht
  refine ⟨rfl, ?_, hq⟩
  obtain ⟨p, hp, -⟩ := ht
  obtain ⟨-, htail⟩ := hf.tail_inv hp
  obtain ⟨hlt, -⟩ := List.getElem?_eq_some_iff.mp hq
  have hstage := hf.stage
  cases hg : a.stage with
  | normal => rfl
  | marked | filling =>
      rw [hg] at hstage
      obtain ⟨-, hlen, -⟩ := hstage
      omega
  | draining | empty =>
      rw [hg] at htail
      cases htail

/-- A head that is behind the tail belongs to a normal queue. -/
theorem Fits.normal_of_head (hf : Fits s a) (hp : s.head.ptr = some p)
    (hm : a.nodes[m]? = some p) (hlt : m < a.tail) :
  m = a.removed ∧ a.stage = .normal
  := by
  have hstage := hf.stage
  cases hg : a.stage with
  | normal =>
      rw [hg] at hstage
      obtain ⟨-, -, -, hhead, -⟩ := hstage
      exact ⟨hf.position hm (hhead.symm.trans hp), rfl⟩
  | marked =>
      rw [hg] at hstage
      obtain ⟨-, -, hhead, -⟩ := hstage
      exact absurd hlt (hf.position hm (hhead.symm.trans hp) ▸ Nat.lt_irrefl _)
  | draining =>
      rw [hg] at hstage
      obtain ⟨-, -, hhead, -⟩ := hstage
      exact absurd hlt (hf.position hm (hhead.symm.trans hp) ▸ Nat.lt_irrefl _)
  | empty =>
      rw [hg] at hstage
      obtain ⟨-, -, hhead, -⟩ := hstage
      cases hhead.symm.trans hp
  | filling =>
      rw [hg] at hstage
      obtain ⟨-, -, hhead, -⟩ := hstage
      cases hhead.symm.trans hp

/-- What a thread needs to take the head of a filling queue to its object. -/
theorem Filled.target {r : Option ℕ} (hfill : Filled (s, a) s.head r) (hf : Fits s a) :
  a.stage = .filling ∧ ∃ q, r = some q ∧ a.nodes[a.tail]? = some q
  := by
  obtain ⟨hg, hlast⟩ := hfill.2 rfl
  use hg
  have hstage := hf.stage
  rw [hg] at hstage
  obtain ⟨-, hlen, -⟩ := hstage
  simp only [List.getLast?_eq_getElem?, ← hlen, Nat.add_sub_cancel] at hlast
  have hlt : a.tail < a.nodes.length := by omega
  exact ⟨_, hlast ▸ List.getElem?_eq_getElem hlt, List.getElem?_eq_getElem hlt⟩

/-- The switch of `enqueue` keeps what the thread knows. -/
theorem Enqueue.switch_knows {item : V} {object : ℕ} (ho : Holds i (s, a) item object)
    (hd : (Snapshot.done h t n).Knows i (s, a)) :
  (Enqueue.switch item object h t n).Knows i (s, a)
  := by
  obtain ⟨hh, ht, hdrain, hempty, hview⟩ := hd
  have hst := determineState_inState h t n
  rw [Enqueue.switch]
  generalize determineState h t n = st at hst
  cases hst with
  | one hhn htn hne hn =>
      obtain ⟨k, hk, hv⟩ := hview htn
      exact ⟨ho, hv.unlinked hhn hn (hv.apart hne hn), k, hk, hv.opened hhn⟩
  | two hhn htn hne hn =>
      obtain ⟨k, hk, hv⟩ := hview htn
      obtain ⟨q, hq⟩ := Option.ne_none_iff_exists'.mp hn
      exact ⟨ho, k, q, hk, hq, hv.link q hq⟩
  | three hhn htn heq hn hm =>
      obtain ⟨k, hk, hv⟩ := hview htn
      exact ⟨ho, hv.unlinked hhn hn hm, k, hk, hv.opened hhn⟩
  | four hhn htn hn hm =>
      obtain ⟨k, hk, hv⟩ := hview htn
      obtain ⟨-, htail, hhead⟩ := hv.marked hhn hn hm
      exact ⟨ho, hh, ht, htail, hhead⟩
  | five hhn htn hn =>
      obtain ⟨k, hk, hv⟩ := hview htn
      obtain ⟨q, hq⟩ := Option.ne_none_iff_exists'.mp hn
      exact ⟨ho, k, q, hk, hq, hv.link q hq⟩
  | six hhn htn => exact ⟨ho, hh, hdrain htn hhn⟩
  | seven hhn htn => exact ⟨ho, hh, ht, (hempty htn hhn).2⟩
  | eight hhn htn =>
      obtain ⟨k, hk, hv⟩ := hview htn
      exact ⟨ho, hh, hv.filling hhn⟩

theorem Enqueue.switch_phase {item : V} {object : ℕ} (x : Shared V × History ι) :
  phase i x (.enqueue (.switch item object h t n)) = .appending item
  := by
  have hst := determineState_inState h t n
  rw [Enqueue.switch]
  generalize determineState h t n = st at hst
  cases hst <;> rfl

theorem Enqueue.after_knows {item : V} {object : ℕ} {pc : Snapshot}
    (ho : Holds i (s, a) item object) (hpc : pc.Knows i (s, a)) :
  (Enqueue.afterSnapshot item object pc).Knows i (s, a)
  := by
  cases pc with
  | done h t n => apply Enqueue.switch_knows ho hpc
  | loadHead | loadTail | loadNext | checkTail | checkHead => exact ⟨ho, hpc⟩

theorem Enqueue.after_phase {item : V} {object : ℕ} {pc : Snapshot} (x : Shared V × History ι) :
  phase i x (.enqueue (.afterSnapshot item object pc)) = .appending item
  := by
  cases pc with
  | done h t n => apply Enqueue.switch_phase
  | loadHead | loadTail | loadNext | checkTail | checkHead => rfl

/-- The switch of `dequeue` keeps what the thread knows. -/
theorem Dequeue.switch_knows {item : V} (hf : Fits s a)
    (hd : (Snapshot.done h t n).Knows i (s, a)) :
  (Dequeue.switch item h t n).Knows i (s, a)
  := by
  obtain ⟨hh, ht, hdrain, hempty, hview⟩ := hd
  have hst := determineState_inState h t n
  -- a head that differs from the tail is behind it
  have hbehind : h.ptr ≠ none → t.ptr ≠ none → h.ptr ≠ t.ptr → Older h s.head ∧
      ∃ m p, h.ptr = some p ∧ a.nodes[m]? = some p ∧ m < a.tail := by
    intro hhn htn hne
    obtain ⟨k, ⟨q, hq, hk, hkt, -⟩, hv⟩ := hview htn
    obtain ⟨p, hp⟩ := Option.ne_none_iff_exists'.mp hhn
    obtain ⟨m, hm, hmk, -⟩ := hv.head p hp
    have hne' : m ≠ k := by
      rintro rfl
      exact hne (hp.trans (hm.symm.trans (hk.trans hq.symm)))
    exact ⟨hh, m, p, hp, hm, lt_of_lt_of_le (lt_of_le_of_ne hmk hne') hkt⟩
  rw [Dequeue.switch]
  generalize determineState h t n = st at hst
  cases hst with
  | one hhn htn hne hn => exact hbehind hhn htn hne
  | two hhn htn hne hn => exact hbehind hhn htn hne
  | three hhn htn heq hn hm =>
      obtain ⟨k, hk, hv⟩ := hview htn
      obtain ⟨p, hp⟩ := Option.ne_none_iff_exists'.mp hhn
      obtain ⟨m, hpm, -, hmr⟩ := hv.head p hp
      refine ⟨hh, ht, hv.unlinked hhn hn hm, heq, k, hk, hv.opened hhn, ?_⟩
      obtain ⟨q, hq, hqk, -⟩ := hk
      obtain rfl : p = q := Option.some.inj (hp.symm.trans (heq.trans hq))
      rwa [hf.position hqk hpm]
  | four hhn htn hn hm =>
      obtain ⟨k, hk, hv⟩ := hview htn
      obtain ⟨-, htail, hhead⟩ := hv.marked hhn hn hm
      exact ⟨hh, ht, htail, hhead⟩
  | five hhn htn hn =>
      obtain ⟨k, hk, hv⟩ := hview htn
      obtain ⟨q, hq⟩ := Option.ne_none_iff_exists'.mp hn
      exact ⟨ht, k, q, hk, hv.link q hq⟩
  | six hhn htn => exact ⟨hh, hdrain htn hhn⟩
  | seven hhn htn => trivial
  | eight hhn htn =>
      obtain ⟨k, hk, hv⟩ := hview htn
      exact ⟨hh, hv.filling hhn⟩

theorem Dequeue.switch_phase {item : V} {l : List V} (hd : (Snapshot.done h t n).Knows i (s, a)) :
  Phase.Step .none l (.removing (a.saw i)) l (phase i (s, a) (.dequeue (.switch item h t n)))
  := by
  obtain ⟨-, -, -, hempty, -⟩ := hd
  have hst := determineState_inState h t n
  rw [Dequeue.switch]
  generalize determineState h t n = st at hst
  cases hst with
  | seven hhn htn =>
      rw [show a.saw i = true from (hempty htn hhn).1]
      apply Phase.Step.same
  | one | two | three | four | five | six | eight => apply Phase.Step.forget

theorem Dequeue.after_knows {item : V} {pc : Snapshot} (hf : Fits s a)
    (hpc : pc.Knows i (s, a)) :
  (Dequeue.afterSnapshot item pc).Knows i (s, a)
  := by
  cases pc with
  | done h t n => apply Dequeue.switch_knows hf hpc
  | loadHead | loadTail | loadNext | checkTail | checkHead => exact hpc

theorem Dequeue.after_phase {item : V} {l : List V} {pc : Snapshot} (hpc : pc.Knows i (s, a)) :
  Phase.Step .none l (.removing (pc.saw (a.saw i))) l
    (phase i (s, a) (.dequeue (.afterSnapshot item pc)))
  := by
  cases pc with
  | done h t n => apply Dequeue.switch_phase hpc
  | loadHead | loadTail | loadNext | checkTail | checkHead => apply Phase.Step.same

variable [DecidableEq ι] {g : Tag}

/-- Each access of `enqueue` keeps the history and what the thread knows; those that link
the object or fill an empty queue append its data. -/
theorem enqueue_spec {pc pc' : Enqueue V} (hf : Fits s a) (hpc : pc.Knows i (s, a))
    (hs : enqueue s pc = some (s', pc', g)) :
  HistoryStep i (s, a) (s', a.next i g) ∧ pc'.Knows i (s', a.next i g) ∧
    Phase.Step (effect g) (items s a) (phase i (s, a) (.enqueue pc)) (items s' (a.next i g))
      (phase i (s', a.next i g) (.enqueue pc'))
  := by
  cases pc with
  | new item =>
      cases hs
      have hfresh : s.fresh ∉ a.nodes := fun hmem => Nat.lt_irrefl _ (hf.below _ hmem)
      have hdata : ∀ p ∈ a.nodes, ((s.setObject s.fresh ⟨item, .default⟩).object p).data =
          (s.object p).data := by
        intro p hp
        have hne : p ≠ s.fresh := ne_of_lt (hf.below p hp)
        exact congrArg Object.data (setObject_of_ne hne _)
      refine ⟨.new _, ⟨give_self _, hfresh, ?_⟩, ?_⟩
      · exact congrArg Object.data (setObject_self _)
      · exact .keep (items_keep hdata rfl rfl) _
  | storeNext item object =>
      cases hs
      obtain ⟨howner, hmem, hdata⟩ := hpc
      refine ⟨.write howner (fun h => absurd h hmem) ?_, ⟨⟨⟨howner, hmem, ?_⟩, ?_⟩, trivial⟩, ?_⟩
      · intro _ htail
        exact hmem (List.mem_of_getElem? htail)
      · exact (setNext_data _).trans hdata
      · apply setNext_self
      · exact .keep (items_keep (fun _ _ => setNext_data _) rfl rfl) _
  | snapshot item object pc =>
      obtain ⟨ho, hpc⟩ := hpc
      obtain ⟨⟨pc₁, g₁⟩, hs, heq⟩ := Option.map_eq_some_iff.mp hs
      cases heq
      obtain ⟨hstep, hpc₁, hg, -⟩ := snapshot_spec hf hpc hs
      rw [Enqueue.after_phase]
      rcases hg with rfl | rfl
      · exact ⟨hstep, Enqueue.after_knows ho hpc₁, .same _ _⟩
      · exact ⟨hstep, Enqueue.after_knows (a := a.see i) ho hpc₁, .same _ _⟩
  | link item object t n =>
      obtain ⟨ho, rfl, k, ⟨p, hp, hk, hkt, htail⟩, hopened⟩ := hpc
      obtain ⟨⟨howner, hmem, hdata⟩, hnext⟩ := ho
      simp only [enqueue, hp, Option.map_some, Option.some.injEq] at hs
      split at hs
      case isTrue hnull =>
        cases hs
        obtain ⟨hle, hlast⟩ := hf.unlinked hk hnull
        obtain ⟨hlt, -⟩ := List.getElem?_eq_some_iff.mp hk
        refine ⟨.link hk hnull hopened hkt howner hmem hnext, ⟨k, ⟨p, hp, ?_, hkt, htail⟩, ?_⟩, ?_⟩
        · exact (List.getElem?_append_left hlt).trans hk
        · rw [hlast]
          apply List.getElem?_concat_length
        · rw [← hdata]
          apply Phase.Step.appendTo
          exact items_append (b := a.link object) (fun _ _ => setNext_data _) (setNext_data _) rfl
            rfl (hle.trans (le_of_lt hlt))
      case isFalse =>
        cases hs
        exact ⟨.stay _, ⟨⟨⟨howner, hmem, hdata⟩, hnext⟩, trivial⟩, .same _ _⟩
  | swing item object t =>
      obtain ⟨k, ht, hk⟩ := hpc
      simp only [enqueue] at hs
      split at hs
      case isTrue heq =>
        cases hs
        subst heq
        obtain ⟨rfl, hg, hk⟩ := hf.normal_of_tail ht hk
        exact ⟨.shiftTail hg hk, trivial, .same _ _⟩
      case isFalse =>
        cases hs
        exact ⟨.stay _, trivial, .same _ _⟩
  | shiftTail item object t n =>
      obtain ⟨ho, k, q, ht, hn, hk⟩ := hpc
      simp only [enqueue] at hs
      split at hs
      case isTrue heq =>
        cases hs
        subst heq
        obtain ⟨rfl, hg, hk⟩ := hf.normal_of_tail ht hk
        rw [hn]
        exact ⟨.shiftTail hg hk, ⟨ho, trivial⟩, .same _ _⟩
      case isFalse =>
        cases hs
        exact ⟨.stay _, ⟨ho, trivial⟩, .same _ _⟩
  | drainTail item object h t =>
      obtain ⟨ho, hm⟩ := hpc
      simp only [enqueue] at hs
      split at hs
      case isTrue heq =>
        cases hs
        subst heq
        exact ⟨.drainTail (hm.2.2.1 rfl), ⟨ho, hm.drain_eq⟩, .same _ _⟩
      case isFalse hne =>
        cases hs
        exact ⟨.stay _, ⟨ho, hm.drain_ne hne⟩, .same _ _⟩
  | drainHead item object h =>
      obtain ⟨ho, hd⟩ := hpc
      simp only [enqueue] at hs
      split at hs
      case isTrue heq =>
        cases hs
        subst heq
        exact ⟨.drainHead (hd.2 rfl), ⟨ho, trivial⟩, .same _ _⟩
      case isFalse hne =>
        cases hs
        exact ⟨.stay _, ⟨ho, trivial⟩, .same _ _⟩
  | fillTail item object h t =>
      obtain ⟨⟨⟨howner, hmem, hdata⟩, hnext⟩, hh, ht, he⟩ := hpc
      simp only [enqueue] at hs
      split at hs
      case isTrue heq =>
        cases hs
        subst heq
        have hg := he rfl
        have hstage := hf.stage
        rw [hg] at hstage
        refine ⟨.fillTail hg howner hmem hnext, ⟨hh, fun _ => ⟨rfl, List.getLast?_concat⟩⟩, ?_⟩
        rw [← hdata]
        apply Phase.Step.appendTo
        exact items_append (b := a.fill object) (fun _ _ => rfl) rfl rfl rfl (le_of_eq hstage.1)
      case isFalse hne =>
        cases hs
        exact ⟨.stay _, ⟨⟨⟨howner, hmem, hdata⟩, hnext⟩, trivial⟩, .same _ _⟩
  | fill item object h =>
      simp only [enqueue] at hs
      split at hs
      case isTrue heq =>
        cases hs
        subst heq
        obtain ⟨hg, q, hq, hk⟩ := Filled.target hpc hf
        cases hq
        exact ⟨.fillHead hg hk, trivial, .same _ _⟩
      case isFalse hne =>
        cases hs
        exact ⟨.stay _, trivial, .same _ _⟩
  | fillHead item object h t =>
      obtain ⟨ho, hfill⟩ := hpc
      simp only [enqueue] at hs
      split at hs
      case isTrue heq =>
        cases hs
        subst heq
        obtain ⟨hg, q, hq, hk⟩ := hfill.target hf
        rw [hq]
        exact ⟨.fillHead hg hk, ⟨ho, trivial⟩, .same _ _⟩
      case isFalse hne =>
        cases hs
        exact ⟨.stay _, ⟨ho, trivial⟩, .same _ _⟩
  | done item => cases hs

/-- Each access of `dequeue` keeps the history and what the thread knows; those that move
the head of a normal queue or mark the only object remove the front. -/
theorem dequeue_spec {pc pc' : Dequeue V} (hf : Fits s a) (hpc : pc.Knows i (s, a))
    (hs : dequeue s pc = some (s', pc', g)) :
  HistoryStep i (s, a) (s', a.next i g) ∧ pc'.Knows i (s', a.next i g) ∧
    Phase.Step (effect g) (items s a) (phase i (s, a) (.dequeue pc)) (items s' (a.next i g))
      (phase i (s', a.next i g) (.dequeue pc'))
  := by
  cases pc with
  | snapshot item pc =>
      obtain ⟨⟨pc₁, g₁⟩, hs, heq⟩ := Option.map_eq_some_iff.mp hs
      cases heq
      obtain ⟨hstep, hpc₁, hg, hphase⟩ := snapshot_spec hf hpc hs
      have heff : effect g = .none := by
        rcases hg with rfl | rfl <;> rfl
      rw [heff]
      exact ⟨hstep, Dequeue.after_knows (hstep.fits hf) hpc₁,
        hphase.trans (Dequeue.after_phase hpc₁)⟩
  | loadHeadNext item h =>
      obtain ⟨hh, m, p, hp, hm, hlt⟩ := hpc
      simp only [dequeue, hp, Option.map_some, Option.some.injEq] at hs
      cases hs
      refine ⟨.stay _, ⟨hh, m, p, hp, hm, hlt, ?_⟩, .same _ _⟩
      rintro rfl
      obtain ⟨rfl, hg⟩ := hf.normal_of_head hp hm hlt
      have hstage := hf.stage
      rw [hg] at hstage
      obtain ⟨-, htl, -⟩ := hstage
      have hlt' : a.removed + 1 < a.nodes.length := lt_of_le_of_lt hlt htl
      have hq := List.getElem?_eq_getElem hlt'
      refine ⟨_, ?_, hq⟩
      rw [hf.next _ _ le_rfl hm, hq]
      rfl
  | shiftHead item h next =>
      obtain ⟨hh, m, p, hp, hm, hlt, hnext⟩ := hpc
      simp only [dequeue, hp] at hs
      split at hs
      case isTrue heq =>
        cases hs
        subst heq
        obtain ⟨q, rfl, hq⟩ := hnext rfl
        obtain ⟨rfl, hg⟩ := hf.normal_of_head hp hm hlt
        have hcount : (s.object p).nextobject.count.counter = 1 := by
          have hfollow := hf.next _ _ le_rfl hm
          simp only at hq
          rw [hfollow, hq]
          rfl
        refine ⟨.shiftHead hg hlt hm hq, ⟨a.removed, ?_, ?_⟩, ?_⟩
        · exact ⟨p, rfl, give_self _, hm, Nat.lt_succ_self _, hcount⟩
        · rintro ⟨hmark, -⟩
          cases hg.symm.trans hmark
        · apply Phase.Step.removeFrom
          exact items_remove (b := a.remove i (some p)) (fun _ _ => rfl) rfl rfl hm
      case isFalse =>
        cases hs
        exact ⟨.stay _, trivial, .same _ _⟩
  | mark item h t n =>
      obtain ⟨hh, ht, rfl, heq, k, ⟨p, hp, hk, hkt, htail⟩, hopened, hkr⟩ := hpc
      simp only [dequeue, hp, heq, Option.map_some, Option.some.injEq] at hs
      split at hs
      case isTrue hnull =>
        cases hs
        obtain ⟨hle, hlast⟩ := hf.unlinked hk hnull
        have hg := hf.normal hk hle hopened
        obtain rfl : k = a.removed := le_antisymm hkr hle
        have hstage := hf.stage
        rw [hg] at hstage
        obtain ⟨-, htl, -⟩ := hstage
        -- nothing is behind the object, so the tail has not moved
        have hst : s.tail = t := by
          apply htail
          · simp only at hkt ⊢
            omega
          · rw [hg]
            trivial
        refine ⟨.mark hk hnull hopened hkt hkr, ⟨⟨hh, ht, fun _ => rfl, fun _ => Or.inl ⟨rfl, hst⟩⟩,
          a.removed, ⟨p, hp, hk, hkt, fun _ _ => hst⟩, ?_⟩, ?_⟩
        · refine ⟨p, rfl, give_self _, hk, Nat.lt_succ_self _, ?_⟩
          rw [setNext_self]
          rfl
        · simp only [phase, taken, setNext_data]
          apply Phase.Step.removeFrom
          exact items_remove (b := (a.remove i (some p)).enter .marked)
            (fun _ _ => setNext_data _) rfl rfl hk
      case isFalse =>
        cases hs
        exact ⟨.stay _, trivial, .same _ _⟩
  | markTail item object h t =>
      obtain ⟨hm, k, htk, p, rfl, hown⟩ := hpc
      simp only [dequeue] at hs
      split at hs
      case isTrue heq =>
        cases hs
        subst heq
        refine ⟨.drainTail (hm.2.2.1 rfl), ⟨hm.drain_eq, k, ⟨p, rfl, hown⟩, ?_⟩, .same _ _⟩
        exact fun h => nomatch h.1
      case isFalse hne =>
        cases hs
        refine ⟨.stay _, ⟨hm.drain_ne hne, k, ⟨p, rfl, hown⟩, ?_⟩, .same _ _⟩
        rintro ⟨hmark, hk⟩
        obtain ⟨-, -, -, -, htail⟩ := htk
        have hmark : a.stage = .marked := hmark
        apply hne
        apply htail hk
        simp only [hmark]
        trivial
  | markHead item object h =>
      obtain ⟨hd, k, ⟨p, rfl, hown⟩, hpass⟩ := hpc
      simp only [dequeue] at hs
      split at hs
      case isTrue heq =>
        cases hs
        subst heq
        refine ⟨.drainHead (hd.2 rfl), ⟨k, ⟨p, rfl, hown⟩, ?_⟩, .same _ _⟩
        exact fun h => nomatch h.1
      case isFalse hne =>
        cases hs
        exact ⟨.stay _, ⟨k, ⟨p, rfl, hown⟩, hpass⟩, .same _ _⟩
  | drainTail item h t =>
      simp only [dequeue] at hs
      split at hs
      case isTrue heq =>
        cases hs
        subst heq
        exact ⟨.drainTail (hpc.2.2.1 rfl), Marked.drain_eq hpc, .same _ _⟩
      case isFalse hne =>
        cases hs
        exact ⟨.stay _, Marked.drain_ne hpc hne, .same _ _⟩
  | drainHead item h =>
      simp only [dequeue] at hs
      split at hs
      case isTrue heq =>
        cases hs
        subst heq
        exact ⟨.drainHead (hpc.2 rfl), trivial, .same _ _⟩
      case isFalse hne =>
        cases hs
        exact ⟨.stay _, trivial, .same _ _⟩
  | loadTailNext item t =>
      obtain ⟨ht, k, q, htk, hq⟩ := hpc
      have htk' := htk
      obtain ⟨p, hp, hk, -⟩ := htk'
      simp only [dequeue, hp, Option.map_some, Option.some.injEq] at hs
      cases hs
      refine ⟨.stay _, ⟨ht, k, q, htk, hq, ?_⟩, .same _ _⟩
      rintro rfl
      obtain ⟨rfl, hg, hq⟩ := hf.normal_of_tail htk hq
      have hstage := hf.stage
      rw [hg] at hstage
      rw [hf.next _ _ hstage.1 hk, hq]
      rfl
  | shiftTail item t next =>
      obtain ⟨ht, k, q, htk, hq, hnext⟩ := hpc
      simp only [dequeue] at hs
      split at hs
      case isTrue heq =>
        cases hs
        subst heq
        obtain ⟨rfl, hg, hq⟩ := hf.normal_of_tail htk hq
        rw [hnext rfl]
        exact ⟨.shiftTail hg hq, trivial, .same _ _⟩
      case isFalse =>
        cases hs
        exact ⟨.stay _, trivial, .same _ _⟩
  | fillHead item h t =>
      simp only [dequeue] at hs
      split at hs
      case isTrue heq =>
        cases hs
        subst heq
        obtain ⟨hg, q, hq, hk⟩ := Filled.target hpc hf
        rw [hq]
        exact ⟨.fillHead hg hk, trivial, .same _ _⟩
      case isFalse hne =>
        cases hs
        exact ⟨.stay _, trivial, .same _ _⟩
  | delinkLoad item object =>
      cases hs
      refine ⟨.stay _, ⟨hpc, ?_⟩, .same _ _⟩
      obtain ⟨k, ⟨p, hp, -, -, -, hcount⟩, -⟩ := hpc
      cases hp
      exact hcount
  | delinkStore item object oldNext =>
      obtain ⟨⟨k, ⟨p, hp, howner, hk, hlt, -⟩, hpass⟩, hcount⟩ := hpc
      cases hp
      cases hs
      refine ⟨.write howner ?_ ?_, List.mem_of_getElem? hk, ?_⟩
      · rw [hcount]
        exact fun _ h => nomatch h
      · intro hmark htail
        exact hpass ⟨hmark, hf.position htail hk⟩
      · simp only [phase, taken, setNext_data]
        exact .keep (items_keep (fun _ _ => setNext_data _) rfl rfl) _
  | readData item object =>
      cases hs
      exact ⟨.stay _, trivial, .same _ _⟩
  | refused item => cases hs
  | done item => cases hs

end spec

/-! ### The counters -/

section counters

variable {i : ι} {x x' : Shared V × History ι}

theorem HistoryStep.head_cases [DecidableEq ι] (h : HistoryStep i x x') :
  x'.1.head = x.1.head ∨ ∃ p, x'.1.head = x.1.head.shift p
  := by
  cases h with
  | shiftHead | drainHead | fillHead => exact Or.inr ⟨_, rfl⟩
  | _ => exact Or.inl rfl

theorem HistoryStep.tail_cases [DecidableEq ι] (h : HistoryStep i x x') :
  x'.1.tail = x.1.tail ∨ ∃ p, x'.1.tail = x.1.tail.shift p
  := by
  cases h with
  | shiftTail | drainTail | fillTail => exact Or.inr ⟨_, rfl⟩
  | _ => exact Or.inl rfl

/-- The number of changes of a pointer from `p` to `q`, after `c` changes. -/
def count (c : ℕ) (p q : Pointer) : ℕ := if q = p then c else c + 1

/-- The counter of `p` tells the number of its changes as far as it can. -/
def Counts (c : ℕ) (p : Pointer) : Prop := p.count.counter = UInt32.ofNat c

theorem Counts.next {c : ℕ} {p q : Pointer} (h : Counts c p) (hq : q = p ∨ ∃ r, q = p.shift r) :
  Counts (count c p q) q
  := by
  rcases hq with rfl | ⟨r, rfl⟩
  · rwa [count, if_pos rfl]
  · rw [count, if_neg (shift_ne p r), Counts, UInt32.ofNat_add]
    exact congrArg (· + 1) h

/-- Before it comes round, a counter goes up. -/
theorem Counts.age_lt {c : ℕ} {p q : Pointer} (h : Counts c p) (h' : Counts (count c p q) q)
    (hc : count c p q < 2 ^ 32) (hne : q ≠ p) :
  p.age < q.age
  := by
  rw [count, if_neg hne] at h' hc
  rw [Pointer.age, Pointer.age, h, h', UInt32.toNat_ofNat_of_lt' (Nat.lt_of_succ_lt hc),
    UInt32.toNat_ofNat_of_lt' hc]
  exact Nat.lt_succ_self c

end counters

/-! ### Every run with few changes is linearizable -/

/-- The memory with its history alone. -/
def history (x : Shared V × (History ι × ℕ × ℕ)) : Shared V × History ι := (x.1, x.2.1)

/-- The invariant: the history describes the memory, and the counters are right. -/
def Inv (x : Shared V × (History ι × ℕ × ℕ)) : Prop :=
  Fits x.1 x.2.1 ∧ Counts x.2.2.1 x.1.head ∧ Counts x.2.2.2 x.1.tail

theorem Inv.next [DecidableEq ι] {i : ι} {x x' : Shared V × (History ι × ℕ × ℕ)} (h : Inv x)
    (hstep : HistoryStep i (history x) (history x'))
    (hc : x'.2.2 = (count x.2.2.1 x.1.head x'.1.head, count x.2.2.2 x.1.tail x'.1.tail)) :
  Inv x'
  := by
  obtain ⟨hf, hh, ht⟩ := h
  refine ⟨hstep.fits hf, ?_, ?_⟩
  · rw [hc]
    apply hh.next hstep.head_cases
  · rw [hc]
    apply ht.next hstep.tail_cases

section run

variable [Inhabited V] [DecidableEq ι]

/-- The history of the queue and the numbers of changes of head and tail. -/
def ghost (ι V : Type) [Inhabited V] [DecidableEq ι] :
    (machine ι V).Ghost (History ι × ℕ × ℕ) where
  init := (⟨[], 0, 0, .empty, fun _ => none, fun _ => false⟩, 0, 0)
  bound a := a.2.1 < 2 ^ 32 ∧ a.2.2 < 2 ^ 32
  next i s a _ s' _ g :=
    (a.1.next i g, count a.2.1 s.head s'.head, count a.2.2 s.tail s'.tail)

/-- What each access of a thread establishes. -/
theorem step_spec {i : ι} {x x' : Shared V × (History ι × ℕ × ℕ)} {l l' : Local V} {g : Tag}
    (h : Inv x) (hl : Knows i (history x) (some l))
    (hs : ((machine ι V).withGhost (ghost ι V)).step i () x l = some (x', l', g)) :
  HistoryStep i (history x) (history x') ∧ Knows i (history x') (some l') ∧
    Phase.Step (effect g) (items x.1 x.2.1) (phase i (history x) l) (items x'.1 x'.2.1)
      (phase i (history x') l') ∧
    x'.2.2 = (count x.2.2.1 x.1.head x'.1.head, count x.2.2.2 x.1.tail x'.1.tail)
  := by
  obtain ⟨hs, ha⟩ := withGhost_step.mp hs
  obtain ⟨s, a, c, d⟩ := x
  obtain ⟨s', a', c', d'⟩ := x'
  have ha : (a', c', d') = (a.next i g, count c s.head s'.head, count d s.tail s'.tail) := ha
  cases ha
  rcases step_inv hs with ⟨pc, pc', rfl, rfl, hpc⟩ | ⟨pc, pc', rfl, rfl, hpc⟩
  · obtain ⟨hstep, hpc', hphase⟩ := enqueue_spec h.1 hl hpc
    exact ⟨hstep, hpc', hphase, rfl⟩
  · obtain ⟨hstep, hpc', hphase⟩ := dequeue_spec h.1 hl hpc
    exact ⟨hstep, hpc', hphase, rfl⟩

/-- The invariant and what the threads know form a proof outline. -/
theorem outline (ι V : Type) [Inhabited V] [DecidableEq ι] :
  ((machine ι V).withGhost (ghost ι V)).Outline Inv (fun i x => Knows i (history x))
    fun j x x' => Grows j (history x) (history x')
  := by
  constructor
  case init =>
    refine ⟨⟨List.nodup_nil, ?_, ?_, ?_, ?_, rfl, le_rfl, rfl, rfl⟩, rfl, rfl⟩
    · exact fun _ h => nomatch h
    · exact fun _ _ h => nomatch h
    · exact fun _ _ _ h => nomatch h
    · exact fun _ _ h => nomatch h
  case idle =>
    intro i
    trivial
  case call =>
    intro i x o _ _ _
    cases o with
    | enqueue item => trivial
    | dequeue out => trivial
  case ret =>
    intros
    trivial
  case step =>
    intro i _ x l x' l' g h hl _ hlegal hs
    obtain ⟨hstep, hl', -, hc⟩ := step_spec h hl hs
    have h' := h.next hstep hc
    refine ⟨h', hl', fun j hj => hstep.grows h.1 hj ?_ ?_⟩
    · obtain ⟨-, hbound, -⟩ := hlegal
      have hcount := h'.2.1
      rw [hc] at hcount hbound
      exact h.2.1.age_lt hcount hbound
    · obtain ⟨-, -, hbound⟩ := hlegal
      have hcount := h'.2.2
      rw [hc] at hcount hbound
      exact h.2.2.age_lt hcount hbound
  case stable =>
    intro j x x' l _ _ hg hl
    match l with
    | none => trivial
    | some (.enqueue pc) => exact Enqueue.Knows.keep hl hg
    | some (.dequeue pc) => exact Dequeue.Knows.keep hl hg

theorem linearizes (ι V : Type) [Inhabited V] [DecidableEq ι] :
  Linearizes ((machine ι V).withGhost (ghost ι V)) effect Inv (fun i x => Knows i (history x))
    (fun x => items x.1 x.2.1) fun i x => phase i (history x)
  := by
  constructor
  case init => rfl
  case enqueue =>
    intros
    rfl
  case dequeue =>
    intros
    rfl
  case frame =>
    intro i _ x l x' l' g j l₂ h hl hs hij hl₂
    obtain ⟨hstep, -⟩ := step_spec h hl hs
    have htaken : ∀ {p : ℕ}, p ∈ x.2.1.nodes →
        (taken x'.1 (some p) : Phase V) = taken x.1 (some p) :=
      fun hp => congrArg Phase.removed (hstep.data h.1 hp)
    cases l₂ with
    | enqueue pc => cases pc <;> rfl
    | dequeue pc =>
        cases pc with
        | snapshot item pc => simp only [phase, hstep.saw hij]
        | markTail item object h t =>
            obtain ⟨-, k, -, p, rfl, -, hk, -⟩ := hl₂
            exact htaken (List.mem_of_getElem? hk)
        | markHead item object h =>
            obtain ⟨-, k, ⟨p, rfl, -, hk, -⟩, -⟩ := hl₂
            exact htaken (List.mem_of_getElem? hk)
        | delinkLoad item object =>
            obtain ⟨k, ⟨p, hp, -, hk, -⟩, -⟩ := hl₂
            cases hp
            exact htaken (List.mem_of_getElem? hk)
        | delinkStore item object oldNext =>
            obtain ⟨⟨k, ⟨p, hp, -, hk, -⟩, -⟩, -⟩ := hl₂
            cases hp
            exact htaken (List.mem_of_getElem? hk)
        | readData item object => exact htaken hl₂
        | _ => rfl
  case step =>
    intro i _ x l x' l' g h hl hs
    apply (step_spec h hl hs).2.2.1
  case result =>
    intro i x l v _ _ hv
    rcases result_eq_some ι hv with ⟨item, rfl, rfl⟩ | ⟨item, rfl, rfl⟩ | ⟨item, rfl, rfl⟩
    · exact Or.inl ⟨item, rfl, rfl⟩
    · exact Or.inr (Or.inr ⟨item, rfl, rfl⟩)
    · exact Or.inr (Or.inl ⟨item, rfl, rfl⟩)

variable {n : ℕ} (r : (machine ι V).Run n)

/-- The number of steps before step `k` that change the pointer `f` of the shared memory. -/
def changes (f : Shared V → Pointer) (k : ℕ) : ℕ :=
  ((Finset.range k).filter fun m => f (r.conf (m + 1)).shared ≠ f (r.conf m).shared).card

theorem changes_succ (f : Shared V → Pointer) (k : ℕ) :
  changes r f (k + 1) = count (changes r f k) (f (r.conf k).shared) (f (r.conf (k + 1)).shared)
  := by
  rw [changes, Finset.range_add_one, Finset.filter_insert, count]
  by_cases heq : f (r.conf (k + 1)).shared = f (r.conf k).shared
  · rw [if_neg (not_not.mpr heq), if_pos heq]
    rfl
  · rw [if_pos heq, if_neg heq, Finset.card_insert_of_notMem]
    · rfl
    · simp

theorem changes_le (f : Shared V → Pointer) {k m : ℕ} (h : k ≤ m) :
  changes r f k ≤ changes r f m
  := by
  apply Finset.card_le_card
  apply Finset.filter_subset_filter
  exact Finset.range_subset_range.mpr h

/-- The ghost counts the changes of head and tail. -/
theorem trail_changes (k : ℕ) (hk : k ≤ n) :
  (r.trail (ghost ι V) k).2 = (changes r Shared.head k, changes r Shared.tail k)
  := by
  induction k with
  | zero => rfl
  | succ k ih =>
      have ih := ih (Nat.le_of_succ_le hk)
      have hstep := r.step k hk
      rw [changes_succ, changes_succ, Run.trail]
      cases he : r.event k with
      | call o =>
          rw [he] at hstep
          obtain ⟨-, -, hc⟩ := hstep.call_inv
          rw [hc, ih]
          simp [count]
      | ret v =>
          rw [he] at hstep
          obtain ⟨_, -, -, hc⟩ := hstep.ret_inv
          rw [hc, ih]
          simp [count]
      | act g =>
          rw [he] at hstep
          obtain ⟨l, ch, s, l', hl, hs, hc⟩ := hstep.act_inv
          rw [hl, hc, Config.put_thread_self]
          change (count (r.trail (ghost ι V) k).2.1 _ _, count (r.trail (ghost ι V) k).2.2 _ _) = _
          rw [ih]

/-- When head and tail are each changed fewer than 2^32 times, the ghost keeps to its bound. -/
theorem trail_bound (hhead : changes r Shared.head n < 2 ^ 32)
    (htail : changes r Shared.tail n < 2 ^ 32) :
  ∀ k ≤ n, (ghost ι V).bound (r.trail (ghost ι V) k)
  := by
  intro k hk
  change (r.trail (ghost ι V) k).2.1 < 2 ^ 32 ∧ (r.trail (ghost ι V) k).2.2 < 2 ^ 32
  rw [trail_changes r k hk]
  exact ⟨lt_of_le_of_lt (changes_le r _ hk) hhead, lt_of_le_of_lt (changes_le r _ hk) htail⟩

/-- Every run of `PLJQueue` in which head and tail are each changed fewer than 2^32 times,
with any number of threads, is linearizable: an enqueue takes effect at the one step at
which it links its object or fills the empty queue, and a dequeue at the one step at which
it moves the head or marks the only object. -/
theorem pljQueue_linearizable (hhead : changes r Shared.head n < 2 ^ 32)
    (htail : changes r Shared.tail n < 2 ^ 32) :
  ∃ q, r.Fifo effect q
  := ⟨_, ((linearizes ι V).fifo (outline ι V)
    (r.lift (ghost ι V) (trail_bound r hhead htail))).of_lift⟩

theorem changes_le_length (f : Shared V → Pointer) (k : ℕ) :
  changes r f k ≤ k
  := by
  apply le_trans (Finset.card_filter_le _ _)
  rw [Finset.card_range]

end run

instance [Inhabited V] : DecidablePred (machine ι V).valid :=
  fun _ => inferInstanceAs (Decidable True)

instance [Inhabited V] : DecidablePred (machine ι V).legal :=
  fun _ => inferInstanceAs (Decidable True)

/-- Thread 0 enqueues 7 and thread 1 dequeues it. -/
def exchange : List (ℕ × Move (QueueOp ℕ) Unit) :=
  (0, .call (.enqueue 7)) :: List.replicate 8 (0, .act ()) ++
    (0, .ret) :: (1, .call (.dequeue 0)) :: List.replicate 11 (1, .act ()) ++ [(1, .ret)]

theorem exchange_plays :
  ((machine ℕ ℕ).play ⟨init, fun _ => none⟩ exchange).isSome
  := by decide

theorem exchange_changes (f : Shared ℕ → Pointer) :
  changes (Run.ofScript exchange trivial exchange_plays) f exchange.length < 2 ^ 32
  := by
  apply lt_of_le_of_lt (changes_le_length _ _ _)
  decide

theorem pljQueue_linearizable_exchange :
  ∃ q, (Run.ofScript exchange trivial exchange_plays).Fifo effect q
  := pljQueue_linearizable _ (exchange_changes _) (exchange_changes _)

end PLJQueue
