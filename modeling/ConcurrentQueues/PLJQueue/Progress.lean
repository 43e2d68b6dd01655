import ConcurrentQueues.PLJQueue.Shape
import ConcurrentQueues.PLJQueue.Snapshot

/-!
# PLJQueue is lock-free

An iteration of a main loop that does not finish its operation contains a successful CAS: as
long as there is none, what the thread has read stays as it is, and each of the eight states
of the queue has a branch whose CAS then succeeds. Every successful CAS is paid for by an
enqueue or a dequeue that has taken effect, whoever performs it.
-/

namespace PLJQueue

open Machine

variable {ι V : Type}

/-- The step is a CAS that has succeeded. -/
def Tag.isCas : Tag → Bool
  | .link _ | .mark _ | .shiftTail | .shiftHead _ | .drainTail | .drainHead | .fillTail _
  | .fillHead => true
  | .silent | .new _ | .loadTail | .write _ => false

/-- The step at which an enqueue takes effect. -/
def Tag.isEnqueue : Tag → Bool
  | .link _ | .fillTail _ => true
  | _ => false

/-- The step at which a dequeue takes effect. -/
def Tag.isDequeue : Tag → Bool
  | .shiftHead _ | .mark _ => true
  | _ => false

/-- The tops of the main loops of `enqueue` and `dequeue`: a thread comes there when it begins a
snapshot, which it also does within a snapshot when it reads the head again. -/
def Top : Option (Local V) → Local V → Prop
  | none, l => l.snapshot = some .start
  | some l₀, l => l.snapshot = some .start ∧ l₀.snapshot = none

/-! ### What the changes cost -/

/-- The number of changes by which the queue comes to rest. -/
def History.due (a : History ι) : ℕ :=
  match a.stage with
  | .normal => a.nodes.length - (a.tail + 1)
  | .marked => 2
  | .draining => 1
  | .empty => 0
  | .filling => 1

/-- The step is one of those that bring the queue to rest, if it is not one at which an operation
takes effect. -/
def Pays (a : History ι) : Tag → Prop
  | .shiftTail => a.stage = .normal ∧ a.tail + 1 < a.nodes.length
  | .drainTail => a.stage = .marked
  | .drainHead => a.stage = .draining
  | .fillHead => a.stage = .filling ∧ a.tail + 1 = a.nodes.length
  | _ => True

/-- Every successful CAS is paid for: an enqueue pays for two, a dequeue for three. -/
theorem due_next [DecidableEq ι] {a : History ι} {t : Tag} (i : ι) (h : Pays a t) :
  t.isCas.toNat + (a.next i t).due ≤ a.due + 2 * t.isEnqueue.toNat + 3 * t.isDequeue.toNat
  := by
  cases t with
  | silent => exact Nat.le_of_eq (Nat.zero_add _)
  | write p => exact Nat.le_of_eq (Nat.zero_add _)
  | new p => exact Nat.le_of_eq (Nat.zero_add _)
  | loadTail => exact Nat.le_of_eq (Nat.zero_add _)
  | link p =>
      cases hg : a.stage with
      | normal =>
          simp only [History.next, History.link, History.give, History.due, hg, Tag.isCas,
            Tag.isEnqueue, Tag.isDequeue, List.length_append, List.length_singleton,
            Bool.toNat_true, Bool.toNat_false]
          omega
      | _ =>
          simp only [History.next, History.link, History.give, History.due, hg, Tag.isCas,
            Tag.isEnqueue, Tag.isDequeue, Bool.toNat_true, Bool.toNat_false]
          omega
  | mark p =>
      simp only [History.next, History.enter, History.due, Tag.isCas, Tag.isEnqueue,
        Tag.isDequeue, Bool.toNat_true, Bool.toNat_false]
      omega
  | shiftHead p =>
      have hsame : (a.remove i p).due = a.due := by
        cases p with
        | none => rfl
        | some p => rfl
      simp only [History.next, hsame, Tag.isCas, Tag.isEnqueue, Tag.isDequeue, Bool.toNat_true,
        Bool.toNat_false]
      omega
  | shiftTail =>
      obtain ⟨hg, hlt⟩ := h
      simp only [History.next, History.shiftTail, History.due, hg, Tag.isCas, Tag.isEnqueue,
        Tag.isDequeue, Bool.toNat_true, Bool.toNat_false]
      omega
  | drainTail =>
      have hg : a.stage = .marked := h
      rw [History.due, History.due, hg]
      exact le_rfl
  | drainHead =>
      have hg : a.stage = .draining := h
      rw [History.due, History.due, hg]
      exact le_rfl
  | fillTail p =>
      simp only [History.next, History.fill, History.due, Tag.isCas, Tag.isEnqueue,
        Tag.isDequeue, Bool.toNat_true, Bool.toNat_false]
      omega
  | fillHead =>
      obtain ⟨hg, hlast⟩ := h
      simp only [History.next, History.enter, History.due, hg, Tag.isCas, Tag.isEnqueue,
        Tag.isDequeue, Bool.toNat_true, Bool.toNat_false]
      omega

/-! ### What an iteration has read -/

/-- What a thread has read in its present snapshot is still there. -/
def Snapshot.Fresh (s : Shared V) : Snapshot → Prop
  | .loadHead _ => True
  | .loadTail h _ => s.head = h
  | .loadNext h t _ => s.head = h ∧ s.tail = t
  | .checkTail h t next | .checkHead h t next | .done h t next =>
      s.head = h ∧ s.tail = t ∧ ∀ p, t.ptr = some p → (s.object p).nextobject = next

/-- What a thread has read in the present iteration, as far as it matters, is still there. -/
def Enqueue.Fresh (s : Shared V) : Enqueue V → Prop
  | .new _ | .storeNext _ _ => False
  | .snapshot _ _ pc => pc.Fresh s
  | .link _ _ t next => s.tail = t ∧ ∀ p, t.ptr = some p → (s.object p).nextobject = next
  | .shiftTail _ _ t _ | .drainTail _ _ _ t | .fillTail _ _ _ t => s.tail = t
  | .drainHead _ _ h | .fillHead _ _ h _ => s.head = h
  | .swing _ _ _ | .fill _ _ _ | .done _ => True

def Dequeue.Fresh (s : Shared V) : Dequeue V → Prop
  | .snapshot _ pc => pc.Fresh s
  | .loadHeadNext _ h | .shiftHead _ h _ | .drainHead _ h | .fillHead _ h _ => s.head = h
  | .mark _ _ t next => s.tail = t ∧ ∀ p, t.ptr = some p → (s.object p).nextobject = next
  | .drainTail _ _ t | .loadTailNext _ t | .shiftTail _ t _ => s.tail = t
  | _ => True

def Local.Fresh (s : Shared V) : Local V → Prop
  | .enqueue pc => pc.Fresh s
  | .dequeue pc => pc.Fresh s

/-- Head, tail or the field `nextobject` of some object has changed. -/
def Changed (s s' : Shared V) : Prop :=
  s'.head ≠ s.head ∨ s'.tail ≠ s.tail ∨
    ∃ p, (s'.object p).nextobject ≠ (s.object p).nextobject

/-- Head, tail and the field `nextobject` of the object behind the tail are the same. -/
structure Kept (s s' : Shared V) : Prop where
  head : s'.head = s.head
  tail : s'.tail = s.tail
  next : ∀ p, s.tail.ptr = some p → (s'.object p).nextobject = (s.object p).nextobject

/-- A step is a successful CAS that is paid for, or it keeps the queue and does not end an
iteration for which everything is fresh. -/
inductive Outcome (s s' : Shared V) (a : History ι) (t : Tag) (l l' : Local V) : Prop where
  | cas : t.isCas = true → Changed s s' → Pays a t → Outcome s s' a t l l'
  | keep : t.isCas = false → Kept s s' → (l.Fresh s → l'.Fresh s' ∧ ¬ Top (some l) l') →
      Outcome s s' a t l l'

section step

variable {i : ι} {s s' : Shared V} {a : History ι} {t : Tag}

theorem Kept.refl (s : Shared V) :
  Kept s s
  := ⟨rfl, rfl, fun _ _ => rfl⟩

theorem Kept.tail_next {tl next : Pointer} (hk : Kept s s')
    (h : s.tail = tl ∧ ∀ p, tl.ptr = some p → (s.object p).nextobject = next) :
  s'.tail = tl ∧ ∀ p, tl.ptr = some p → (s'.object p).nextobject = next
  := by
  obtain ⟨rfl, hnext⟩ := h
  exact ⟨hk.tail, fun p hp => (hk.next p hp).trans (hnext p hp)⟩

theorem Snapshot.Fresh.keep {pc : Snapshot} (h : pc.Fresh s) (hk : Kept s s') :
  pc.Fresh s'
  := by
  cases pc with
  | loadHead next => trivial
  | loadTail hd next => exact hk.head.trans h
  | loadNext hd tl next => exact ⟨hk.head.trans h.1, hk.tail.trans h.2⟩
  | checkTail hd tl next | checkHead hd tl next | done hd tl next =>
      exact ⟨hk.head.trans h.1, hk.tail_next h.2⟩

theorem Enqueue.Fresh.keep {pc : Enqueue V} (h : pc.Fresh s) (hk : Kept s s') :
  pc.Fresh s'
  := by
  cases pc with
  | new item | storeNext item object => cases h
  | snapshot item object pc => exact Snapshot.Fresh.keep h hk
  | link item object tl next => exact hk.tail_next h
  | shiftTail item object tl next | drainTail item object hd tl | fillTail item object hd tl =>
      exact hk.tail.trans h
  | drainHead item object hd | fillHead item object hd tl => exact hk.head.trans h
  | swing item object tl | fill item object hd | done item => trivial

theorem Dequeue.Fresh.keep {pc : Dequeue V} (h : pc.Fresh s) (hk : Kept s s') :
  pc.Fresh s'
  := by
  cases pc with
  | snapshot item pc => exact Snapshot.Fresh.keep h hk
  | loadHeadNext item hd | shiftHead item hd next | drainHead item hd | fillHead item hd tl =>
      exact hk.head.trans h
  | mark item hd tl next => exact hk.tail_next h
  | drainTail item hd tl | loadTailNext item tl | shiftTail item tl next => exact hk.tail.trans h
  | _ => trivial

/-- A snapshot changes nothing, and what it reads is fresh. -/
theorem snapshot_fresh {pc pc' : Snapshot} (h : pc.Fresh s) (hs : snapshot s pc = some (pc', t)) :
  pc'.Fresh s
  := by
  cases pc with
  | loadHead next =>
      cases hs
      rfl
  | loadTail hd next =>
      simp only [snapshot] at hs
      split at hs
      case isTrue =>
        cases hs
        exact ⟨h, rfl⟩
      case isFalse hnull =>
        cases hs
        refine ⟨h, rfl, fun p hp => ?_⟩
        cases (not_not.mp hnull).symm.trans hp
  | loadNext hd tl next =>
      obtain ⟨p, hp, heq⟩ := Option.map_eq_some_iff.mp hs
      cases heq
      refine ⟨h.1, h.2, fun q hq => ?_⟩
      cases hp.symm.trans hq
      rfl
  | checkTail hd tl next =>
      simp only [snapshot, if_pos h.2.1] at hs
      cases hs
      exact ⟨h.1, rfl, h.2.1 ▸ h.2.2⟩
  | checkHead hd tl next =>
      simp only [snapshot, if_pos h.1] at hs
      cases hs
      exact ⟨rfl, h.2⟩
  | done hd tl next => cases hs

theorem snapshot_isCas {pc pc' : Snapshot} (hs : snapshot s pc = some (pc', t)) :
  t.isCas = false
  := by
  cases pc with
  | loadHead next =>
      cases hs
      rfl
  | loadTail hd next | checkTail hd tl next | checkHead hd tl next =>
      simp only [snapshot] at hs
      split at hs
      · cases hs
        rfl
      · cases hs
        rfl
  | loadNext hd tl next =>
      obtain ⟨p, -, heq⟩ := Option.map_eq_some_iff.mp hs
      cases heq
      rfl
  | done hd tl next => cases hs

theorem Enqueue.switch_fresh {item : V} {object : ℕ} {hd tl next : Pointer}
    (h : (Snapshot.done hd tl next).Fresh s) :
  (Enqueue.switch item object hd tl next).Fresh s
  := by
  rw [Enqueue.switch]
  split
  case h_1 | h_2 => exact h.2
  case h_3 | h_4 | h_5 | h_7 => exact h.2.1
  case h_6 | h_8 => exact h.1
  case h_9 => trivial

theorem Dequeue.switch_fresh {item : V} {hd tl next : Pointer}
    (h : (Snapshot.done hd tl next).Fresh s) :
  (Dequeue.switch item hd tl next).Fresh s
  := by
  rw [Dequeue.switch]
  split
  case h_1 | h_2 => exact h.1
  case h_3 => exact h.2
  case h_4 | h_5 => exact h.2.1
  case h_6 | h_8 => exact h.1
  case h_7 | h_9 => trivial

theorem Enqueue.after_fresh {item : V} {object : ℕ} {pc : Snapshot} (h : pc.Fresh s) :
  (Enqueue.afterSnapshot item object pc).Fresh s
  := by
  cases pc with
  | done hd tl next => apply Enqueue.switch_fresh h
  | _ => exact h

theorem Dequeue.after_fresh {item : V} {pc : Snapshot} (h : pc.Fresh s) :
  (Dequeue.afterSnapshot item pc).Fresh s
  := by
  cases pc with
  | done hd tl next => apply Dequeue.switch_fresh h
  | _ => exact h

/-- A thread that has come to another point than the start of a snapshot is not at the top. -/
theorem not_top {l₀ : Option (Local V)} {l : Local V} (h : l.snapshot ≠ some .start) :
  ¬ Top l₀ l
  := by
  intro htop
  cases l₀ with
  | none => exact h htop
  | some l₀ => exact h htop.1

/-- A CAS on the tail. -/
theorem Outcome.casTail {l l' : Local V} {p : Option ℕ} {tl : Pointer} (ht : t.isCas = true)
    (heq : s.tail = tl) (hpays : Pays a t) :
  Outcome s { s with tail := tl.shift p } a t l l'
  := by
  apply Outcome.cas ht (Or.inr (Or.inl _)) hpays
  rw [heq]
  apply shift_ne

/-- A CAS on the head. -/
theorem Outcome.casHead {l l' : Local V} {p : Option ℕ} {hd : Pointer} (ht : t.isCas = true)
    (heq : s.head = hd) (hpays : Pays a t) :
  Outcome s { s with head := hd.shift p } a t l l'
  := by
  apply Outcome.cas ht (Or.inl _) hpays
  rw [heq]
  apply shift_ne

/-- An access that fails can only do so when something is not fresh. -/
theorem Outcome.fail {l l' : Local V} (h : ¬ l.Fresh s) :
  Outcome s s a .silent l l'
  := .keep rfl (Kept.refl s) fun hf => absurd hf h

/-- An access that reads, or fails outside the loop. -/
theorem Outcome.read {l l' : Local V} (ht : t.isCas = false) (h : l.Fresh s → l'.Fresh s)
    (hl' : l'.snapshot ≠ some .start) :
  Outcome s s a t l l'
  := .keep ht (Kept.refl s) fun hf => ⟨h hf, not_top hl'⟩

theorem Fits.filling_last (hf : Fits s a) (hg : a.stage = .filling) :
  a.tail + 1 = a.nodes.length
  := by
  have hstage := hf.stage
  rw [hg] at hstage
  exact hstage.2.1

/-- Each access of `enqueue` is a CAS that is paid for, or keeps the queue. -/
theorem enqueue_outcome {pc pc' : Enqueue V} (hf : Fits s a) (hk : pc.Knows i (s, a))
    (hs : enqueue s pc = some (s', pc', t)) :
  Outcome s s' a t (.enqueue pc) (.enqueue pc')
  := by
  cases pc with
  | new item =>
      cases hs
      refine .keep rfl ⟨rfl, rfl, fun p hp => ?_⟩ False.elim
      have hlt := hf.below p (List.mem_of_getElem? (hf.tail_inv hp).1)
      exact congrArg Object.nextobject (setObject_of_ne (ne_of_lt hlt) _)
  | storeNext item object =>
      obtain ⟨-, hmem, -⟩ := hk
      cases hs
      refine .keep rfl ⟨rfl, rfl, fun p hp => ?_⟩ False.elim
      rw [setNext_of_ne]
      rintro rfl
      exact hmem (List.mem_of_getElem? (hf.tail_inv hp).1)
  | snapshot item object pc =>
      obtain ⟨⟨pc₁, t⟩, hs, heq⟩ := Option.map_eq_some_iff.mp hs
      cases heq
      refine .keep (snapshot_isCas hs) (Kept.refl s) fun h => ?_
      exact ⟨Enqueue.after_fresh (snapshot_fresh h hs), by rintro ⟨-, ⟨⟩⟩⟩
  | link item object tl next =>
      obtain ⟨-, rfl, k, ⟨p, hp, -⟩, -⟩ := hk
      simp only [enqueue, hp, Option.map_some, Option.some.injEq] at hs
      split at hs
      case isTrue heq =>
        cases hs
        refine .cas rfl (Or.inr (Or.inr ⟨p, ?_⟩)) trivial
        rw [setNext_self, heq]
        rintro ⟨⟩
      case isFalse hne =>
        cases hs
        exact .fail fun h => hne (h.2 p hp)
  | swing item object tl =>
      obtain ⟨k, ht, hk⟩ := hk
      simp only [enqueue] at hs
      split at hs
      case isTrue heq =>
        cases hs
        obtain ⟨rfl, hg, hq⟩ := hf.normal_of_tail (heq ▸ ht) hk
        exact .casTail rfl heq ⟨hg, (List.getElem?_eq_some_iff.mp hq).1⟩
      case isFalse hne =>
        cases hs
        exact .read rfl (fun _ => trivial) (by rintro ⟨⟩)
  | shiftTail item object tl next =>
      obtain ⟨-, k, q, ht, -, hk⟩ := hk
      simp only [enqueue] at hs
      split at hs
      case isTrue heq =>
        cases hs
        obtain ⟨rfl, hg, hq⟩ := hf.normal_of_tail (heq ▸ ht) hk
        exact .casTail rfl heq ⟨hg, (List.getElem?_eq_some_iff.mp hq).1⟩
      case isFalse hne =>
        cases hs
        exact .fail hne
  | drainTail item object hd tl =>
      obtain ⟨-, hm⟩ := hk
      simp only [enqueue] at hs
      split at hs
      case isTrue heq =>
        cases hs
        exact .casTail rfl heq (hm.2.2.1 heq)
      case isFalse hne =>
        cases hs
        exact .fail hne
  | drainHead item object hd =>
      obtain ⟨-, hd⟩ := hk
      simp only [enqueue] at hs
      split at hs
      case isTrue heq =>
        cases hs
        exact .casHead rfl heq (hd.2 heq)
      case isFalse hne =>
        cases hs
        exact .fail hne
  | fillTail item object hd tl =>
      simp only [enqueue] at hs
      split at hs
      case isTrue heq =>
        cases hs
        exact .casTail rfl heq trivial
      case isFalse hne =>
        cases hs
        exact .fail hne
  | fill item object hd =>
      simp only [enqueue] at hs
      split at hs
      case isTrue heq =>
        cases hs
        have hg := (hk.2 heq).1
        exact .casHead rfl heq ⟨hg, hf.filling_last hg⟩
      case isFalse hne =>
        cases hs
        exact .read rfl (fun _ => trivial) (by rintro ⟨⟩)
  | fillHead item object hd tl =>
      obtain ⟨-, hk⟩ := hk
      simp only [enqueue] at hs
      split at hs
      case isTrue heq =>
        cases hs
        have hg := (hk.2 heq).1
        exact .casHead rfl heq ⟨hg, hf.filling_last hg⟩
      case isFalse hne =>
        cases hs
        exact .fail hne
  | done item => cases hs

/-- Each access of `dequeue` is a CAS that is paid for, or keeps the queue. -/
theorem dequeue_outcome {pc pc' : Dequeue V} (hf : Fits s a) (hd : Drains (s, a))
    (hk : pc.Knows i (s, a)) (hh : pc.HeadKnown (s, a)) (hs : dequeue s pc = some (s', pc', t)) :
  Outcome s s' a t (.dequeue pc) (.dequeue pc')
  := by
  cases pc with
  | snapshot item pc =>
      obtain ⟨⟨pc₁, t⟩, hs, heq⟩ := Option.map_eq_some_iff.mp hs
      cases heq
      refine .keep (snapshot_isCas hs) (Kept.refl s) fun h => ?_
      exact ⟨Dequeue.after_fresh (snapshot_fresh h hs), by rintro ⟨-, ⟨⟩⟩⟩
  | loadHeadNext item hd | loadTailNext item tl =>
      obtain ⟨p, -, heq⟩ := Option.map_eq_some_iff.mp hs
      cases heq
      exact .read rfl id (by rintro ⟨⟩)
  | shiftHead item hd next =>
      simp only [dequeue] at hs
      split at hs
      case isTrue heq =>
        cases hs
        exact .casHead rfl heq trivial
      case isFalse hne =>
        cases hs
        exact .fail hne
  | mark item hd tl next =>
      obtain ⟨-, -, rfl, -, k, ⟨p, hp, -⟩, -⟩ := hk
      simp only [dequeue, hp, Option.map_some, Option.some.injEq] at hs
      split at hs
      case isTrue heq =>
        cases hs
        refine .cas rfl (Or.inr (Or.inr ⟨p, ?_⟩)) trivial
        rw [setNext_self, heq]
        rintro ⟨⟩
      case isFalse hne =>
        cases hs
        exact .fail fun h => hne (h.2 p hp)
  | markTail item object hd tl =>
      obtain ⟨hm, -⟩ := hk
      simp only [dequeue] at hs
      split at hs
      case isTrue heq =>
        cases hs
        exact .casTail rfl heq (hm.2.2.1 heq)
      case isFalse hne =>
        cases hs
        exact .read rfl (fun _ => trivial) (by rintro ⟨⟩)
  | markHead item object hd =>
      obtain ⟨hd, -⟩ := hk
      simp only [dequeue] at hs
      split at hs
      case isTrue heq =>
        cases hs
        exact .casHead rfl heq (hd.2 heq)
      case isFalse hne =>
        cases hs
        apply Outcome.read rfl
        · intro _
          cases object <;> trivial
        · rw [Dequeue.extract_snapshot]
          rintro ⟨⟩
  | drainTail item hd tl =>
      simp only [dequeue] at hs
      split at hs
      case isTrue heq =>
        cases hs
        exact .casTail rfl heq (hk.2.2.1 heq)
      case isFalse hne =>
        cases hs
        exact .fail hne
  | drainHead item hd =>
      simp only [dequeue] at hs
      split at hs
      case isTrue heq =>
        cases hs
        exact .casHead rfl heq (hk.2 heq)
      case isFalse hne =>
        cases hs
        exact .fail hne
  | shiftTail item tl next =>
      obtain ⟨-, k, q, ht, hk, -⟩ := hk
      simp only [dequeue] at hs
      split at hs
      case isTrue heq =>
        cases hs
        obtain ⟨rfl, hg, hq⟩ := hf.normal_of_tail (heq ▸ ht) hk
        exact .casTail rfl heq ⟨hg, (List.getElem?_eq_some_iff.mp hq).1⟩
      case isFalse hne =>
        cases hs
        exact .fail hne
  | fillHead item hd tl =>
      simp only [dequeue] at hs
      split at hs
      case isTrue heq =>
        cases hs
        have hg := (hk.2 heq).1
        exact .casHead rfl heq ⟨hg, hf.filling_last hg⟩
      case isFalse hne =>
        cases hs
        exact .fail hne
  | delinkLoad item object =>
      cases hs
      exact .read rfl (fun _ => trivial) (by rintro ⟨⟩)
  | delinkStore item object old =>
      -- the tail has left the object
      obtain ⟨-, htail, -⟩ := hf.apart hd hk.1 hh
      cases hs
      refine .keep rfl ⟨rfl, rfl, fun p hp => ?_⟩ fun _ => ⟨trivial, not_top (by rintro ⟨⟩)⟩
      rw [setNext_of_ne]
      rintro rfl
      exact htail hp
  | readData item object =>
      cases hs
      exact .read rfl (fun _ => trivial) (by rintro ⟨⟩)
  | refused item | done item => cases hs

end step

/-! ### Every run is lock-free -/

variable [Inhabited V] [DecidableEq ι]

/-- What an access of a thread comes to. -/
theorem step_outcome {i : ι} {x x' : Shared V × (History ι × ℕ × ℕ)} {l l' : Local V} {t : Tag}
    (h : ShapeInv x) (hl : ShapeKnows i x (some l))
    (hs : ((machine ι V).withGhost (ghost ι V)).step i () x l = some (x', l', t)) :
  Outcome x.1 x'.1 x.2.1 t l l'
  := by
  obtain ⟨hs, -⟩ := withGhost_step.mp hs
  rcases step_inv hs with ⟨pc, pc', rfl, rfl, hpc⟩ | ⟨pc, pc', rfl, rfl, hpc⟩
  · exact enqueue_outcome h.1.1 hl.1 hpc
  · exact dequeue_outcome h.1.1 h.2 hl.1 hl.2 hpc

theorem retries (ι V : Type) [Inhabited V] [DecidableEq ι] :
  ((machine ι V).withGhost (ghost ι V)).Retries ShapeInv ShapeKnows Top Tag.isCas
    fun x l => l.Fresh x.1
  := by
  constructor
  case top =>
    intro s l₀ l h
    have hstart : l.snapshot = some .start := by
      cases l₀ with
      | none => exact h
      | some l₀ => exact h.1
    match l, hstart with
    | .enqueue (.snapshot item object pc), hstart =>
        cases hstart
        trivial
    | .dequeue (.snapshot item pc), hstart =>
        cases hstart
        trivial
  case own =>
    rintro i ⟨⟩ x l x' l' t hG hL hf hs ht
    cases step_outcome hG hL hs with
    | cas hcas => cases hcas.symm.trans ht
    | keep _ _ h => exact h hf
  case other =>
    rintro i j ⟨⟩ x l l₂ x' l₂' t hG _ hL _ hf hs ht
    cases step_outcome hG hL hs with
    | cas hcas => cases hcas.symm.trans ht
    | keep _ hkept _ =>
        cases l with
        | enqueue pc => exact Enqueue.Fresh.keep hf hkept
        | dequeue pc => exact Dequeue.Fresh.keep hf hkept

variable {n : ℕ} (r : (machine ι V).Run n)

/-- The run is lock-free. -/
structure LockFree : Prop where
  /-- Every iteration of a main loop that does not finish its operation contains a step at which
  a CAS by some thread changes head, tail or the field `nextobject` of some object. -/
  progress : ∀ i e k, r.Round Top i e k → ∃ j, e < j ∧ j ≤ k ∧
    (∃ i' t, r.Acts i' t j ∧ t.isCas) ∧ Changed (r.conf j).shared (r.conf (j + 1)).shared
  /-- An enqueue costs two successful CASes and a dequeue three. -/
  cost : r.count Tag.isCas n ≤ 2 * r.count Tag.isEnqueue n + 3 * r.count Tag.isDequeue n
  /-- The number of iterations that do not finish their operations. -/
  bound : {x : ι × ℕ × ℕ | r.Round Top x.1 x.2.1 x.2.2}.encard ≤
    (r.threads.card * (2 * r.count Tag.isEnqueue n + 3 * r.count Tag.isDequeue n) : ℕ)

section bounded

variable {r} (hhead : changes r Shared.head n < 2 ^ 32) (htail : changes r Shared.tail n < 2 ^ 32)

include hhead htail

/-- What an access of the run comes to, with the history before and after it. -/
theorem act_outcome {i : ι} {t : Tag} {k : ℕ} (h : r.Acts i t k) :
  (r.trail (ghost ι V) (k + 1)).1 = (r.trail (ghost ι V) k).1.next i t ∧
    ∃ l l', Outcome (r.conf k).shared (r.conf (k + 1)).shared (r.trail (ghost ι V) k).1 t l l'
  := by
  obtain ⟨l, ⟨⟩, x, l', -, hs, hc, hG, hL, -⟩ := (shape_outline ι V).acts
    (r := r.lift (ghost ι V) (trail_bound r hhead htail)) (i := i) (t := t) h
  have hx : ((r.conf (k + 1)).shared, r.trail (ghost ι V) (k + 1)) = x := congrArg Config.shared hc
  have houtcome := step_outcome hG hL hs
  obtain ⟨-, ha⟩ := withGhost_step.mp hs
  subst hx
  exact ⟨congrArg Prod.fst ha, l, l', houtcome⟩

/-- The successful CASes are paid for, up to those by which the queue comes to rest. -/
theorem cost_due {k : ℕ} (hk : k ≤ n) :
  r.count Tag.isCas k + (r.trail (ghost ι V) k).1.due
    ≤ 2 * r.count Tag.isEnqueue k + 3 * r.count Tag.isDequeue k
  := by
  induction k with
  | zero => exact le_rfl
  | succ k ih =>
      have ih := ih (Nat.le_of_succ_le hk)
      simp only [Run.count_succ, Run.tag]
      cases he : r.event k with
      | call o =>
          have hsame : r.trail (ghost ι V) (k + 1) = r.trail (ghost ι V) k := by rw [Run.trail, he]
          rw [hsame]
          exact ih
      | ret v =>
          have hsame : r.trail (ghost ι V) (k + 1) = r.trail (ghost ι V) k := by rw [Run.trail, he]
          rw [hsame]
          exact ih
      | act t =>
          obtain ⟨hnext, l, l', houtcome⟩ := act_outcome hhead htail ⟨hk, rfl, he⟩
          have hpays : Pays (r.trail (ghost ι V) k).1 t := by
            cases houtcome with
            | cas _ _ hpays => exact hpays
            | keep hcas => cases t <;> trivial
          have hdue := due_next (r.who k) hpays
          rw [hnext]
          simp only [Option.any_some]
          omega

variable (r) in
/-- Every run in which head and tail are each changed fewer than 2^32 times is lock-free. -/
theorem pljQueue_lockFree :
  LockFree r
  := by
  have hround : ∀ i e k, r.Round Top i e k → ∃ j, e < j ∧ j ≤ k ∧ (r.tag j).any Tag.isCas := by
    intro i e k h
    apply (retries ι V).round (shape_outline ι V)
      (r := r.lift (ghost ι V) (trail_bound r hhead htail))
    exact ⟨h.lt, h.stop, h.within, h.comes, h.back, h.inside⟩
  have hcost : r.count Tag.isCas n
      ≤ 2 * r.count Tag.isEnqueue n + 3 * r.count Tag.isDequeue n :=
    (Nat.le_add_right _ _).trans (cost_due hhead htail le_rfl)
  constructor
  case progress =>
    intro i e k h
    obtain ⟨j, hej, hjk, hp⟩ := hround i e k h
    obtain ⟨t, ht, hcas⟩ := Run.any_tag_iff.mp hp
    have hact : r.Acts (r.who j) t j := ⟨lt_of_le_of_lt hjk h.stop, rfl, ht⟩
    obtain ⟨-, l, l', houtcome⟩ := act_outcome hhead htail hact
    refine ⟨j, hej, hjk, ⟨r.who j, t, hact, hcas⟩, ?_⟩
    cases houtcome with
    | cas _ hchanged _ => exact hchanged
    | keep hnot => cases hcas.symm.trans hnot
  case cost => exact hcost
  case bound =>
    apply le_trans (Run.rounds_le hround)
    rw [Nat.cast_le]
    exact Nat.mul_le_mul_left _ hcost

end bounded

/-- The run in which thread 0 enqueues 7 and thread 1 dequeues it is lock-free. -/
theorem pljQueue_lockFree_exchange :
  LockFree (Run.ofScript exchange trivial exchange_plays)
  := pljQueue_lockFree _ (exchange_changes _) (exchange_changes _)

end PLJQueue
