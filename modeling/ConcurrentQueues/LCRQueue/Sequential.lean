import ConcurrentQueues.CRQ.Sequential
import ConcurrentQueues.LCRQueue.Model
import ConcurrentQueues.RingQueue.Sequential

/-!
# LCRQueue with one thread

`CRQ` as a ring for one thread, and the `dequeue` of `LCRQueue`, which leaves a ring as soon as it
finds it empty.
-/

namespace LCRQueue

open Machine RingQueue

variable {ι : Type}

/-- What `CRQ` does for one thread. -/
def solo (i : ι) : SoloRing (CRQ.machine ι) i (2 ^ 62) CRQ.EMPTY where
  Shows isOpen n s q := ∃ t, CRQ.Shows isOpen n t s q
  busy o := by
    cases o with
    | enqueue x => rfl
    | dequeue => rfl
  mono := by
    rintro b n m s q ⟨t, h⟩ hnm
    exact ⟨t, h.window, h.items, h.tail, h.opened, h.closed, h.head_le.trans hnm,
      h.tail_le.trans hnm⟩
  item := by
    rintro b n s x q ⟨t, h⟩
    exact h.items x List.mem_cons_self
  init := ⟨0, CRQ.init_shows⟩
  first hx := by
    obtain ⟨s', hs, h⟩ := CRQ.solo_ok CRQ.init_shows (Nat.zero_le _) hx CRQ.R_pos
    exact ⟨s', hs, 1, h⟩
  enqueue := by
    rintro n s q x ⟨t, h⟩ hn hx
    rcases Nat.lt_or_eq_of_le h.window.length_le with hroom | hfull
    · obtain ⟨s', hs, h'⟩ := CRQ.solo_ok h hn hx hroom
      exact Or.inl ⟨s', hs, t + 1, h'⟩
    · obtain ⟨s', hs, h'⟩ := CRQ.solo_closed h hn hfull
      exact Or.inr ⟨s', hs, t + 1, h'⟩
  take := by
    rintro b n s x q ⟨t, h⟩ hn
    obtain ⟨s', hs, h'⟩ := CRQ.solo_take h hn
    exact ⟨s', hs, t, h'⟩
  empty := by
    rintro b n s ⟨t, h⟩ hn
    cases b with
    | true =>
        obtain ⟨s', hs, h'⟩ := CRQ.solo_empty_open h hn
        exact ⟨s', hs, s.head + 1, h'⟩
    | false =>
        obtain ⟨s', hs, h'⟩ := CRQ.solo_empty_closed h hn
        exact ⟨s', hs, t, h'⟩

theorem soloDequeue (i : ι) :
  SoloDequeue (solo i) dequeue
  := by
  constructor
  case loadHead =>
    intros
    rfl
  case ring =>
    intros
    rfl
  case refuse =>
    intro s item p hnext
    rw [dequeue, hnext]
  case pass =>
    intro b n s item p _ _ hnext
    use s.ring s.head
    rw [setRing_self]
    have hload : dequeue i s (.loadNext item s.head) =
        some (s, .casHead item s.head p, .silent) := by
      rw [dequeue, hnext]
    have hcas : dequeue i s (.casHead item s.head p) =
        some ({ s with head := p }, .loadHead item, .shiftHead s.head) := by
      rw [dequeue, if_pos rfl]
    apply goes_dequeue rfl hload
    exact goes_dequeue rfl hcas .refl

end LCRQueue
