import ConcurrentQueues.LPRQueue.Model
import ConcurrentQueues.PRQ.Sequential
import ConcurrentQueues.RingQueue.Sequential

/-!
# LPRQueue with one thread

`PRQ` as a ring for one thread, and the `dequeue` of `LPRQueue`, which tries an empty ring once
more before it leaves the ring.
-/

namespace LPRQueue

open Machine RingQueue

variable {ι : Type} {tokens : PRQ.Tokens ι}

/-- What `PRQ` does for one thread. -/
def solo (tokens : PRQ.Tokens ι) (i : ι) : SoloRing (PRQ.machine tokens) i (2 ^ 62) PRQ.EMPTY where
  Shows isOpen n s q := ∃ t, PRQ.Shows isOpen n t s q
  busy o := by
    cases o with
    | enqueue x => rfl
    | dequeue => rfl
  mono := by
    rintro b n m s q ⟨t, h⟩ hnm
    exact ⟨t, h.window, h.items, h.tail, h.opened, h.closed,
      h.head_le.trans (Nat.add_le_add_left hnm _), h.tail_le.trans (Nat.add_le_add_left hnm _)⟩
  item := by
    rintro b n s x q ⟨t, h⟩ rfl
    cases PRQ.vacant_null.symm.trans (h.items _ List.mem_cons_self)
  init := ⟨PRQ.R, PRQ.init_shows⟩
  first hx := by
    obtain ⟨s', hs, h⟩ := PRQ.solo_ok PRQ.init_shows (Nat.zero_le _) hx rfl PRQ.R_pos
    exact ⟨s', hs, PRQ.R + 1, h⟩
  enqueue := by
    rintro n s q x ⟨t, h⟩ hn hx
    rcases h.opened rfl with ht | ⟨rfl, hburned⟩
    · rcases Nat.lt_or_eq_of_le h.window.length_le with hroom | hfull
      · obtain ⟨s', hs, h'⟩ := PRQ.solo_ok h hn hx ht hroom
        exact Or.inl ⟨s', hs, t + 1, h'⟩
      · obtain ⟨s', hs, h'⟩ := PRQ.solo_full h hn ht hfull
        exact Or.inr ⟨s', hs, t + 1, h'⟩
    · obtain ⟨s', hs, h'⟩ := PRQ.solo_burned h hn hburned
      exact Or.inr ⟨s', hs, t + 1, h'⟩
  take := by
    rintro b n s x q ⟨t, h⟩ hn
    obtain ⟨s', hs, h'⟩ := PRQ.solo_take h hn
    exact ⟨s', hs, t, h'⟩
  empty := by
    rintro b n s ⟨t, h⟩ hn
    obtain ⟨s', hs, h'⟩ := PRQ.solo_empty h hn
    exact ⟨s', hs, t, h'⟩

/-- Where `dequeue` goes on when the ring of the head has answered once more. -/
def afterRetry (item prq next : ℕ) : RingRes ℕ → Shared → Shared × Local PRQ.Local
  | .value v, s =>
      if v ≠ PRQ.EMPTY then (s, .dequeue (.done v)) else (s, .dequeue (.casHead item prq next))
  | _, s => (s, .dequeue (.casHead item prq next))

theorem moves_retry {i : ι} {item prq next : ℕ} {s s' : Shared} {l l' : PRQ.Local} {t : Tag}
    (hcall : call (PRQ.machine tokens) i s prq l = some (s', l', t)) :
  (machine tokens).Moves i (s, .dequeue (.retry item prq next l))
    (arrive (PRQ.machine tokens) (fun l => .dequeue (.retry item prq next l))
      (afterRetry item prq next) s' l')
  := by
  refine ⟨rfl, (), t, ?_⟩
  apply Option.map_eq_some_iff.mpr
  simp only [dequeue, hcall, Option.map_some]
  cases hv : (PRQ.machine tokens).result l' with
  | none => exact ⟨_, rfl, by rw [arrive_none hv]⟩
  | some v =>
      rw [arrive_some hv]
      cases v with
      | value v =>
          by_cases hnull : v = PRQ.EMPTY
          · exact ⟨_, rfl, by simp [afterRetry, hnull]⟩
          · exact ⟨_, rfl, by simp [afterRetry, hnull]⟩
      | ok | closed => exact ⟨_, rfl, rfl⟩

theorem soloDequeue (tokens : PRQ.Tokens ι) (i : ι) :
  SoloDequeue (solo tokens i) (dequeue tokens)
  := by
  constructor
  case loadHead =>
    intros
    rfl
  case ring =>
    intros
    rfl
  case refuse =>
    intro s item p hnext
    rw [dequeue, hnext]
  case pass =>
    intro b n s item p hempty hn hnext
    obtain ⟨x, hx, -⟩ := (solo tokens i).empty hempty hn
    use x
    have hload : dequeue tokens i s (.loadNext item s.head) = some
        (s, .retry item s.head p ((PRQ.machine tokens).start .dequeue), .silent) := by
      rw [dequeue, hnext]
    have hcas : dequeue tokens i (s.setRing s.head x) (.casHead item s.head p) = some
        ({ s.setRing s.head x with head := p }, .loadHead item, .shiftHead s.head) := by
      rw [dequeue]
      exact if_pos rfl
    apply goes_dequeue rfl hload
    apply goes_ring (fun l => .dequeue (.retry item s.head p l)) rfl
      (fun _ _ _ _ _ _ => moves_retry) hx
    rw [afterRetry, if_neg (not_not.mpr rfl)]
    exact goes_dequeue rfl hcas .refl

end LPRQueue
