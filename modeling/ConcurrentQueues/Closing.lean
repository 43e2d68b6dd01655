import ConcurrentQueues.CRQ.Ring
import ConcurrentQueues.PRQ.Ring
import ConcurrentQueues.Library.Closing
import ConcurrentQueues.Library.Script

/-!
# When CRQ and PRQ are closed

Both rings make the same test after a failed attempt: `t - h >= R` on words, or more than
`STARVING_THRESHOLD` failed attempts before. Under the label `checkOverflow`, the test is
meant to find a full ring, and it does so except when the head has overtaken the ticket.
Dequeues that find the ring empty overtake tickets, so an empty ring is closed too.
-/

open Machine

/-! ### CRQ -/

namespace CRQ

variable {ι : Type}

/-- How far an enqueue of a ring is. -/
def Enqueue.phase : Enqueue → RingPhase
  | .drawTail _ iteration => .trying iteration none
  | .readVal _ iteration t | .readSafeAndIdx _ iteration t _ | .readHead _ iteration t _
  | .cas _ iteration t _ | .checkOverflow _ iteration t => .trying iteration (some t)
  | .close => .closing
  | .ok | .closed => .past

/-- An access of an enqueue as a step of its phase. -/
theorem enqueue_phase {s s' : Shared} {pc pc' : Enqueue} {τ : RingTag ℕ}
    (hs : enqueue s pc = some (s', pc', τ)) :
  RingPhase.Step R STARVING_THRESHOLD s.head pc.phase τ pc'.phase
  := by
  cases pc with
  | drawTail arg iteration =>
      rw [enqueue] at hs
      split at hs
      · cases hs
        exact .pass (by rintro ⟨⟩) rfl (by rintro ⟨⟩)
      · cases hs
        apply RingPhase.Step.go rfl (by rintro ⟨⟩)
        rintro u ⟨⟩
        exact Or.inr (TopBit.body_lt s.tail)
  | readVal arg iteration t =>
      cases hs
      exact .go rfl (by rintro ⟨⟩) fun _ => Or.inl
  | readSafeAndIdx arg iteration t val =>
      simp only [enqueue] at hs
      split at hs
      · split at hs
        · cases hs
          exact .go rfl (by rintro ⟨⟩) fun _ => Or.inl
        · cases hs
          exact .go rfl (by rintro ⟨⟩) fun _ => Or.inl
      · cases hs
        exact .go rfl (by rintro ⟨⟩) fun _ => Or.inl
  | readHead arg iteration t safeAndIdx =>
      rw [enqueue] at hs
      split at hs
      · cases hs
        exact .go rfl (by rintro ⟨⟩) fun _ => Or.inl
      · cases hs
        exact .go rfl (by rintro ⟨⟩) fun _ => Or.inl
  | cas arg iteration t safeAndIdx =>
      rw [enqueue] at hs
      split at hs
      · cases hs
        exact .pass (by rintro ⟨⟩) rfl (by rintro ⟨⟩)
      · cases hs
        exact .go rfl (by rintro ⟨⟩) fun _ => Or.inl
  | checkOverflow arg iteration t =>
      rw [enqueue, overflows, ← Bool.decide_or] at hs
      split at hs
      case isTrue hfull =>
        cases hs
        exact .shut (of_decide_eq_true hfull)
      case isFalse hroom =>
        cases hs
        exact .retry fun h => hroom (decide_eq_true h)
  | close =>
      cases hs
      exact .close
  | ok => cases hs
  | closed => cases hs

/-- When `CRQ` is closed. -/
def closer (ι : Type) : Closer (machine ι) where
  capacity := R
  threshold := STARVING_THRESHOLD
  head s := s.head
  phase
    | .enqueue pc => pc.phase
    | .dequeue _ => .past
  small := by decide
  head_lt h := h.1.trans (by decide)
  enqueue _ := rfl
  dequeue := rfl
  closing := by
    rintro (pc | pc) h
    · cases pc with
      | close => rfl
      | _ => cases h
    · cases h
  step := by
    intro i ch s l s' l' τ hs
    rcases step_inv hs with ⟨pc, pc', rfl, rfl, hpc⟩ | ⟨pc, pc', rfl, rfl, hpc⟩
    · exact enqueue_phase hpc
    · obtain ⟨hfails, hclose⟩ := (dequeue_tag hpc).plain
      exact .pass (by rintro ⟨⟩) hfails hclose

instance : DecidablePred (machine ι).valid
  | .enqueue x => inferInstanceAs (Decidable (x ≠ 0))
  | .dequeue => inferInstanceAs (Decidable True)

instance : DecidablePred (machine ι).legal := inferInstanceAs (DecidablePred Legal)

/-- Thread 0 draws ticket 0. Thread 1 finds the ring empty and burns the ticket, and its head moves
past it. The attempt of thread 0 fails, and it closes the ring, which is empty. -/
def overtake : List (ℕ × Move (RingOp ℕ) Unit) :=
  [(0, .call (.enqueue 8)), (0, .act ()), (1, .call .dequeue)] ++
    List.replicate 8 (1, .act ()) ++ (1, .ret) :: List.replicate 4 (0, .act ())

theorem overtake_plays :
  ((machine ℕ).play ⟨(machine ℕ).init, fun _ => none⟩ overtake).isSome
  := by decide +kernel

/-- The run in which thread 0 closes an empty ring. -/
@[irreducible]
def overtaken : (machine ℕ).Run overtake.length :=
  Run.ofScript overtake init_legal overtake_plays

end CRQ

/-! ### PRQ -/

namespace PRQ

variable {ι : Type}

/-- How far an enqueue of a ring is. -/
def Enqueue.phase : Enqueue → RingPhase
  | .drawTail _ iteration => .trying iteration none
  | .readWord _ iteration t | .readValue _ iteration t _ | .readHead _ iteration t _ _
  | .placeToken _ iteration t _ _ | .casWord _ iteration t _ | .clearToken _ iteration t
  | .install _ iteration t | .checkOverflow _ iteration t => .trying iteration (some t)
  | .close => .closing
  | .ok | .closed => .past

/-- An access of an enqueue as a step of its phase. -/
theorem enqueue_phase {token : ℕ} {s s' : Shared} {pc pc' : Enqueue} {τ : RingTag ℕ}
    (hs : enqueue token s pc = some (s', pc', τ)) :
  RingPhase.Step R STARVING_THRESHOLD s.head pc.phase τ pc'.phase
  := by
  cases pc with
  | drawTail item iteration =>
      rw [enqueue] at hs
      split at hs
      · cases hs
        exact .pass (by rintro ⟨⟩) rfl (by rintro ⟨⟩)
      · cases hs
        apply RingPhase.Step.go rfl (by rintro ⟨⟩)
        rintro u ⟨⟩
        exact Or.inr (TopBit.body_lt s.tail)
  | readWord item iteration t =>
      cases hs
      exact .go rfl (by rintro ⟨⟩) fun _ => Or.inl
  | readValue item iteration t safeAndEpoch =>
      simp only [enqueue] at hs
      split at hs
      · split at hs
        · cases hs
          exact .go rfl (by rintro ⟨⟩) fun _ => Or.inl
        · cases hs
          exact .go rfl (by rintro ⟨⟩) fun _ => Or.inl
      · cases hs
        exact .go rfl (by rintro ⟨⟩) fun _ => Or.inl
  | install item iteration t =>
      rw [enqueue] at hs
      split at hs
      · cases hs
        exact .pass (by rintro ⟨⟩) rfl (by rintro ⟨⟩)
      · cases hs
        exact .go rfl (by rintro ⟨⟩) fun _ => Or.inl
  | checkOverflow item iteration t =>
      rw [enqueue, overflows, ← Bool.decide_or] at hs
      split at hs
      case isTrue hfull =>
        cases hs
        exact .shut (of_decide_eq_true hfull)
      case isFalse hroom =>
        cases hs
        exact .retry fun h => hroom (decide_eq_true h)
  | close =>
      cases hs
      exact .close
  | ok => cases hs
  | closed => cases hs
  | _ =>
      rw [enqueue] at hs
      split at hs
      · cases hs
        exact .go rfl (by rintro ⟨⟩) fun _ => Or.inl
      · cases hs
        exact .go rfl (by rintro ⟨⟩) fun _ => Or.inl

/-- When `PRQ` is closed. -/
def closer (tokens : Tokens ι) : Closer (machine tokens) where
  capacity := R
  threshold := STARVING_THRESHOLD
  head s := s.head
  phase
    | .enqueue pc => pc.phase
    | .dequeue _ => .past
  small := by decide
  head_lt h := h.1.trans (by decide)
  enqueue _ := rfl
  dequeue := rfl
  closing := by
    rintro (pc | pc) h
    · cases pc with
      | close => rfl
      | _ => cases h
    · cases h
  step := by
    intro i ch s l s' l' τ hs
    rcases step_inv hs with ⟨pc, pc', rfl, rfl, hpc⟩ | ⟨pc, pc', rfl, rfl, hpc⟩
    · exact enqueue_phase hpc
    · obtain ⟨hfails, hclose⟩ := (dequeue_tag hpc).plain
      exact .pass (by rintro ⟨⟩) hfails hclose

instance (tokens : Tokens ι) : DecidablePred (machine tokens).valid
  | .enqueue x => inferInstanceAs (Decidable (vacant x = false))
  | .dequeue => inferInstanceAs (Decidable True)

instance (tokens : Tokens ι) : DecidablePred (machine tokens).legal :=
  inferInstanceAs (DecidablePred Legal)

/-- Threads whose tokens are the odd numbers. -/
def oddTokens : Tokens ℕ where
  threadToken i := 2 * i + 1
  injective i j h := by
    have h : 2 * i + 1 = 2 * j + 1 := h
    omega
  token i := by
    rw [isToken, IS_TOKEN_BIT, Nat.and_one_is_mod]
    apply decide_eq_true
    omega

/-- One thread finds a new ring empty, which moves the head past the tail, and then enqueues an
item. Its ticket is the one it has burnt itself, so that it closes the ring. -/
def overtake : List (ℕ × Move (RingOp ℕ) Unit) :=
  (0, .call .dequeue) :: List.replicate 6 (0, .act ()) ++
    [(0, .ret), (0, .call (.enqueue 8))] ++ List.replicate 5 (0, .act ())

theorem overtake_plays :
  ((machine oddTokens).play ⟨(machine oddTokens).init, fun _ => none⟩ overtake).isSome
  := by decide +kernel

/-- The run in which a thread that runs alone closes an empty ring. -/
@[irreducible]
def overtaken : (machine oddTokens).Run overtake.length :=
  Run.ofScript overtake init_legal overtake_plays

end PRQ

/-! ### Both rings -/

variable {ι : Type} [DecidableEq ι]

/-- In every run of `CRQ` and of `PRQ`, a ring is closed only when it is full or the call is starving
if and only if no failed attempt of a call that is not starving has been overtaken. -/
theorem rings_closeUnlessOvertaken :
  (∀ n (r : (CRQ.machine ι).Run n), (CRQ.closer ι).ClosesUnlessOvertaken r) ∧
    ∀ (tokens : PRQ.Tokens ι) n (r : (PRQ.machine tokens).Run n),
      (PRQ.closer tokens).ClosesUnlessOvertaken r
  := by
  constructor
  · intro n r
    exact (CRQ.closer ι).closesUnlessOvertaken r (CRQ.ring ι).sound
  · intro tokens n r
    exact (PRQ.closer tokens).closesUnlessOvertaken r (PRQ.ring tokens).sound

/-- The failed attempt of thread 0 in the run of `CRQ`, and the closing after it. -/
theorem CRQ.overtaken_check :
  overtaken.Check 0 0 0 14 ∧ overtaken.Next 0 14 15
  := by
  refine ⟨⟨⟨8, by decide, by decide +kernel⟩, ?_, by decide, by decide +kernel⟩,
    ⟨by decide, by decide, by decide +kernel, fun j hj hj' => by omega⟩⟩
  apply Run.within_of_tags (by decide)
  decide +kernel

/-- The failed attempt of thread 0 in the run of `PRQ`, and the closing after it. -/
theorem PRQ.overtaken_check :
  overtaken.Check 0 8 R 12 ∧ overtaken.Next 0 12 13
  := by
  refine ⟨⟨⟨8, by decide, by decide +kernel⟩, ?_, by decide, by decide +kernel⟩,
    ⟨by decide, by decide, by decide +kernel, fun j hj hj' => by omega⟩⟩
  apply Run.within_of_tags (by decide)
  decide +kernel

/-- Both rings are closed while they are empty, after the first failed attempt of a call. -/
theorem overtaken_close :
  ¬ (CRQ.closer ℕ).ClosesWhenFull CRQ.overtaken ∧
    ¬ (PRQ.closer PRQ.oddTokens).ClosesWhenFull PRQ.overtaken
  := by
  constructor
  · intro h
    have hlaw := (CRQ.closer ℕ).closesUnlessOvertaken CRQ.overtaken (CRQ.ring ℕ).sound
    obtain ⟨hcheck, hnext⟩ := CRQ.overtaken_check
    rcases hlaw.run.mp h 0 0 0 14 15 hcheck hnext with hbehind | hstarving
    · revert hbehind
      decide +kernel
    · revert hstarving
      decide +kernel
  · intro h
    have hlaw := (PRQ.closer PRQ.oddTokens).closesUnlessOvertaken PRQ.overtaken
      (PRQ.ring PRQ.oddTokens).sound
    obtain ⟨hcheck, hnext⟩ := PRQ.overtaken_check
    rcases hlaw.run.mp h 0 8 PRQ.R 12 13 hcheck hnext with hbehind | hstarving
    · revert hbehind
      decide +kernel
    · revert hstarving
      decide +kernel
