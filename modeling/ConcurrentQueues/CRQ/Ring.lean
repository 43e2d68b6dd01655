import ConcurrentQueues.CRQ.Exact

/-!
# CRQ as a ring of a queue

What a queue of rings has to know of CRQ. An enqueue into a new ring that no other thread
knows takes ticket 0 and finds its node safe and empty, so it is not refused.
-/

namespace CRQ

open Machine

variable {ι : Type}

/-- A new ring after the first `fetch_add` on its tail. -/
def drawn : Shared := { init with tail := 1 }

/-- An enqueue of `x` into a new ring that no other thread knows. -/
def Enqueue.Solo (x : ℕ) (s : Shared) : Enqueue → Prop
  | .drawTail arg _ => arg = x ∧ s = init
  | .readVal arg _ t => arg = x ∧ s = drawn ∧ t = 0
  | .readSafeAndIdx arg _ t val => arg = x ∧ s = drawn ∧ t = 0 ∧ val = EMPTY
  | .cas arg _ t w => arg = x ∧ s = drawn ∧ t = 0 ∧ w = encodeNodeSafeIdx true 0
  | .ok => True
  | _ => False

theorem Enqueue.Solo.step {x : ℕ} {s s' : Shared} {pc pc' : Enqueue} {τ : RingTag ℕ}
    (h : pc.Solo x s) (hs : enqueue s pc = some (s', pc', τ)) :
  pc'.Solo x s'
  := by
  cases pc with
  | drawTail arg it =>
      obtain ⟨rfl, rfl⟩ := h
      cases hs
      exact ⟨rfl, rfl, by decide⟩
  | readVal arg it t =>
      obtain ⟨rfl, rfl, rfl⟩ := h
      cases hs
      exact ⟨rfl, rfl, rfl, rfl⟩
  | readSafeAndIdx arg it t val =>
      obtain ⟨rfl, rfl, rfl, rfl⟩ := h
      have hidx : decodeNodeIdx (encodeNodeSafeIdx true (0 % R)) ≤ 0 := by decide
      have hsafe : decodeNodeSafe (encodeNodeSafeIdx true (0 % R)) = true := by decide
      simp only [enqueue, drawn, init, hidx, hsafe, and_self, if_true] at hs
      cases hs
      exact ⟨rfl, rfl, rfl, by decide⟩
  | cas arg it t w =>
      obtain ⟨rfl, rfl, rfl, rfl⟩ := h
      have hsame : drawn.array (0 % R) = ⟨encodeNodeSafeIdx
          (decodeNodeSafe (encodeNodeSafeIdx true 0)) (decodeNodeIdx (encodeNodeSafeIdx true 0)),
          UNDEFINED_NODE_VAL⟩ := by decide
      simp only [enqueue, Shared.cas2, if_pos hsame] at hs
      cases hs
      trivial
  | ok => cases hs
  | readHead arg it t w => cases h
  | checkOverflow arg it t => cases h
  | close => cases h
  | closed => cases h

/-- The item an enqueue has not installed yet. -/
def Enqueue.arg : Enqueue → Option ℕ
  | .drawTail arg _ | .readVal arg _ _ | .readSafeAndIdx arg _ _ _ | .readHead arg _ _ _
  | .cas arg _ _ _ | .checkOverflow arg _ _ => some arg
  | .close | .ok | .closed => none

/-- Each access of `enqueue` keeps its item, and ends in `ok` only by installing it. -/
theorem enqueue_arg {s s' : Shared} {pc pc' : Enqueue} {τ : RingTag ℕ}
    (hs : enqueue s pc = some (s', pc', τ)) :
  (∀ y, pc'.arg = some y → pc.arg = some y) ∧ (pc' = .ok → ∃ t x, τ = .install t x) ∧
    ∀ t x, τ = .install t x → pc' = .ok
  := by
  cases pc with
  | ok => cases hs
  | closed => cases hs
  | readVal arg it t =>
      cases hs
      exact ⟨fun _ h => h, by rintro ⟨⟩, by rintro _ _ ⟨⟩⟩
  | close =>
      cases hs
      exact ⟨by rintro _ ⟨⟩, by rintro ⟨⟩, by rintro _ _ ⟨⟩⟩
  | cas arg it t w =>
      simp only [enqueue] at hs
      split at hs
      · cases hs
        exact ⟨by rintro _ ⟨⟩, fun _ => ⟨t, arg, rfl⟩, fun _ _ _ => rfl⟩
      · cases hs
        exact ⟨fun _ h => h, by rintro ⟨⟩, by rintro _ _ ⟨⟩⟩
  | drawTail arg it =>
      simp only [enqueue] at hs
      split at hs
      · cases hs
        exact ⟨by rintro _ ⟨⟩, by rintro ⟨⟩, by rintro _ _ ⟨⟩⟩
      · cases hs
        exact ⟨fun _ h => h, by rintro ⟨⟩, by rintro _ _ ⟨⟩⟩
  | readSafeAndIdx arg it t val =>
      simp only [enqueue] at hs
      split at hs
      · split at hs
        · cases hs
          exact ⟨fun _ h => h, by rintro ⟨⟩, by rintro _ _ ⟨⟩⟩
        · cases hs
          exact ⟨fun _ h => h, by rintro ⟨⟩, by rintro _ _ ⟨⟩⟩
      · cases hs
        exact ⟨fun _ h => h, by rintro ⟨⟩, by rintro _ _ ⟨⟩⟩
  | readHead arg it t w =>
      simp only [enqueue] at hs
      split at hs
      · cases hs
        exact ⟨fun _ h => h, by rintro ⟨⟩, by rintro _ _ ⟨⟩⟩
      · cases hs
        exact ⟨fun _ h => h, by rintro ⟨⟩, by rintro _ _ ⟨⟩⟩
  | checkOverflow arg it t =>
      simp only [enqueue] at hs
      split at hs
      · cases hs
        exact ⟨by rintro _ ⟨⟩, by rintro ⟨⟩, by rintro _ _ ⟨⟩⟩
      · cases hs
        exact ⟨fun _ h => h, by rintro ⟨⟩, by rintro _ _ ⟨⟩⟩

/-- A dequeue has seen the ring empty from the test of the tail on. -/
def Dequeue.Seen : Dequeue → Prop
  | .fixHead | .fixTail _ | .fixCheck _ _ | .fixCas _ _ | .empty => True
  | _ => False

theorem Dequeue.Seen.step {s s' : Shared} {pc pc' : Dequeue} {τ : RingTag ℕ}
    (hs : dequeue s pc = some (s', pc', τ)) (h : pc'.Seen) :
  pc.Seen ∨ ∃ t, τ = .sawEmpty t
  := by
  cases pc with
  | readTail t =>
      simp only [dequeue] at hs
      split at hs
      · cases hs
        exact Or.inr ⟨t, rfl⟩
      · cases hs
        cases h
  | fixHead => exact Or.inl trivial
  | fixTail t => exact Or.inl trivial
  | fixCheck t u => exact Or.inl trivial
  | fixCas t u => exact Or.inl trivial
  | _ =>
      -- no other access leads to a point from the test of the tail on
      cases pc' with
      | fixHead | fixTail | fixCheck | fixCas | empty =>
          simp only [dequeue] at hs
          grind
      | _ => cases h

theorem Sees.refl (j : ι) (σ : State ι) :
  Sees j σ σ
  := ⟨.refl _, le_rfl, fun _ _ => id, fun _ => Or.inl rfl, fun _ => Or.inl⟩

theorem dequeue_tag {s s' : Shared} {pc pc' : Dequeue} {τ : RingTag ℕ}
    (hs : dequeue s pc = some (s', pc', τ)) :
  τ.OfDequeue
  := by
  cases pc with
  | _ =>
      simp only [dequeue] at hs
      grind [RingTag.OfDequeue]

/-- A dequeue that looks whether the ring is empty holds no ticket. -/
theorem dequeue_saw {s s' : Shared} {pc pc' : Dequeue} {h : ℕ}
    (hs : dequeue s pc = some (s', pc', .sawEmpty h)) :
  pc.ticket = none
  := by
  cases pc with
  | readTail t => rfl
  | _ =>
      simp only [dequeue] at hs
      grind

/-- A step of the machine is a step of one of the operations. -/
theorem step_inv {i : ι} {ch : Unit} {s s' : Shared} {l l' : Local} {τ : RingTag ℕ}
    (hs : (machine ι).step i ch s l = some (s', l', τ)) :
  (∃ pc pc', l = .enqueue pc ∧ l' = .enqueue pc' ∧ enqueue s pc = some (s', pc', τ)) ∨
    ∃ pc pc', l = .dequeue pc ∧ l' = .dequeue pc' ∧ dequeue s pc = some (s', pc', τ)
  := by
  cases l with
  | enqueue pc =>
      obtain ⟨⟨_, pc', _⟩, hs, heq⟩ := Option.map_eq_some_iff.mp hs
      cases heq
      exact Or.inl ⟨pc, pc', rfl, rfl, hs⟩
  | dequeue pc =>
      obtain ⟨⟨_, pc', _⟩, hs, heq⟩ := Option.map_eq_some_iff.mp hs
      cases heq
      exact Or.inr ⟨pc, pc', rfl, rfl, hs⟩

theorem init_legal :
  Legal init
  := by decide

/-- CRQ as a ring of a queue. -/
def ring (ι : Type) : TicketRing (machine ι) (Tickets ι ℕ) where
  toTicketing := ticketing ι
  inv := Inv
  knows := Knows
  sees := Sees
  holds := Holds
  null := EMPTY
  enqueuing
    | .enqueue _ => true
    | .dequeue _ => false
  item
    | .enqueue pc => pc.arg
    | .dequeue _ => none
  seen
    | .enqueue _ => False
    | .dequeue pc => pc.Seen
  solo _ x s
    | .enqueue pc => pc.Solo x s
    | .dequeue _ => False
  sound := sound
  legal := init_legal
  dequeue_valid := trivial
  sees_refl := Sees.refl
  enqueuing_enqueue _ := rfl
  enqueuing_dequeue := rfl
  enqueuing_step hs := by
    rcases step_inv hs with ⟨pc, pc', rfl, rfl, -⟩ | ⟨pc, pc', rfl, rfl, -⟩ <;> rfl
  enqueuing_result := by
    rintro (pc | pc) v henq hv
    · cases pc with
      | ok =>
          cases hv
          exact Or.inl rfl
      | closed =>
          cases hv
          exact Or.inr rfl
      | _ => cases hv
    · cases henq
  dequeuing_result := by
    rintro (pc | pc) v henq hv
    · cases henq
    · cases pc with
      | gave val =>
          cases hv
          exact ⟨val, rfl⟩
      | empty =>
          cases hv
          exact ⟨EMPTY, rfl⟩
      | _ => cases hv
  enqueuing_deq := by
    rintro (pc | pc) henq
    · rfl
    · cases henq
  dequeuing_enq := by
    rintro (pc | pc) henq
    · cases henq
    · rfl
  ok := by
    intro i ch s l s' l' τ hs hok
    rcases step_inv hs with ⟨pc, pc', rfl, rfl, hpc⟩ | ⟨pc, pc', rfl, rfl, -⟩
    · apply (enqueue_arg hpc).2.1
      cases pc' with
      | ok => rfl
      | _ => cases hok
    · cases pc' with
      | _ => cases hok
  installed := by
    intro i ch s l s' l' t x hs
    rcases step_inv hs with ⟨pc, pc', rfl, rfl, hpc⟩ | ⟨pc, pc', rfl, rfl, hpc⟩
    · obtain rfl := (enqueue_arg hpc).2.2 t x rfl
      rfl
    · apply (dequeue_tag hpc).elim
  closed := by
    rintro i σ (pc | pc) hl hv
    · cases pc with
      | closed => exact hl.2
      | _ => cases hv
    · cases pc with
      | _ => cases hv
  item_enqueue h := (Option.some.inj h).symm
  item_step := by
    intro i ch s l s' l' τ y hs hy
    rcases step_inv hs with ⟨pc, pc', rfl, rfl, hpc⟩ | ⟨pc, pc', rfl, rfl, -⟩
    · exact (enqueue_arg hpc).1 y hy
    · cases hy
  item_enq := by
    rintro (pc | pc) t y h
    · cases pc with
      | drawTail arg it => cases h
      | close => cases h
      | ok => cases h
      | closed => cases h
      | _ =>
          cases h
          rfl
    · cases h
  seen_start := by
    rintro (x | _) h
    · cases h
    · cases h
  seen_step := by
    intro i ch s l s' l' τ hs hseen
    rcases step_inv hs with ⟨pc, pc', rfl, rfl, -⟩ | ⟨pc, pc', rfl, rfl, hpc⟩
    · cases hseen
    · exact Dequeue.Seen.step hpc hseen
  saw_deq := by
    intro i ch s l s' l' h hs
    rcases step_inv hs with ⟨pc, pc', rfl, rfl, -⟩ | ⟨pc, pc', rfl, rfl, hpc⟩
    · rfl
    · exact dequeue_saw hpc
  seen_null := by
    rintro i σ (pc | pc) hl hv
    · cases pc with
      | _ => cases hv
    · cases pc with
      | gave val =>
          cases hv
          exact absurd rfl hl.2
      | empty => trivial
      | _ => cases hv
  solo_start _ := ⟨rfl, rfl⟩
  solo_step := by
    intro i ch x s l s' l' τ hsolo hs
    rcases step_inv hs with ⟨pc, pc', rfl, rfl, hpc⟩ | ⟨pc, pc', rfl, rfl, -⟩
    · exact Enqueue.Solo.step hsolo hpc
    · cases hsolo
  solo_result := by
    rintro i x s (pc | pc) v hsolo hv
    · cases pc with
      | ok =>
          cases hv
          rfl
      | closed => cases hsolo
      | _ => cases hv
    · cases hsolo

end CRQ
