import ConcurrentQueues.PRQ.Exact

/-!
# PRQ as a ring of a queue

What a queue of rings has to know of PRQ. An enqueue into a new ring that no other thread
knows takes ticket `R` and finds its cell safe, of epoch 0 and null, so it is not refused.
-/

namespace PRQ

open Machine

variable {ι : Type}

/-- A new ring after the first `fetch_add` on its tail. -/
def drawn : Shared := { init with tail := R + 1 }

/-- A new ring in whose first cell a thread has stored its token. -/
def marked (token : ℕ) : Shared := drawn.setValue 0 token

/-- A new ring whose first cell a thread has claimed. -/
def claimed (token : ℕ) : Shared := (marked token).setWord 0 (encodeCellSafeEpoch true 1)

/-- An enqueue of `x` into a new ring that no other thread knows. -/
def Enqueue.Solo (token x : ℕ) (s : Shared) : Enqueue → Prop
  | .drawTail item _ => item = x ∧ s = init
  | .readWord item _ t => item = x ∧ s = drawn ∧ t = R
  | .readValue item _ t w => item = x ∧ s = drawn ∧ t = R ∧ w = encodeCellSafeEpoch true 0
  | .placeToken item _ t w v =>
      item = x ∧ s = drawn ∧ t = R ∧ w = encodeCellSafeEpoch true 0 ∧ v = NULL_VALUE
  | .casWord item _ t w => item = x ∧ s = marked token ∧ t = R ∧ w = encodeCellSafeEpoch true 0
  | .install item _ t => item = x ∧ s = claimed token ∧ t = R
  | .ok => True
  | _ => False

theorem mod_R :
  R % R = 0
  := by decide

theorem div_R :
  R / R = 1
  := by decide

theorem Enqueue.Solo.step {token x : ℕ} {s s' : Shared} {pc pc' : Enqueue} {τ : RingTag ℕ}
    (h : pc.Solo token x s) (hs : enqueue token s pc = some (s', pc', τ)) :
  pc'.Solo token x s'
  := by
  cases pc with
  | drawTail item it =>
      obtain ⟨rfl, rfl⟩ := h
      have hopen : decodeTailClosed init.tail = false := by decide
      have hdraw : fetchAdd init.tail = R + 1 := by decide
      have hticket : decodeTailT init.tail = R := by decide
      simp only [enqueue, hopen, hdraw, hticket] at hs
      cases hs
      exact ⟨rfl, rfl, rfl⟩
  | readWord item it t =>
      obtain ⟨rfl, rfl, rfl⟩ := h
      cases hs
      exact ⟨rfl, rfl, rfl, rfl⟩
  | readValue item it t w =>
      obtain ⟨rfl, rfl, rfl, rfl⟩ := h
      have hvacant : vacant (drawn.a (R % R)).value = true := by decide
      have hepoch : decodeCellEpoch (encodeCellSafeEpoch true 0) < R / R := by decide
      have hsafe : decodeCellSafe (encodeCellSafeEpoch true 0) = true := by decide
      simp only [enqueue, hvacant, hepoch, hsafe, and_self, if_true] at hs
      cases hs
      exact ⟨rfl, rfl, rfl, rfl, rfl⟩
  | placeToken item it t w v =>
      obtain ⟨rfl, rfl, rfl, rfl, rfl⟩ := h
      have hnull : (drawn.a (R % R)).value = NULL_VALUE := by decide
      simp only [enqueue, if_pos hnull] at hs
      cases hs
      exact ⟨rfl, by rw [mod_R, marked], rfl, rfl⟩
  | casWord item it t w =>
      obtain ⟨rfl, rfl, rfl, rfl⟩ := h
      have hword : ((marked token).a (R % R)).safeAndEpoch = encodeCellSafeEpoch true 0 := by
        rw [mod_R]
        rfl
      simp only [enqueue, if_pos hword] at hs
      cases hs
      exact ⟨rfl, by rw [mod_R, div_R, claimed], rfl⟩
  | install item it t =>
      obtain ⟨rfl, rfl, rfl⟩ := h
      have hvalue : ((claimed token).a (R % R)).value = token := by
        rw [mod_R]
        rfl
      simp only [enqueue, if_pos hvalue] at hs
      cases hs
      trivial
  | ok => cases hs
  | readHead item it t w v => cases h
  | clearToken item it t => cases h
  | checkOverflow item it t => cases h
  | close => cases h
  | closed => cases h

/-- The item an enqueue has not installed yet. -/
def Enqueue.arg : Enqueue → Option ℕ
  | .drawTail item _ | .readWord item _ _ | .readValue item _ _ _ | .readHead item _ _ _ _
  | .placeToken item _ _ _ _ | .casWord item _ _ _ | .clearToken item _ _ | .install item _ _
  | .checkOverflow item _ _ => some item
  | .close | .ok | .closed => none

/-- Each access of `enqueue` keeps its item, and ends in `ok` only by installing it. -/
theorem enqueue_arg {token : ℕ} {s s' : Shared} {pc pc' : Enqueue} {τ : RingTag ℕ}
    (hs : enqueue token s pc = some (s', pc', τ)) :
  (∀ y, pc'.arg = some y → pc.arg = some y) ∧ (pc' = .ok → ∃ t x, τ = .install t x) ∧
    ∀ t x, τ = .install t x → pc' = .ok
  := by
  cases pc with
  | ok => cases hs
  | closed => cases hs
  | readWord item it t =>
      cases hs
      exact ⟨fun _ h => h, by rintro ⟨⟩, by rintro _ _ ⟨⟩⟩
  | close =>
      cases hs
      exact ⟨by rintro _ ⟨⟩, by rintro ⟨⟩, by rintro _ _ ⟨⟩⟩
  | install item it t =>
      simp only [enqueue] at hs
      split at hs
      · cases hs
        exact ⟨by rintro _ ⟨⟩, fun _ => ⟨t, item, rfl⟩, fun _ _ _ => rfl⟩
      · cases hs
        exact ⟨fun _ h => h, by rintro ⟨⟩, by rintro _ _ ⟨⟩⟩
  | drawTail item it =>
      simp only [enqueue] at hs
      split at hs
      · cases hs
        exact ⟨by rintro _ ⟨⟩, by rintro ⟨⟩, by rintro _ _ ⟨⟩⟩
      · cases hs
        exact ⟨fun _ h => h, by rintro ⟨⟩, by rintro _ _ ⟨⟩⟩
  | readValue item it t w =>
      simp only [enqueue] at hs
      split at hs
      · split at hs
        · cases hs
          exact ⟨fun _ h => h, by rintro ⟨⟩, by rintro _ _ ⟨⟩⟩
        · cases hs
          exact ⟨fun _ h => h, by rintro ⟨⟩, by rintro _ _ ⟨⟩⟩
      · cases hs
        exact ⟨fun _ h => h, by rintro ⟨⟩, by rintro _ _ ⟨⟩⟩
  | readHead item it t w v | placeToken item it t w v | casWord item it t w
  | clearToken item it t =>
      simp only [enqueue] at hs
      split at hs
      · cases hs
        exact ⟨fun _ h => h, by rintro ⟨⟩, by rintro _ _ ⟨⟩⟩
      · cases hs
        exact ⟨fun _ h => h, by rintro ⟨⟩, by rintro _ _ ⟨⟩⟩
  | checkOverflow item it t =>
      simp only [enqueue] at hs
      split at hs
      · cases hs
        exact ⟨by rintro _ ⟨⟩, by rintro ⟨⟩, by rintro _ _ ⟨⟩⟩
      · cases hs
        exact ⟨fun _ h => h, by rintro ⟨⟩, by rintro _ _ ⟨⟩⟩

/-- A dequeue has seen the ring empty when it ends so. -/
def Dequeue.Seen : Dequeue → Prop
  | .empty => True
  | _ => False

theorem Dequeue.Seen.step {s s' : Shared} {pc pc' : Dequeue} {τ : RingTag ℕ}
    (hs : dequeue s pc = some (s', pc', τ)) (h : pc'.Seen) :
  pc.Seen ∨ ∃ t, τ = .sawEmpty t
  := by
  cases pc' with
  | empty =>
      cases pc with
      | readTail t =>
          simp only [dequeue] at hs
          split at hs
          · cases hs
            exact Or.inr ⟨t, rfl⟩
          · cases hs
      | _ =>
          simp only [dequeue] at hs
          grind
  | _ => cases h

theorem Sees.refl (tokens : Tokens ι) (j : ι) (σ : State ι) :
  Sees tokens j σ σ
  := by
  refine ⟨.refl _, fun _ _ => id, fun c => ?_, fun _ => Or.inl, fun _ _ => Or.inl, fun _ _ => rfl⟩
  exact ⟨Or.inl rfl, fun _ h₁ h₂ => ⟨h₁, h₂⟩, fun _ _ => id, fun hv => ⟨hv, fun h₁ => ⟨h₁, rfl⟩⟩⟩

theorem dequeue_tag {s s' : Shared} {pc pc' : Dequeue} {τ : RingTag ℕ}
    (hs : dequeue s pc = some (s', pc', τ)) :
  τ.OfDequeue
  := by
  cases pc with
  | _ =>
      simp only [dequeue] at hs
      grind [RingTag.OfDequeue]

/-- A dequeue that looks whether the ring is empty holds no ticket. -/
theorem dequeue_saw {s s' : Shared} {pc pc' : Dequeue} {h : ℕ}
    (hs : dequeue s pc = some (s', pc', .sawEmpty h)) :
  pc.ticket = none
  := by
  cases pc with
  | readTail t => rfl
  | _ =>
      simp only [dequeue] at hs
      grind

/-- A step of the machine is a step of one of the operations. -/
theorem step_inv {tokens : Tokens ι} {i : ι} {ch : Unit} {s s' : Shared} {l l' : Local}
    {τ : RingTag ℕ} (hs : (machine tokens).step i ch s l = some (s', l', τ)) :
  (∃ pc pc', l = .enqueue pc ∧ l' = .enqueue pc' ∧
      enqueue (tokens.threadToken i) s pc = some (s', pc', τ)) ∨
    ∃ pc pc', l = .dequeue pc ∧ l' = .dequeue pc' ∧ dequeue s pc = some (s', pc', τ)
  := by
  cases l with
  | enqueue pc =>
      obtain ⟨⟨_, pc', _⟩, hs, heq⟩ := Option.map_eq_some_iff.mp hs
      cases heq
      exact Or.inl ⟨pc, pc', rfl, rfl, hs⟩
  | dequeue pc =>
      obtain ⟨⟨_, pc', _⟩, hs, heq⟩ := Option.map_eq_some_iff.mp hs
      cases heq
      exact Or.inr ⟨pc, pc', rfl, rfl, hs⟩

theorem init_legal :
  Legal init
  := by decide

/-- PRQ as a ring of a queue. -/
def ring (tokens : Tokens ι) : TicketRing (machine tokens) (Trace ι) where
  toTicketing := ticketing tokens
  inv := Inv
  knows := Knows tokens
  sees := Sees tokens
  holds := Holds
  null := EMPTY
  enqueuing
    | .enqueue _ => true
    | .dequeue _ => false
  item
    | .enqueue pc => pc.arg
    | .dequeue _ => none
  seen
    | .enqueue _ => False
    | .dequeue pc => pc.Seen
  solo i x s
    | .enqueue pc => pc.Solo (tokens.threadToken i) x s
    | .dequeue _ => False
  sound := sound tokens
  legal := init_legal
  dequeue_valid := trivial
  sees_refl j σ := Sees.refl tokens j σ
  enqueuing_enqueue _ := rfl
  enqueuing_dequeue := rfl
  enqueuing_step hs := by
    rcases step_inv hs with ⟨pc, pc', rfl, rfl, -⟩ | ⟨pc, pc', rfl, rfl, -⟩ <;> rfl
  enqueuing_result := by
    rintro (pc | pc) v henq hv
    · cases pc with
      | ok =>
          cases hv
          exact Or.inl rfl
      | closed =>
          cases hv
          exact Or.inr rfl
      | _ => cases hv
    · cases henq
  dequeuing_result := by
    rintro (pc | pc) v henq hv
    · cases henq
    · cases pc with
      | gave val =>
          cases hv
          exact ⟨val, rfl⟩
      | empty =>
          cases hv
          exact ⟨EMPTY, rfl⟩
      | _ => cases hv
  enqueuing_deq := by
    rintro (pc | pc) henq
    · rfl
    · cases henq
  dequeuing_enq := by
    rintro (pc | pc) henq
    · cases henq
    · rfl
  ok := by
    intro i ch s l s' l' τ hs hok
    rcases step_inv hs with ⟨pc, pc', rfl, rfl, hpc⟩ | ⟨pc, pc', rfl, rfl, -⟩
    · apply (enqueue_arg hpc).2.1
      cases pc' with
      | ok => rfl
      | _ => cases hok
    · cases pc' with
      | _ => cases hok
  installed := by
    intro i ch s l s' l' t x hs
    rcases step_inv hs with ⟨pc, pc', rfl, rfl, hpc⟩ | ⟨pc, pc', rfl, rfl, hpc⟩
    · obtain rfl := (enqueue_arg hpc).2.2 t x rfl
      rfl
    · apply (dequeue_tag hpc).elim
  closed := by
    rintro i σ (pc | pc) hl hv
    · cases pc with
      | closed => exact hl.2
      | _ => cases hv
    · cases pc with
      | _ => cases hv
  item_enqueue h := (Option.some.inj h).symm
  item_step := by
    intro i ch s l s' l' τ y hs hy
    rcases step_inv hs with ⟨pc, pc', rfl, rfl, hpc⟩ | ⟨pc, pc', rfl, rfl, -⟩
    · exact (enqueue_arg hpc).1 y hy
    · cases hy
  item_enq := by
    rintro (pc | pc) t y h
    · cases pc with
      | drawTail arg it => cases h
      | close => cases h
      | ok => cases h
      | closed => cases h
      | _ =>
          cases h
          rfl
    · cases h
  seen_start := by
    rintro (x | _) h
    · cases h
    · cases h
  seen_step := by
    intro i ch s l s' l' τ hs hseen
    rcases step_inv hs with ⟨pc, pc', rfl, rfl, -⟩ | ⟨pc, pc', rfl, rfl, hpc⟩
    · cases hseen
    · exact Dequeue.Seen.step hpc hseen
  saw_deq := by
    intro i ch s l s' l' h hs
    rcases step_inv hs with ⟨pc, pc', rfl, rfl, -⟩ | ⟨pc, pc', rfl, rfl, hpc⟩
    · rfl
    · exact dequeue_saw hpc
  seen_null := by
    rintro i σ (pc | pc) hl hv
    · cases pc with
      | _ => cases hv
    · cases pc with
      | gave val =>
          cases hv
          exact absurd rfl hl.2
      | empty => trivial
      | _ => cases hv
  solo_start _ := ⟨rfl, rfl⟩
  solo_step := by
    intro i ch x s l s' l' τ hsolo hs
    rcases step_inv hs with ⟨pc, pc', rfl, rfl, hpc⟩ | ⟨pc, pc', rfl, rfl, -⟩
    · exact Enqueue.Solo.step hsolo hpc
    · cases hsolo
  solo_result := by
    rintro i x s (pc | pc) v hsolo hv
    · cases pc with
      | ok =>
          cases hv
          rfl
      | closed => cases hsolo
      | _ => cases hv
    · cases hsolo

end PRQ
