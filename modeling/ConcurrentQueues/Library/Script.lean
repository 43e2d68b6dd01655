import ConcurrentQueues.Library.Machine

/-!
# Runs from scripts

A script tells for each step which thread moves and how. A machine whose conditions are
decidable plays a script by itself, and a script that it plays to the end is a run.
-/

/-- What a script lets a thread do: call an operation, return, or perform an access for
which the environment decides `ch`. -/
inductive Move (Op Ch : Type) where
  | call (o : Op)
  | ret
  | act (ch : Ch)

namespace Machine

variable {ι σ ℓ Op Res Tag Ch : Type} [DecidableEq ι] (M : Machine ι σ ℓ Op Res Tag Ch)
  [DecidablePred M.valid] [DecidablePred M.legal]

/-- The move `m` of thread `i` from configuration `c`, if it is possible. -/
def move (c : Config ι σ ℓ) (i : ι) : Move Op Ch → Option (Event Op Res Tag × Config ι σ ℓ)
  | .call o =>
      match c.thread i with
      | none => if M.valid o then some (.call o, c.put i c.shared (some (M.start o))) else none
      | some _ => none
  | .ret => do
      let l ← c.thread i
      let v ← M.result l
      return (.ret v, c.put i c.shared none)
  | .act ch => do
      let l ← c.thread i
      let (s, l', t) ← M.step i ch c.shared l
      return (.act t, c.put i s (some l'))

/-- The script from configuration `c` on, as the list of steps with the configurations
they lead to. -/
def play (c : Config ι σ ℓ) :
    List (ι × Move Op Ch) → Option (List (ι × Event Op Res Tag × Config ι σ ℓ))
  | [] => some []
  | (i, m) :: rest => do
      let (e, c') ← M.move c i m
      if M.legal c'.shared then
        let steps ← play c' rest
        return (i, e, c') :: steps
      else none

variable {M}

omit [DecidablePred M.legal] in
/-- A possible move is a step. -/
theorem step_of_move {c c' : Config ι σ ℓ} {i : ι} {m : Move Op Ch} {e : Event Op Res Tag}
    (h : M.move c i m = some (e, c')) :
  M.Step c i e c'
  := by
  cases m with
  | call o =>
      rw [move] at h
      split at h
      case h_1 hidle =>
        split at h
        case isTrue hvalid =>
          cases h
          apply Step.call hidle hvalid
        case isFalse => cases h
      case h_2 => cases h
  | ret =>
      obtain ⟨l, hl, h⟩ := Option.bind_eq_some_iff.mp h
      obtain ⟨v, hv, h⟩ := Option.bind_eq_some_iff.mp h
      cases h
      apply Step.ret hl hv
  | act ch =>
      obtain ⟨l, hl, h⟩ := Option.bind_eq_some_iff.mp h
      obtain ⟨⟨s, l', t⟩, hs, h⟩ := Option.bind_eq_some_iff.mp h
      cases h
      apply Step.act hl hs

/-- The configuration before step `k` of a script played from `c`. -/
def before (c : Config ι σ ℓ) (steps : List (ι × Event Op Res Tag × Config ι σ ℓ)) (k : ℕ) :
    Config ι σ ℓ :=
  match k with
  | 0 => c
  | k + 1 => (steps[k]?.map fun x => x.2.2).getD c

theorem play_step {c : Config ι σ ℓ} {script : List (ι × Move Op Ch)}
    {steps : List (ι × Event Op Res Tag × Config ι σ ℓ)} (h : M.play c script = some steps) :
  ∀ (k : ℕ) x, steps[k]? = some x →
    M.Step (before c steps k) x.1 x.2.1 (before c steps (k + 1)) ∧ M.legal x.2.2.shared
  := by
  induction script generalizing c steps with
  | nil =>
      intro k x hx
      cases h
      cases hx
  | cons first rest ih =>
      obtain ⟨i, m⟩ := first
      obtain ⟨⟨e, c'⟩, hm, h⟩ := Option.bind_eq_some_iff.mp h
      simp only at h
      split at h
      case isFalse => cases h
      case isTrue hlegal =>
        obtain ⟨steps', hrest, heq⟩ := Option.bind_eq_some_iff.mp h
        cases heq
        intro k x hx
        cases k with
        | zero =>
            cases hx
            exact ⟨step_of_move hm, hlegal⟩
        | succ k =>
            rw [List.getElem?_cons_succ] at hx
            obtain ⟨hstep, hl⟩ := ih hrest k x hx
            refine ⟨?_, hl⟩
            cases k with
            | zero =>
                simp only [before, List.getElem?_cons_succ, hx] at hstep ⊢
                exact hstep
            | succ k =>
                obtain ⟨hlt, -⟩ := List.getElem?_eq_some_iff.mp hx
                have hk := List.getElem?_eq_getElem (Nat.lt_of_succ_lt hlt)
                simp only [before, List.getElem?_cons_succ, hx, hk] at hstep ⊢
                exact hstep

theorem play_length {c : Config ι σ ℓ} {script : List (ι × Move Op Ch)}
    {steps : List (ι × Event Op Res Tag × Config ι σ ℓ)} (h : M.play c script = some steps) :
  steps.length = script.length
  := by
  induction script generalizing c steps with
  | nil =>
      cases h
      rfl
  | cons first rest ih =>
      obtain ⟨i, m⟩ := first
      obtain ⟨⟨e, c'⟩, hm, h⟩ := Option.bind_eq_some_iff.mp h
      simp only at h
      split at h
      case isFalse => cases h
      case isTrue hlegal =>
        obtain ⟨steps', hrest, heq⟩ := Option.bind_eq_some_iff.mp h
        cases heq
        rw [List.length_cons, List.length_cons, ih hrest]

/-- The run of a script that can be played to the end. -/
def Run.ofScript [Inhabited ι] [Inhabited Op] (script : List (ι × Move Op Ch))
    (hinit : M.legal M.init) (h : (M.play ⟨M.init, fun _ => none⟩ script).isSome) :
    M.Run script.length where
  conf := before ⟨M.init, fun _ => none⟩ ((M.play ⟨M.init, fun _ => none⟩ script).get h)
  who k := (((M.play ⟨M.init, fun _ => none⟩ script).get h)[k]?.map fun x => x.1).getD default
  event k := (((M.play ⟨M.init, fun _ => none⟩ script).get h)[k]?.map fun x => x.2.1).getD
    (.call default)
  start := rfl
  step k hk := by
    have hplay := (Option.some_get h).symm
    rw [← play_length hplay] at hk
    have hx := List.getElem?_eq_getElem hk
    rw [hx]
    exact (play_step hplay k _ hx).1
  legal k hk := by
    have hplay := (Option.some_get h).symm
    cases k with
    | zero => exact hinit
    | succ k =>
        rw [← play_length hplay] at hk
        have hx := List.getElem?_eq_getElem (Nat.lt_of_succ_le hk)
        rw [before, hx]
        exact (play_step hplay k _ hx).2

omit [DecidablePred M.valid] [DecidablePred M.legal] in
/-- A call goes on while the thread performs accesses. -/
theorem Run.within_of_tags {n : ℕ} {r : M.Run n} {i : ι} {a b : ℕ} (hab : a < b)
    (hacts : ∀ m < b, a < m → r.who m = i → (r.tag m).isSome) :
  r.Within i a b
  := by
  refine ⟨hab, fun m ham hmb hi => ?_⟩
  obtain ⟨t, ht⟩ := Option.isSome_iff_exists.mp (hacts m hmb ham hi)
  exact ⟨t, Run.tag_eq_some.mp ht⟩

omit [DecidablePred M.valid] [DecidablePred M.legal] in
/-- A call and its return, found among the events of a run. -/
theorem Run.returns_of_events {n : ℕ} {r : M.Run n} {i : ι} {o : Op} {a b : ℕ} {v : Res}
    (hab : a < b) (hb : b < n) (hcall : r.who a = i ∧ r.event a = .call o)
    (hacts : ∀ m < b, a < m → r.who m = i → (r.tag m).isSome)
    (hret : r.who b = i ∧ r.event b = .ret v) :
  r.Returns i o a v b
  := ⟨⟨hab.trans hb, hcall⟩, within_of_tags hab hacts, hb, hret⟩

end Machine
