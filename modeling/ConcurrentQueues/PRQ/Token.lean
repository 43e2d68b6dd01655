import ConcurrentQueues.Library.Family
import ConcurrentQueues.PRQ.Ring

/-!
# The tokens of PRQ

A thread has one token for all rings and all attempts. An enqueue stores it in a cell in place of
null or of another token, and by its next CAS on the value of that cell it stores the item or clears
the token again, if the token is still there. Only the thread itself stores its token, so a token
that is found in a cell has been there since the thread stored it last.
-/

namespace PRQ

open Machine

variable {ι κ : Type} [DecidableEq κ]

/-- The rings named by `κ`, without a bound on the numbers of tickets. -/
def rings (tokens : Tokens ι) (κ : Type) [DecidableEq κ] :
    Machine ι (κ → Shared) (κ × Local) (κ × RingOp ℕ) (RingRes ℕ) (κ × RingTag ℕ) Unit :=
  family { machine tokens with legal := fun _ => True } κ

/-- An enqueue that has stored its token with the ticket `t` and has not yet made its next CAS on
the value of the cell. -/
def Enqueue.Waits (t : ℕ) : Enqueue → Prop
  | .casWord _ _ u _ | .clearToken _ _ u | .install _ _ u => u = t
  | _ => False

section runs

variable [DecidableEq ι] {tokens : Tokens ι} {n : ℕ} (r : (rings tokens κ).Run n)

/-- The value of the cell at index `c` of ring `p` before step `k`. -/
def valueAt (p : κ) (c k : ℕ) : ℕ := (((r.conf k).shared p).a c).value

/-- At step `d` thread `i`, whose ticket for ring `p` is `t`, replaces null or a token in the cell of
the ticket by its own token. -/
structure Places (i : ι) (p : κ) (t d : ℕ) : Prop where
  acts : r.Acts i (p, .other) d
  point : ∃ item iteration safeAndEpoch, (r.conf d).thread i = some (p, .enqueue
    (.placeToken item iteration t safeAndEpoch (valueAt r p (t % R) d)))
  vacant : vacant (valueAt r p (t % R) d) = true
  token : valueAt r p (t % R) (d + 1) = tokens.threadToken i

/-- The token that thread `i` has stored at step `d` is in the cell until step `k`, and the thread
has not left the attempt, nor made its next CAS on the value of the cell. -/
structure Keeps (i : ι) (p : κ) (t d k : ℕ) : Prop where
  lt : d < k
  places : Places r i p t d
  since : ∀ m, d < m → m ≤ k → valueAt r p (t % R) m = tokens.threadToken i ∧
    ∃ pc, (r.conf m).thread i = some (p, .enqueue pc) ∧ pc.Waits t

/-- The tokens neither leak nor collide. -/
structure KeepsTokens : Prop where
  /-- A token is in at most one cell of all rings. -/
  once : ∀ k ≤ n, ∀ i p q c d, valueAt r p c k = tokens.threadToken i →
    valueAt r q d k = tokens.threadToken i → p = q ∧ c = d
  /-- A token is in a cell only between the CAS that stores it and the next one on this cell. -/
  kept : ∀ k ≤ n, ∀ i p c, valueAt r p c k = tokens.threadToken i →
    ∃ t d, t % R = c ∧ Keeps r i p t d k
  /-- When a call returns, or an enqueue begins an attempt, the token of the thread is nowhere. -/
  returns : ∀ k < n, ∀ v, r.event k = .ret v →
    ∀ p c, valueAt r p c k ≠ tokens.threadToken (r.who k)
  attempts : ∀ k ≤ n, ∀ i p item iteration,
    (r.conf k).thread i = some (p, .enqueue (.drawTail item iteration)) →
    ∀ q c, valueAt r q c k ≠ tokens.threadToken i
  /-- An item replaces the token that the same attempt has stored. -/
  installs : ∀ i p t x k, r.Acts i (p, .install t x) k → ∃ d, Keeps r i p t d k

end runs

/-! ### What an access writes -/

section access

variable {tokens : Tokens ι} {i : ι} {ch : Unit} {s s' : Shared} {l l' : Local}
  {τ : RingTag ℕ} {c t v token : ℕ}

@[simp]
theorem setCell_self (s : Shared) (c : ℕ) (x : Cell) :
  (s.setCell c x).a c = x
  := Function.update_self ..

theorem setCell_of_ne {e : ℕ} (h : c ≠ e) (s : Shared) (x : Cell) :
  (s.setCell e x).a c = s.a c
  := Function.update_of_ne h ..

theorem setValue_value (s : Shared) (e x c : ℕ) :
  ((s.setValue e x).a c).value = (s.a c).value ∨
    e = c ∧ ((s.setValue e x).a c).value = x
  := by
  by_cases hec : e = c
  · subst hec
    refine Or.inr ⟨rfl, ?_⟩
    rw [Shared.setValue, setCell_self]
  · left
    rw [Shared.setValue, setCell_of_ne (Ne.symm hec)]

theorem setWord_value (s : Shared) (e w c : ℕ) :
  ((s.setWord e w).a c).value = (s.a c).value
  := by
  by_cases hec : e = c
  · subst hec
    rw [Shared.setWord, setCell_self]
  · rw [Shared.setWord, setCell_of_ne (Ne.symm hec)]

/-- What an enqueue knows without looking at the ring: its item is one, and the value it is going to
replace by its token was none. -/
def Local.Fair : Local → Prop
  | .enqueue pc => (∀ x, pc.arg = some x → vacant x = false) ∧
      match pc with
      | .readHead _ _ _ _ value | .placeToken _ _ _ _ value => vacant value = true
      | _ => True
  | .dequeue _ => True

theorem Local.Fair.step (h : l.Fair) (hs : (machine tokens).step i ch s l = some (s', l', τ)) :
  l'.Fair
  := by
  rcases step_inv hs with ⟨pc, pc', rfl, rfl, hpc⟩ | ⟨pc, pc', rfl, rfl, -⟩
  · obtain ⟨hitem, hvalue⟩ := h
    use fun x hx => hitem x ((enqueue_arg hpc).1 x hx)
    cases pc with
    | readValue item it t w =>
        simp only [PRQ.enqueue] at hpc
        split at hpc
        case isTrue hcond =>
          split at hpc
          · cases hpc
            exact hcond.1
          · cases hpc
            exact hcond.1
        case isFalse =>
          cases hpc
          trivial
    | readHead item it t w v =>
        simp only [PRQ.enqueue] at hpc
        split at hpc
        · cases hpc
          exact hvalue
        · cases hpc
          trivial
    | readWord | close =>
        cases hpc
        trivial
    | ok | closed => cases hpc
    | drawTail item it | placeToken item it t w v | casWord item it t w | clearToken item it t
    | install item it t | checkOverflow item it t =>
        simp only [PRQ.enqueue] at hpc
        split at hpc
        · cases hpc
          trivial
        · cases hpc
          trivial
  · trivial

/-- What an access of an enqueue makes of a value: it stays, becomes null or the item, or is replaced
by the token, which takes a CAS. -/
theorem enqueue_value {pc pc' : Enqueue} (hs : enqueue token s pc = some (s', pc', τ)) (c : ℕ) :
  (s'.a c).value = (s.a c).value ∨ (s'.a c).value = NULL_VALUE ∨ pc.arg = some (s'.a c).value ∨
    (s'.a c).value = token ∧ τ = .other ∧ ∃ item it t w, t % R = c ∧
      pc = .placeToken item it t w (s.a c).value ∧ pc' = .casWord item it t w
  := by
  cases pc with
  | placeToken item it t w v =>
      simp only [enqueue] at hs
      split at hs
      case isTrue hv =>
        cases hs
        rcases setValue_value s (t % R) token c with heq | ⟨rfl, heq⟩
        · exact Or.inl heq
        · rw [← hv]
          exact Or.inr (Or.inr (Or.inr ⟨heq, rfl, item, it, t, w, rfl, rfl, rfl⟩))
      case isFalse =>
        cases hs
        exact Or.inl rfl
  | casWord item it t w =>
      simp only [enqueue] at hs
      split at hs
      · cases hs
        exact Or.inl (setWord_value ..)
      · cases hs
        exact Or.inl rfl
  | clearToken item it t =>
      simp only [enqueue] at hs
      split at hs
      · cases hs
        exact (setValue_value ..).imp id fun h => Or.inl h.2
      · cases hs
        exact Or.inl rfl
  | install item it t =>
      simp only [enqueue] at hs
      split at hs
      · cases hs
        exact (setValue_value ..).imp id fun h => Or.inr (Or.inl (congrArg some h.2.symm))
      · cases hs
        exact Or.inl rfl
  | readWord | close =>
      cases hs
      exact Or.inl rfl
  | readValue item it t w =>
      simp only [enqueue] at hs
      split at hs
      · split at hs
        · cases hs
          exact Or.inl rfl
        · cases hs
          exact Or.inl rfl
      · cases hs
        exact Or.inl rfl
  | drawTail item it | readHead item it t w v | checkOverflow item it t =>
      simp only [enqueue] at hs
      split at hs
      · cases hs
        exact Or.inl rfl
      · cases hs
        exact Or.inl rfl
  | ok | closed => cases hs

/-- A dequeue writes only null. -/
theorem dequeue_value {pc pc' : Dequeue} (hs : dequeue s pc = some (s', pc', τ)) (c : ℕ) :
  (s'.a c).value = (s.a c).value ∨ (s'.a c).value = NULL_VALUE
  := by
  cases pc with
  | drawHead | readWord | readValue =>
      cases hs
      exact Or.inl rfl
  | take h v =>
      cases hs
      exact (setValue_value ..).imp id And.right
  | killToken h w v =>
      simp only [dequeue] at hs
      split at hs
      · cases hs
        exact (setValue_value ..).imp id And.right
      · cases hs
        exact Or.inl rfl
  | advance h w | mark h w =>
      simp only [dequeue] at hs
      split at hs
      · cases hs
        exact Or.inl (setWord_value ..)
      · cases hs
        exact Or.inl rfl
  | readTail h =>
      simp only [dequeue] at hs
      split at hs
      · cases hs
        exact Or.inl rfl
      · cases hs
        exact Or.inl rfl
  | checkWord h w v =>
      simp only [dequeue] at hs
      have heq : s' = s := by grind
      rw [heq]
      exact Or.inl rfl
  | gave | empty => cases hs

theorem token_ne_null (tokens : Tokens ι) (j : ι) :
  tokens.threadToken j ≠ NULL_VALUE
  := by
  intro heq
  have htoken := tokens.token j
  rw [heq, not_isToken_null] at htoken
  cases htoken

theorem item_ne_token {pc : Enqueue} {x : ℕ} (h : (Local.enqueue pc).Fair) (hx : pc.arg = some x)
    (tokens : Tokens ι) (j : ι) :
  x ≠ tokens.threadToken j
  := by
  rintro rfl
  cases (h.1 _ hx).symm.trans (vacant_of_isToken (tokens.token j))

/-- A token comes to a cell by the CAS of its own thread. -/
theorem token_new {j : ι} (hl : l.Fair) (hs : (machine tokens).step i ch s l = some (s', l', τ))
    (hold : (s.a c).value ≠ tokens.threadToken j)
    (hnew : (s'.a c).value = tokens.threadToken j) :
  j = i ∧ τ = .other ∧ ∃ item it t w, t % R = c ∧
    l = .enqueue (.placeToken item it t w (s.a c).value) ∧ l' = .enqueue (.casWord item it t w)
  := by
  rw [← hnew] at hold
  rcases step_inv hs with ⟨pc, pc', rfl, rfl, hpc⟩ | ⟨pc, pc', rfl, rfl, hpc⟩
  · rcases enqueue_value hpc c with heq | hnull | hitem | ⟨htoken, hτ, item, it, t, w, ht, hp, hp'⟩
    · exact absurd heq.symm hold
    · exact absurd (hnew.symm.trans hnull) (token_ne_null tokens j)
    · exact absurd hnew (item_ne_token hl hitem tokens j)
    · refine ⟨tokens.injective (hnew.symm.trans htoken), hτ, item, it, t, w, ht, ?_, ?_⟩
      · rw [hp]
      · rw [hp']
  · rcases dequeue_value hpc c with heq | hnull
    · exact absurd heq.symm hold
    · exact absurd (hnew.symm.trans hnull) (token_ne_null tokens j)

/-- An attempt goes on while its token is in the cell. -/
theorem Enqueue.Waits.step {pc pc' : Enqueue} (h : pc.Waits t) (hl : (Local.enqueue pc).Fair)
    (hs : enqueue (tokens.threadToken i) s pc = some (s', pc', τ))
    (hold : (s.a (t % R)).value = tokens.threadToken i)
    (hnew : (s'.a (t % R)).value = tokens.threadToken i) :
  pc'.Waits t
  := by
  cases pc with
  | casWord item it u w =>
      simp only [PRQ.enqueue] at hs
      split at hs
      · cases hs
        exact h
      · cases hs
        exact h
  | clearToken item it u =>
      obtain rfl : u = t := h
      simp only [PRQ.enqueue, if_pos hold] at hs
      cases hs
      rw [Shared.setValue, setCell_self] at hnew
      exact absurd hnew.symm (token_ne_null tokens i)
  | install item it u =>
      obtain rfl : u = t := h
      simp only [PRQ.enqueue, if_pos hold] at hs
      cases hs
      rw [Shared.setValue, setCell_self] at hnew
      exact absurd hnew (item_ne_token hl rfl tokens i)
  | _ => cases h

/-- An item is installed in place of the token of the thread. -/
theorem step_install {x : ℕ} (hs : (machine tokens).step i ch s l = some (s', l', .install t x)) :
  ∃ it, l = .enqueue (.install x it t) ∧ (s.a (t % R)).value = tokens.threadToken i
  := by
  rcases step_inv hs with ⟨pc, pc', rfl, rfl, hpc⟩ | ⟨pc, pc', rfl, rfl, hpc⟩
  · cases pc with
    | install item it u =>
        simp only [enqueue] at hpc
        split at hpc
        case isTrue hv =>
          cases hpc
          exact ⟨it, rfl, hv⟩
        case isFalse => cases hpc
    | readWord | close | ok | closed => cases hpc
    | readValue item it t w =>
        simp only [enqueue] at hpc
        split at hpc
        · split at hpc
          · cases hpc
          · cases hpc
        · cases hpc
    | drawTail item it | readHead item it t w v | placeToken item it t w v | casWord item it t w
    | clearToken item it t | checkOverflow item it t =>
        simp only [enqueue] at hpc
        split at hpc
        · cases hpc
        · cases hpc
  · apply (dequeue_tag hpc).elim

end access

/-! ### Every run keeps the tokens -/

section kept

variable [DecidableEq ι] {tokens : Tokens ι} {n : ℕ} (r : (rings tokens κ).Run n)
  {i : ι} {p : κ} {c d k t : ℕ}

/-- An access is a step of one of the rings, and the others rest. -/
theorem ring_act {τ : RingTag ℕ} (hk : k < n) (he : r.event k = .act (p, τ)) :
  ∃ l l', (r.conf k).thread (r.who k) = some (p, l) ∧
    (r.conf (k + 1)).thread (r.who k) = some (p, l') ∧
    (machine tokens).step (r.who k) () ((r.conf k).shared p) l
      = some ((r.conf (k + 1)).shared p, l', τ) ∧
    ∀ q, q ≠ p → (r.conf (k + 1)).shared q = (r.conf k).shared q
  := by
  have hstep := r.step k hk
  rw [he] at hstep
  obtain ⟨⟨q, l⟩, ch, s, ⟨q', l'⟩, hl, hs, hc⟩ := hstep.act_inv
  obtain ⟨rfl, rfl, hring, hrest⟩ := family_step hs
  rw [hc, Config.put_shared, Config.put_thread_self]
  exact ⟨l, l', hl, rfl, hring, hrest⟩

/-- A value that changes is changed by an access to its ring. -/
theorem value_next (hk : k < n) (hne : valueAt r p c (k + 1) ≠ valueAt r p c k) :
  ∃ τ, r.event k = .act (p, τ)
  := by
  rcases r.rests_or_acts hk with ⟨-, hrest⟩ | ⟨⟨q, τ⟩, -, -, he⟩
  · rw [valueAt, hrest] at hne
    exact absurd rfl hne
  · obtain ⟨-, -, -, -, -, hrest⟩ := ring_act r hk he
    by_cases hpq : p = q
    · subst hpq
      use τ
    · rw [valueAt, hrest p hpq] at hne
      exact absurd rfl hne

theorem fair (hk : k ≤ n) {l : Local} (hl : (r.conf k).thread i = some (p, l)) :
  l.Fair
  := by
  have h := r.busy_induction (fun _ _ _ _ l => l.2.Fair)
    (fun i o a hcalls => by
      have hstep := r.step a hcalls.1
      rw [hcalls.2.2] at hstep
      obtain ⟨-, hvalid, -⟩ := hstep.call_inv
      obtain ⟨q, x | _⟩ := o
      · refine ⟨fun y hy => ?_, trivial⟩
        obtain rfl := Option.some.inj hy
        exact hvalid
      · trivial)
    (fun i o a k l ch s l' t _ _ hH _ _ hs _ => by
      obtain ⟨-, -, hring, -⟩ := family_step hs
      have hstep : (machine tokens).step i ch ((r.conf k).shared l.1) l.2
          = some (s l.1, l'.2, t.2) := hring
      apply hH.step hstep)
    (fun _ _ _ _ _ _ _ hH _ _ _ => hH)
  obtain ⟨-, -, -, -, hfair⟩ := h k hk i _ hl
  exact hfair

/-- A thread that waits makes an access next. -/
theorem waits_act {pc : Enqueue} (hk : k < n)
    (hl : (r.conf k).thread (r.who k) = some (p, .enqueue pc)) (hpc : pc.Waits t) :
  ∃ τ, r.event k = .act (p, τ)
  := by
  have hnone : (rings tokens κ).result (p, .enqueue pc) = none := by
    cases pc with
    | ok => cases hpc
    | closed => cases hpc
    | _ => rfl
  obtain ⟨⟨q, τ⟩, -, -, -, he, -⟩ := Run.act_of_busy hk hl hnone
  obtain ⟨l, -, hl', -⟩ := ring_act r hk he
  cases hl.symm.trans hl'
  exact ⟨τ, he⟩

/-- A token that is still in its cell after a step is kept. -/
theorem Keeps.next (h : Keeps r i p t d k) (hk : k < n)
    (hv : valueAt r p (t % R) (k + 1) = tokens.threadToken i) :
  Keeps r i p t d (k + 1)
  := by
  use Nat.lt_succ_of_lt h.lt, h.places
  intro m hdm hmk
  rcases Nat.lt_or_eq_of_le hmk with hlt | rfl
  · apply h.since m hdm (Nat.le_of_lt_succ hlt)
  · use hv
    obtain ⟨hold, pc, hl, hpc⟩ := h.since k h.lt le_rfl
    by_cases hi : r.who k = i
    · subst hi
      obtain ⟨τ, he⟩ := waits_act r hk hl hpc
      obtain ⟨l, l', hl', hnext, hs, -⟩ := ring_act r hk he
      cases hl.symm.trans hl'
      have hfair := fair r (le_of_lt hk) hl
      rcases step_inv hs with ⟨_, pc', heq, rfl, hs⟩ | ⟨_, _, heq, -, -⟩
      · cases heq
        exact ⟨pc', hnext, hpc.step hfair hs hold hv⟩
      · cases heq
    · rw [(r.step k hk).other (Ne.symm hi)]
      exact ⟨pc, hl, hpc⟩

/-- A token that has not been in a cell before a step has been stored by it. -/
theorem Keeps.start (hk : k < n) (hold : valueAt r p c k ≠ tokens.threadToken i)
    (hv : valueAt r p c (k + 1) = tokens.threadToken i) :
  ∃ t, t % R = c ∧ Keeps r i p t k (k + 1)
  := by
  obtain ⟨τ, he⟩ := value_next r hk (p := p) (c := c) (by rwa [hv, ne_comm])
  obtain ⟨l, l', hl, hnext, hs, -⟩ := ring_act r hk he
  have hfair := fair r (le_of_lt hk) hl
  obtain ⟨rfl, rfl, item, it, t, w, rfl, rfl, rfl⟩ := token_new hfair hs hold hv
  refine ⟨t, rfl, Nat.lt_succ_self k, ⟨⟨hk, rfl, he⟩, ⟨item, it, w, hl⟩, hfair.2, hv⟩, ?_⟩
  intro m hkm hmk
  obtain rfl := Nat.le_antisymm hmk hkm
  exact ⟨hv, _, hnext, rfl⟩

theorem keeps_of_value (hk : k ≤ n) (hv : valueAt r p c k = tokens.threadToken i) :
  ∃ t d, t % R = c ∧ Keeps r i p t d k
  := by
  induction k with
  | zero =>
      rw [valueAt, r.start] at hv
      exact absurd hv.symm (token_ne_null tokens i)
  | succ k ih =>
      by_cases hold : valueAt r p c k = tokens.threadToken i
      · obtain ⟨t, d, rfl, hkeeps⟩ := ih (Nat.le_of_succ_le hk) hold
        exact ⟨t, d, rfl, hkeeps.next r hk hv⟩
      · obtain ⟨t, ht, hkeeps⟩ := Keeps.start r hk hold hv
        exact ⟨t, k, ht, hkeeps⟩

/-- A thread whose token is in a cell waits. -/
theorem waits_of_value (hk : k ≤ n) (hv : valueAt r p c k = tokens.threadToken i) :
  ∃ t pc, t % R = c ∧ (r.conf k).thread i = some (p, .enqueue pc) ∧ pc.Waits t
  := by
  obtain ⟨t, d, ht, hkeeps⟩ := keeps_of_value r hk hv
  obtain ⟨-, pc, hl, hpc⟩ := hkeeps.since k hkeeps.lt le_rfl
  exact ⟨t, pc, ht, hl, hpc⟩

theorem Enqueue.Waits.unique {pc : Enqueue} {u : ℕ} (h : pc.Waits t) (h' : pc.Waits u) :
  t = u
  := by
  cases pc with
  | casWord | clearToken | install => exact h.symm.trans h'
  | _ => cases h

/-- In every run of any number of rings with any number of threads the tokens neither leak nor
collide. -/
theorem rings_keepTokens :
  KeepsTokens r
  := by
  constructor
  case once =>
    intro k hk i p q c d hc hd
    obtain ⟨t, pc, rfl, hl, hpc⟩ := waits_of_value r hk hc
    obtain ⟨u, pc', rfl, hl', hpc'⟩ := waits_of_value r hk hd
    cases hl.symm.trans hl'
    exact ⟨rfl, congrArg (· % R) (hpc.unique hpc')⟩
  case kept => exact fun k hk i p c hv => keeps_of_value r hk hv
  case returns =>
    intro k hk v he p c hv
    obtain ⟨t, pc, -, hl, hpc⟩ := waits_of_value r (le_of_lt hk) hv
    obtain ⟨τ, he'⟩ := waits_act r hk hl hpc
    cases he.symm.trans he'
  case attempts =>
    intro k hk i p item it hl q c hv
    obtain ⟨t, pc, -, hl', hpc⟩ := waits_of_value r hk hv
    cases hl.symm.trans hl'
    cases hpc
  case installs =>
    rintro i p t x k ⟨hk, rfl, he⟩
    obtain ⟨l, l', hl, -, hs, -⟩ := ring_act r hk he
    obtain ⟨it, rfl, hv⟩ := step_install hs
    obtain ⟨u, d, -, hkeeps⟩ := keeps_of_value r (le_of_lt hk) hv
    obtain ⟨-, pc, hl', hpc⟩ := hkeeps.since k hkeeps.lt le_rfl
    cases hl.symm.trans hl'
    obtain rfl : t = u := hpc
    exact ⟨d, hkeeps⟩

end kept

end PRQ
