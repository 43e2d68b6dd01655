import ConcurrentQueues.CRQ.Ring

/-!
# The order of head and tail in CRQ

A dequeue may draw a head ticket that no enqueue has drawn yet, which takes the head past the tail.
Before it returns the tail is past the ticket again: the item it returns was installed with the
ticket, or the tail it read was past the ticket when it went on to another, or `fixState` has seen
or made the tail reach a head that is past all its tickets. A raw tail with the closed bit
compares as being past everything, and then the ring is closed.
-/

namespace CRQ

open Machine

variable {ι : Type}

/-- The ring is closed or its tail has passed the ticket `h`. -/
def Covers (s : Shared) (h : ℕ) : Prop :=
  decodeTailClosed s.tail = true ∨ h + 1 ≤ decodeTailT s.tail

/-- What is known at each point of `dequeue` of a head ticket `u` that the call has drawn. -/
def Dequeue.Covers (s : Shared) (u : ℕ) : Dequeue → Prop
  | .readVal h | .readSafeAndIdx h _ | .take h _ _ | .mark h _ _ | .skip h _ | .readTail h =>
      u = h ∨ CRQ.Covers s u
  | .fixHead => True
  | .fixTail h | .fixCheck h _ | .fixCas h _ => u < h
  | .drawHead | .gave _ | .empty => CRQ.Covers s u

variable {i : ι} {s s' : Shared} {a a' : Tickets ι ℕ} {u : ℕ} {τ : RingTag ℕ}

/-! ### One access -/

/-- The closed bit stays, and the tail goes up. -/
theorem Covers.later (h : Covers s u) (hinv : Inv (s, a)) (hinv' : Inv (s', a'))
    (hlater : a.Later a') :
  Covers s' u
  := by
  have htail := hlater.tail
  rw [hinv.tail, hinv'.tail] at htail
  rcases h with hclosed | hle
  · left
    rw [← hinv'.closed]
    apply hlater.closed
    rw [hinv.closed]
    exact hclosed
  · exact Or.inr (hle.trans htail)

theorem Dequeue.Covers.later {pc : Dequeue} (h : pc.Covers s u) (hinv : Inv (s, a))
    (hinv' : Inv (s', a')) (hlater : a.Later a') :
  pc.Covers s' u
  := by
  cases pc with
  | fixHead => trivial
  | fixTail h' | fixCheck h' t | fixCas h' t => exact h
  | drawHead | gave val | empty => exact CRQ.Covers.later h hinv hinv' hlater
  | _ => exact h.imp_right fun h => CRQ.Covers.later h hinv hinv' hlater

/-- A tail that is not below `h` as a word covers the tickets below `h`. -/
theorem covers_of_word {h : ℕ} (hword : s.tail < 2 ^ 64) (hle : h ≤ s.tail) (hu : u < h) :
  Covers s u
  := by
  by_cases hclosed : decodeTailClosed s.tail = true
  · exact Or.inl hclosed
  · right
    have hpack := TopBit.pack_flag_body hword
    have hflag : TopBit.flag s.tail = false := Bool.not_eq_true _ ▸ hclosed
    rw [hflag, TopBit.pack_false (TopBit.body_lt s.tail)] at hpack
    change u + 1 ≤ TopBit.body s.tail
    omega

/-- An item that is taken was installed with its ticket, which the tail has passed. -/
theorem covers_of_take {x : ℕ} (hinv : Inv (s, a)) (hok : a.Ok i (.take u x)) :
  Covers s u
  := by
  right
  rw [← hinv.tail]
  apply Nat.lt_of_not_le
  intro hle
  cases hok.2.symm.trans (hinv.tickets.enq u hle)

/-- An enqueue leaves the head alone. -/
theorem enqueue_head {pc pc' : Enqueue} (hs : enqueue s pc = some (s', pc', τ)) :
  s'.head = s.head ∧ ∀ h, τ ≠ .drawHead h
  := by
  cases pc with
  | drawTail arg it =>
      simp only [enqueue] at hs
      split at hs
      · cases hs
        exact ⟨rfl, by rintro h ⟨⟩⟩
      · cases hs
        exact ⟨rfl, by rintro h ⟨⟩⟩
  | readVal arg it t | close =>
      cases hs
      exact ⟨rfl, by rintro h ⟨⟩⟩
  | readSafeAndIdx arg it t val =>
      simp only [enqueue] at hs
      split at hs
      · split at hs
        · cases hs
          exact ⟨rfl, by rintro h ⟨⟩⟩
        · cases hs
          exact ⟨rfl, by rintro h ⟨⟩⟩
      · cases hs
        exact ⟨rfl, by rintro h ⟨⟩⟩
  | cas arg it t w =>
      simp only [enqueue] at hs
      split at hs
      case h_1 s₁ hcas =>
        cases hs
        obtain ⟨-, rfl⟩ := cas2_eq_some hcas
        exact ⟨rfl, by rintro h ⟨⟩⟩
      case h_2 =>
        cases hs
        exact ⟨rfl, by rintro h ⟨⟩⟩
  | readHead arg it t w | checkOverflow arg it t =>
      simp only [enqueue] at hs
      split at hs
      · cases hs
        exact ⟨rfl, by rintro h ⟨⟩⟩
      · cases hs
        exact ⟨rfl, by rintro h ⟨⟩⟩
  | ok => cases hs
  | closed => cases hs

/-- Drawing a head ticket. -/
theorem Dequeue.Covers.draw {pc pc' : Dequeue} (hs : dequeue s pc = some (s', pc', .drawHead u)) :
  pc'.Covers s' u
  := by
  cases pc with
  | drawHead =>
      cases hs
      exact Or.inl rfl
  | _ =>
      simp only [dequeue] at hs
      grind

/-- Each access of `dequeue` keeps what is known of the tickets of the call. -/
theorem Dequeue.Covers.step {pc pc' : Dequeue} (h : pc.Covers s u) (hu : u < s.head)
    (hinv : Inv (s, a)) (hlegal : Legal s) (hpc : pc.Knows (s, a)) (hok : a.Ok i τ)
    (hs : dequeue s pc = some (s', pc', τ)) :
  pc'.Covers s' u
  := by
  cases pc with
  | drawHead =>
      cases hs
      exact Or.inr h
  | readVal t =>
      cases hs
      exact h
  | readSafeAndIdx t val =>
      simp only [dequeue] at hs
      split at hs
      · cases hs
        exact h
      · split at hs
        · split at hs
          · cases hs
            exact h
          · cases hs
            exact h
        · cases hs
          exact h
  | take t w val =>
      simp only [dequeue] at hs
      split at hs
      case h_1 s₁ hcas =>
        cases hs
        obtain ⟨-, rfl⟩ := cas2_eq_some hcas
        rcases h with rfl | h
        · have hcovers := covers_of_take hinv hok
          exact hcovers
        · exact h
      case h_2 =>
        cases hs
        exact h
  | mark t w val | skip t w =>
      simp only [dequeue] at hs
      split at hs
      case h_1 s₁ hcas =>
        cases hs
        obtain ⟨-, rfl⟩ := cas2_eq_some hcas
        exact h
      case h_2 =>
        cases hs
        exact h
  | readTail t =>
      simp only [dequeue] at hs
      split at hs
      case isTrue =>
        cases hs
        trivial
      case isFalse hlt =>
        -- the tail is past the ticket already, so the call goes on to another
        cases hs
        rcases h with rfl | h
        · right
          omega
        · exact h
  | fixHead =>
      cases hs
      exact hu
  | fixTail t =>
      cases hs
      exact h
  | fixCheck t w =>
      simp only [dequeue] at hs
      split at hs
      case isTrue =>
        cases hs
        trivial
      case isFalse hsame =>
        split at hs
        case isTrue hle =>
          cases hs
          obtain rfl := not_not.mp hsame
          apply covers_of_word hinv.word hle h
        case isFalse =>
          cases hs
          exact h
  | fixCas t w =>
      simp only [dequeue] at hs
      split at hs
      case isTrue =>
        cases hs
        right
        have hhead := hlegal.1
        have hsmall : t < 2 ^ 63 := lt_of_le_of_lt hpc.1 (hhead.trans (by decide))
        have hbody : decodeTailT t = t := (TopBit.body_eq t).trans (Nat.mod_eq_of_lt hsmall)
        rw [hbody]
        exact h
      case isFalse =>
        cases hs
        trivial
  | gave val => cases hs
  | empty => cases hs

/-! ### Every run -/

/-- What is known of a head ticket that the present call of a thread has drawn. -/
def Local.Covers (s : Shared) (u : ℕ) : Local → Prop
  | .enqueue _ => False
  | .dequeue pc => pc.Covers s u

variable [DecidableEq ι] {n : ℕ} (r : (machine ι).Run n)

/-- No dequeue is in progress before step `k`. -/
def Quiet (k : ℕ) : Prop := ∀ i pc, (r.conf k).thread i ≠ some (.dequeue pc)

/-- The order of head and tail is repaired by the dequeues that break it. -/
structure Repairs : Prop where
  /-- From the return of a dequeue on the tickets it drew are covered. -/
  covers : ∀ i o a v b h m k, r.Returns i o a v b → r.Acts i (.drawHead h) m → a < m → m < b →
    b ≤ k → k ≤ n → Covers (r.conf k).shared h
  /-- While the ring is open and no dequeue is in progress, the head is not past the tail. -/
  ordered : ∀ k ≤ n, Quiet r k → decodeTailClosed (r.conf k).shared.tail = false →
    (r.conf k).shared.head ≤ decodeTailT (r.conf k).shared.tail
  /-- An enqueue that draws a ticket and reads the head while no dequeue is in progress subtracts
  without underflow. -/
  subtracts : ∀ i t x m arg iteration k, r.Acts i (.drawTail t x) m → m < k → k ≤ n →
    (r.conf k).thread i = some (.enqueue (.checkOverflow arg iteration t)) →
    (∀ j, m ≤ j → j < k → Quiet r j) → (r.conf k).shared.head ≤ t ∧
      overflows t (r.conf k).shared.head = decide (R ≤ t - (r.conf k).shared.head)

variable {r} {k m : ℕ}

theorem asserts (hk : k ≤ n) :
  Inv ((r.conf k).shared, sound.tickets r k) ∧
    ∀ i, Knows i ((r.conf k).shared, sound.tickets r k) ((r.conf k).thread i)
  := sound.asserts r hk

theorem later (hkm : k ≤ m) (hm : m ≤ n) :
  (sound.tickets r k).Later (sound.tickets r m)
  := (sound.course r).later hkm hm

theorem head_mono (hkm : k ≤ m) (hm : m ≤ n) :
  (r.conf k).shared.head ≤ (r.conf m).shared.head
  := by
  have hhead := (later (r := r) hkm hm).head
  rwa [(asserts (hkm.trans hm)).1.head, (asserts hm).1.head] at hhead

theorem covers_mono {h : ℕ} (hcovers : Covers (r.conf k).shared h) (hkm : k ≤ m) (hm : m ≤ n) :
  Covers (r.conf m).shared h
  := hcovers.later (asserts (hkm.trans hm)).1 (asserts hm).1 (later hkm hm)

/-- A head ticket that is drawn is below the head from then on. -/
theorem lt_head {h : ℕ} (hdraw : r.Acts i (.drawHead h) m) (hmk : m < k) (hk : k ≤ n) :
  h < (r.conf k).shared.head
  := by
  obtain ⟨hm, rfl, he⟩ := hdraw
  obtain ⟨hok, hT⟩ := (sound.course r).step m hm _ (Run.tag_eq_some.mpr he)
  have hhead := (later (r := r) hmk hk).head
  rw [hT, (asserts hk).1.head] at hhead
  obtain rfl : h = (sound.tickets r m).head := hok
  exact hhead

variable (r) in
/-- What is known of the tickets a call has drawn so far. -/
theorem covers_drawn :
  ∀ k ≤ n, ∀ i l, (r.conf k).thread i = some l → ∃ o a, r.Calls i o a ∧ r.Within i a k ∧
    ∀ h m, a < m → m < k → r.Acts i (.drawHead h) m → l.Covers (r.conf k).shared h
  := by
  apply r.busy_induction (fun i _ a k l => ∀ h m, a < m → m < k → r.Acts i (.drawHead h) m →
    l.Covers (r.conf k).shared h)
  case call =>
    intro i o a _ h m ham hm
    exact absurd ham (Nat.not_lt.mpr (Nat.lt_succ_iff.mp hm))
  case own =>
    intro i o a k l ch s l' τ _ _ hH hacts hl hs hc h m ham hm hdraw
    obtain ⟨hk, rfl, he⟩ := hacts
    obtain ⟨hinv, hknows⟩ := asserts (r := r) (le_of_lt hk)
    have hself := hknows (r.who k)
    rw [hl] at hself
    obtain ⟨hok, -⟩ := (sound.course r).step k hk _ (Run.tag_eq_some.mpr he)
    have hnew : (τ = .drawHead h) ∨ l.Covers (r.conf k).shared h ∧ h < (r.conf k).shared.head := by
      rcases Nat.lt_succ_iff_lt_or_eq.mp hm with hmk | rfl
      · exact Or.inr ⟨hH h m ham hmk hdraw, lt_head hdraw hmk (le_of_lt hk)⟩
      · have hsame := he.symm.trans hdraw.2.2
        cases hsame
        exact Or.inl rfl
    rw [hc, Config.put_shared]
    rcases step_inv hs with ⟨pc, pc', rfl, rfl, hpc⟩ | ⟨pc, pc', rfl, rfl, hpc⟩
    · rcases hnew with rfl | ⟨hfalse, -⟩
      · exact absurd rfl ((enqueue_head hpc).2 h)
      · cases hfalse
    · rcases hnew with rfl | ⟨hcovers, hlt⟩
      · exact Dequeue.Covers.draw hpc
      · exact hcovers.step hlt hinv (r.legal k (le_of_lt hk)) hself.2 hok hpc
  case other =>
    intro i o a k l _ hwithin hH hk hl hi h m ham hm hdraw
    have hmk : m < k := by
      rcases Nat.lt_succ_iff_lt_or_eq.mp hm with hmk | rfl
      · exact hmk
      · exact absurd hdraw.2.1 hi
    have hold := hH h m ham hmk hdraw
    cases l with
    | enqueue pc => exact hold
    | dequeue pc =>
        apply Dequeue.Covers.later hold (asserts (le_of_lt hk)).1 (asserts hk).1
          (later (Nat.le_succ k) hk)

/-- From the return of a dequeue on the tickets it drew are covered. -/
theorem covers_of_returns {o : RingOp ℕ} {b h : ℕ} {v : RingRes ℕ} {c : ℕ}
    (hret : r.Returns i o c v b) (hdraw : r.Acts i (.drawHead h) m) (hcm : c < m) (hmb : m < b)
    (hbk : b ≤ k) (hk : k ≤ n) :
  Covers (r.conf k).shared h
  := by
  obtain ⟨l, hl, hv⟩ := hret.result
  obtain ⟨o', c', hcalls, hwithin, hcovers⟩ := covers_drawn r b (le_of_lt hret.lt) i l hl
  obtain ⟨rfl, -⟩ := hcalls.unique hret.calls hwithin hret.within
  have hdone := hcovers h m hcm hmb hdraw
  apply covers_mono _ hbk hk
  cases l with
  | enqueue pc => cases hdone
  | dequeue pc =>
      cases pc with
      | gave val => exact hdone
      | empty => exact hdone
      | _ => cases hv

/-- When no dequeue is in progress the head is not past the tail of an open ring. -/
theorem head_le_tail (hk : k ≤ n) (hquiet : Quiet r k)
    (hopen : decodeTailClosed (r.conf k).shared.tail = false) :
  (r.conf k).shared.head ≤ decodeTailT (r.conf k).shared.tail
  := by
  by_contra hlt
  -- the last ticket the head has passed
  obtain ⟨h, hh⟩ : ∃ h, (r.conf k).shared.head = h + 1 := Nat.exists_eq_add_one.mpr (by omega)
  have hcause : ∃ m < k, r.tag m = some (.drawHead h) := by
    have hbelow : h < (sound.tickets r k).head := by
      rw [(asserts hk).1.head, hh]
      apply Nat.lt_succ_self h
    rcases (sound.course r).drawHead_cause hk hbelow with hstart | hcause
    · cases hstart
    · exact hcause
  obtain ⟨m, hm, hdraw⟩ := hcause
  have hacts : r.Acts (r.who m) (.drawHead h) m :=
    ⟨lt_of_lt_of_le hm hk, rfl, Run.tag_eq_some.mp hdraw⟩
  obtain ⟨o, c, hcalls, hwithin⟩ := hacts.calls
  have hwithin' := hwithin.succ fun _ => ⟨_, hacts.2.2⟩
  rcases hwithin'.or_returns hcalls hm hk with hstill | ⟨v, b, hmb, hbk, hret⟩
  · obtain ⟨l, hl⟩ := hstill.busy hcalls hk
    obtain ⟨o', c', hcalls', hstill', hcovers⟩ := covers_drawn r k hk _ l hl
    obtain ⟨rfl, -⟩ := hcalls'.unique hcalls hstill' hstill
    have hdone := hcovers h m hwithin.1 hm hacts
    cases l with
    | enqueue pc => cases hdone
    | dequeue pc => exact hquiet _ pc hl
  · rcases covers_of_returns hret hacts hwithin.1 hmb (le_of_lt hbk) hk with hclosed | hle
    · cases hopen.symm.trans hclosed
    · omega

/-- The head stays while no dequeue is in progress. -/
theorem head_of_quiet (hmk : m ≤ k) (hk : k ≤ n) (hquiet : ∀ j, m ≤ j → j < k → Quiet r j) :
  (r.conf k).shared.head = (r.conf m).shared.head
  := by
  induction k, hmk using Nat.le_induction with
  | base => rfl
  | succ k hmk ih =>
      rw [← ih (Nat.le_of_succ_le hk) fun j hmj hjk => hquiet j hmj (Nat.lt_succ_of_lt hjk)]
      rcases r.rests_or_acts hk with ⟨-, hrest⟩ | ⟨τ, ht⟩
      · rw [hrest]
      · obtain ⟨l, ch, s, l', hl, hs, hc⟩ := ht.step
        rw [hc, Config.put_shared]
        rcases step_inv hs with ⟨pc, pc', rfl, rfl, hpc⟩ | ⟨pc, pc', rfl, rfl, -⟩
        · exact (enqueue_head hpc).1
        · exact absurd hl (hquiet k hmk (Nat.lt_succ_self k) _ pc)

variable (r) in
/-- Every run of CRQ repairs the order of head and tail. -/
theorem crq_repairs :
  Repairs r
  := by
  constructor
  case covers => exact fun i o a v b h m k hret hdraw => covers_of_returns hret hdraw
  case ordered => exact fun k hk => head_le_tail hk
  case subtracts =>
    intro i t x m arg iteration k hdraw hmk hk _ hquiet
    obtain ⟨hm, rfl, he⟩ := hdraw
    obtain ⟨⟨hopen, ht⟩, -⟩ := (sound.course r).step m hm _ (Run.tag_eq_some.mpr he)
    have hinv := (asserts (r := r) (le_of_lt hm)).1
    rw [hinv.closed] at hopen
    rw [hinv.tail] at ht
    have hle : (r.conf k).shared.head ≤ t := by
      rw [head_of_quiet (le_of_lt hmk) hk hquiet, ht]
      apply head_le_tail (le_of_lt hm) (hquiet m le_rfl hmk) hopen
    use hle
    have hlt : t < 2 ^ 63 := ht ▸ TopBit.body_lt _
    rw [overflows, Nat.add_comm, Nat.add_sub_assoc hle, Nat.add_mod_left, Nat.mod_eq_of_lt]
    omega

end CRQ
