import ConcurrentQueues.CRQ.Exact
import ConcurrentQueues.Library.Sequential
import ConcurrentQueues.Library.Window

/-!
# CRQ with one thread

The items of a ring are in the nodes of the tickets from the head on. While the ring is open the
tail is where they end, since `fixState` undoes the ticket that a dequeue burns on an
empty ring. A ring is closed when an enqueue finds all nodes taken, and then the ticket of
that enqueue is left over.
-/

namespace CRQ

open Machine

variable {ι : Type} {i : ι}

/-- The node `c` has the item `o` at the ticket `k`, or none and lets an enqueue with this ticket
in. -/
def Slot (k : ℕ) : Option ℕ → Node → Prop
  | some x, c => c = ⟨encodeNodeSafeIdx true k, x⟩
  | none, c => ∃ e ≤ k, c = ⟨encodeNodeSafeIdx true e, UNDEFINED_NODE_VAL⟩

/-- The ring `s` with the items `q`, open or not, when its tail ticket is `t` and thread `i` has
called it at most `n` times. -/
structure Shows (isOpen : Bool) (n t : ℕ) (s : Shared) (q : List ℕ) : Prop where
  window : Window R Slot s.array s.head q
  items : ∀ x ∈ q, x ≠ 0
  tail : s.tail = TopBit.pack (!isOpen) t
  opened : isOpen = true → t = s.head + q.length
  closed : t ≤ s.head + q.length + 1
  head_le : s.head ≤ n
  tail_le : t ≤ n

theorem goes_enqueue {s s' : Shared} {pc pc' : Enqueue} {τ : RingTag ℕ} {y : Shared × Local}
    (hpc : (machine ι).result (.enqueue pc) = none) (hs : enqueue s pc = some (s', pc', τ))
    (hy : (machine ι).Goes i (s', .enqueue pc') y) :
  (machine ι).Goes i (s, .enqueue pc) y
  := by
  have hstep : (machine ι).step i () s (.enqueue pc) = some (s', .enqueue pc', τ) :=
    Option.map_eq_some_iff.mpr ⟨_, hs, rfl⟩
  exact hy.step hpc hstep

theorem goes_dequeue {s s' : Shared} {pc pc' : Dequeue} {τ : RingTag ℕ} {y : Shared × Local}
    (hpc : (machine ι).result (.dequeue pc) = none) (hs : dequeue s pc = some (s', pc', τ))
    (hy : (machine ι).Goes i (s', .dequeue pc') y) :
  (machine ι).Goes i (s, .dequeue pc) y
  := by
  have hstep : (machine ι).step i () s (.dequeue pc) = some (s', .dequeue pc', τ) :=
    Option.map_eq_some_iff.mpr ⟨_, hs, rfl⟩
  exact hy.step hpc hstep

variable {isOpen : Bool} {n t arg : ℕ} {s : Shared} {q : List ℕ}

theorem init_shows :
  Shows true 0 0 init []
  := by
  constructor
  case window =>
    use Nat.zero_le R
    intro j hj
    refine ⟨j, Nat.le_add_left j _, ?_⟩
    have hmod : (init.head + j) % R = j := by
      rw [show init.head = 0 from rfl, Nat.zero_add, Nat.mod_eq_of_lt hj]
    rw [hmod]
    rfl
  case items => exact fun x hx => absurd hx List.not_mem_nil
  case tail => decide
  case opened => exact fun _ => rfl
  case closed => exact Nat.zero_le _
  case head_le => exact le_rfl
  case tail_le => exact le_rfl

/-- The words of the tail that a thread finds. -/
theorem Shows.tail_lt (h : Shows isOpen n t s q) (hn : n ≤ 2 ^ 62) :
  t + 1 < 2 ^ 63
  := by
  have htail := h.tail_le
  omega

theorem Shows.decodeTailT (h : Shows isOpen n t s q) (hn : n ≤ 2 ^ 62) :
  decodeTailT s.tail = t
  := by
  rw [h.tail]
  exact TopBit.body_pack (Nat.lt_of_succ_lt (h.tail_lt hn))

theorem Shows.decodeTailClosed (h : Shows isOpen n t s q) :
  decodeTailClosed s.tail = !isOpen
  := by
  rw [h.tail]
  exact TopBit.flag_pack _ _

theorem Shows.drawTail (h : Shows isOpen n t s q) (hn : n ≤ 2 ^ 62) :
  fetchAdd s.tail = TopBit.pack (!isOpen) (t + 1)
  := by
  rw [h.tail]
  exact TopBit.pack_succ _ (h.tail_lt hn)

theorem Shows.drawHead (h : Shows isOpen n t s q) (hn : n ≤ 2 ^ 62) :
  fetchAdd s.head = s.head + 1
  := by
  have hhead := h.head_le
  apply Nat.mod_eq_of_lt
  omega

/-- An enqueue on an open ring that has room succeeds at once. -/
theorem solo_ok (h : Shows true n t s q) (hn : n ≤ 2 ^ 62) (harg : arg ≠ 0)
    (hroom : q.length < R) :
  ∃ s', (machine ι).Solo i s (.enqueue arg) .ok s' ∧ Shows true (n + 1) (t + 1) s' (q ++ [arg])
  := by
  have ht := h.opened rfl
  have hlt := h.tail_lt hn
  obtain ⟨e, he, hnode⟩ := h.window.back hroom
  rw [← ht] at he hnode
  have hsafe : decodeNodeSafe (encodeNodeSafeIdx true e) = true := safe_encode true e
  have hidx : decodeNodeIdx (encodeNodeSafeIdx true e) = e := idx_encode (by omega)
  have hopen := h.decodeTailClosed
  have hticket := h.decodeTailT hn
  let s₁ : Shared := { s with tail := fetchAdd s.tail }
  have hnode₁ : s₁.array (t % R) = ⟨encodeNodeSafeIdx true e, UNDEFINED_NODE_VAL⟩ := hnode
  have hlength : t + 1 = s.head + (q ++ [arg]).length := by
    rw [ht, List.length_append]
    rfl
  use s₁.setNode (t % R) ⟨encodeNodeSafeIdx true t, arg⟩
  constructor
  · use .enqueue .ok
    refine ⟨?_, rfl⟩
    have hdraw : enqueue s (.drawTail arg 0) =
        some (s₁, .readVal arg 0 t, .drawTail t arg) := by
      simp [enqueue, hopen, hticket, s₁]
    have hread : enqueue s₁ (.readVal arg 0 t) =
        some (s₁, .readSafeAndIdx arg 0 t UNDEFINED_NODE_VAL, .other) := by
      simp [enqueue, hnode₁]
    have hfree : enqueue s₁ (.readSafeAndIdx arg 0 t UNDEFINED_NODE_VAL) =
        some (s₁, .cas arg 0 t (encodeNodeSafeIdx true e), .other) := by
      simp [enqueue, hnode₁, hidx, hsafe, he, EMPTY, UNDEFINED_NODE_VAL]
    have hcas : enqueue s₁ (.cas arg 0 t (encodeNodeSafeIdx true e)) =
        some (s₁.setNode (t % R) ⟨encodeNodeSafeIdx true t, arg⟩, .ok, .install t arg) := by
      simp [enqueue, Shared.cas2, hnode₁, hidx, hsafe]
    apply goes_enqueue rfl hdraw
    apply goes_enqueue rfl hread
    apply goes_enqueue rfl hfree
    apply goes_enqueue rfl hcas
    exact .refl
  · constructor
    case window =>
      rw [ht]
      exact h.window.append hroom rfl
    case items =>
      intro x hx
      rcases List.mem_append.mp hx with hx | hx
      · exact h.items x hx
      · rwa [List.mem_singleton.mp hx]
    case tail => exact h.drawTail hn
    case opened => exact fun _ => hlength
    case closed => exact Nat.le_succ_of_le (le_of_eq hlength)
    case head_le => exact Nat.le_succ_of_le h.head_le
    case tail_le => exact Nat.succ_le_succ h.tail_le

/-- An enqueue on an open ring that is full closes the ring. -/
theorem solo_closed (h : Shows true n t s q) (hn : n ≤ 2 ^ 62) (hfull : q.length = R) :
  ∃ s', (machine ι).Solo i s (.enqueue arg) .closed s' ∧ Shows false (n + 1) (t + 1) s' q
  := by
  have ht := h.opened rfl
  have hlt := h.tail_lt hn
  have hopen := h.decodeTailClosed
  have hticket := h.decodeTailT hn
  have hhead : s.array (t % R) = s.array (s.head % R) := by
    rw [ht, hfull, Nat.add_mod_right]
  cases q with
  | nil => cases hfull
  | cons x q =>
      have hnode : s.array (s.head % R) = ⟨encodeNodeSafeIdx true s.head, x⟩ := h.window.front R_pos
      have hx : x ≠ 0 := h.items x List.mem_cons_self
      let s₁ : Shared := { s with tail := fetchAdd s.tail }
      have hnode₁ : s₁.array (t % R) = ⟨encodeNodeSafeIdx true s.head, x⟩ := hhead.trans hnode
      have hoverflows : overflows t s₁.head = true := by
        apply decide_eq_true
        have hdiff : t + 2 ^ 64 - s₁.head = R + 2 ^ 64 := by
          rw [ht, hfull]
          show s.head + R + 2 ^ 64 - s.head = R + 2 ^ 64
          omega
        rw [hdiff, Nat.add_mod_right]
        decide
      use { s₁ with tail := s₁.tail ||| CLOSED_BIT }
      constructor
      · use .enqueue .closed
        refine ⟨?_, rfl⟩
        have hdraw : enqueue s (.drawTail arg 0) =
            some (s₁, .readVal arg 0 t, .drawTail t arg) := by
          simp [enqueue, hopen, hticket, s₁]
        have hread : enqueue s₁ (.readVal arg 0 t) =
            some (s₁, .readSafeAndIdx arg 0 t x, .other) := by
          simp [enqueue, hnode₁]
        have htaken : enqueue s₁ (.readSafeAndIdx arg 0 t x) =
            some (s₁, .checkOverflow arg 0 t, .other) := by
          simp [enqueue, hx, EMPTY]
        have hcheck : enqueue s₁ (.checkOverflow arg 0 t) = some (s₁, .close, .giveUp t) := by
          simp [enqueue, hoverflows]
        apply goes_enqueue rfl hdraw
        apply goes_enqueue rfl hread
        apply goes_enqueue rfl htaken
        apply goes_enqueue rfl hcheck
        exact goes_enqueue rfl rfl .refl
      · constructor
        case window => exact h.window
        case items => exact h.items
        case tail =>
          show fetchAdd s.tail ||| TopBit.bit = TopBit.pack true (t + 1)
          rw [h.drawTail hn]
          exact TopBit.pack_or_bit _ hlt
        case opened =>
          rintro ⟨⟩
        case closed =>
          rw [ht]
        case head_le => exact Nat.le_succ_of_le h.head_le
        case tail_le => exact Nat.succ_le_succ h.tail_le

/-- A dequeue on a ring with items takes the first one at once. -/
theorem solo_take {x : ℕ} (h : Shows isOpen n t s (x :: q)) (hn : n ≤ 2 ^ 62) :
  ∃ s', (machine ι).Solo i s .dequeue (.value x) s' ∧ Shows isOpen (n + 1) t s' q
  := by
  have hhead := h.head_le
  have hnode : s.array (s.head % R) = ⟨encodeNodeSafeIdx true s.head, x⟩ := h.window.front R_pos
  have hx : x ≠ 0 := h.items x List.mem_cons_self
  have hsafe : decodeNodeSafe (encodeNodeSafeIdx true s.head) = true := safe_encode true _
  have hidx : decodeNodeIdx (encodeNodeSafeIdx true s.head) = s.head := idx_encode (by omega)
  have hlength : s.head + 1 + q.length = s.head + (x :: q).length := by
    rw [List.length_cons]
    omega
  let s₁ : Shared := { s with head := s.head + 1 }
  have hnode₁ : s₁.array (s.head % R) = ⟨encodeNodeSafeIdx true s.head, x⟩ := hnode
  use s₁.setNode (s.head % R) ⟨encodeNodeSafeIdx true (s.head + R), UNDEFINED_NODE_VAL⟩
  constructor
  · use .dequeue (.gave x)
    refine ⟨?_, rfl⟩
    have hdraw : dequeue s .drawHead = some (s₁, .readVal s.head, .drawHead s.head) := by
      simp [dequeue, h.drawHead hn, s₁]
    have hread : dequeue s₁ (.readVal s.head) =
        some (s₁, .readSafeAndIdx s.head x, .other) := by
      simp [dequeue, hnode₁]
    have hmine : dequeue s₁ (.readSafeAndIdx s.head x) =
        some (s₁, .take s.head (encodeNodeSafeIdx true s.head) x, .other) := by
      simp [dequeue, hnode₁, hidx, hx, UNDEFINED_NODE_VAL]
    have htake : dequeue s₁ (.take s.head (encodeNodeSafeIdx true s.head) x) =
        some (s₁.setNode (s.head % R) ⟨encodeNodeSafeIdx true (s.head + R), UNDEFINED_NODE_VAL⟩,
          .gave x, .take s.head x) := by
      simp [dequeue, Shared.cas2, hnode₁, hsafe]
    apply goes_dequeue rfl hdraw
    apply goes_dequeue rfl hread
    apply goes_dequeue rfl hmine
    apply goes_dequeue rfl htake
    exact .refl
  · constructor
    case window => exact h.window.next R_pos ⟨s.head + R, le_rfl, rfl⟩
    case items => exact fun y hy => h.items y (List.mem_cons_of_mem x hy)
    case tail => exact h.tail
    case opened =>
      intro hopen
      exact (h.opened hopen).trans hlength.symm
    case closed =>
      have hclosed := h.closed
      rwa [← hlength] at hclosed
    case head_le => exact Nat.succ_le_succ hhead
    case tail_le => exact Nat.le_succ_of_le h.tail_le

/-- The ring after a dequeue has burned the ticket of the head. -/
def Shared.burn (s : Shared) : Shared :=
  Shared.setNode { s with head := s.head + 1 } (s.head % R)
    ⟨encodeNodeSafeIdx true (s.head + R), UNDEFINED_NODE_VAL⟩

theorem Shows.burn (h : Shows isOpen n t s []) :
  Window R Slot s.burn.array s.burn.head []
  := h.window.next R_pos ⟨s.head + R, le_rfl, rfl⟩

/-- A dequeue on a ring without items burns one ticket and comes to `fixState`. -/
theorem goes_burn {y : Shared × Local} (h : Shows isOpen n t s []) (hn : n ≤ 2 ^ 62)
    (hy : (machine ι).Goes i (s.burn, .dequeue (.fixCheck (s.head + 1) s.tail)) y) :
  (machine ι).Goes i (s, .dequeue .drawHead) y
  := by
  have hhead := h.head_le
  have hclosed : t ≤ s.head + 1 := h.closed
  obtain ⟨e, he, hnode⟩ := h.window.front R_pos
  have hsafe : decodeNodeSafe (encodeNodeSafeIdx true e) = true := safe_encode true e
  have hidx : decodeNodeIdx (encodeNodeSafeIdx true e) = e := idx_encode (by omega)
  let s₁ : Shared := { s with head := s.head + 1 }
  have hnode₁ : s₁.array (s.head % R) = ⟨encodeNodeSafeIdx true e, UNDEFINED_NODE_VAL⟩ := hnode
  have hdraw : dequeue s .drawHead = some (s₁, .readVal s.head, .drawHead s.head) := by
    simp [dequeue, h.drawHead hn, s₁]
  have hread : dequeue s₁ (.readVal s.head) =
      some (s₁, .readSafeAndIdx s.head UNDEFINED_NODE_VAL, .other) := by
    simp [dequeue, hnode₁]
  have hvoid : dequeue s₁ (.readSafeAndIdx s.head UNDEFINED_NODE_VAL) =
      some (s₁, .skip s.head (encodeNodeSafeIdx true e), .other) := by
    simp [dequeue, hnode₁, hidx, he]
  have hskip : dequeue s₁ (.skip s.head (encodeNodeSafeIdx true e)) =
      some (s.burn, .readTail s.head, .miss s.head) := by
    simp [dequeue, Shared.cas2, hnode, hidx, hsafe, Shared.burn, s₁]
  have htail : dequeue s.burn (.readTail s.head) =
      some (s.burn, .fixHead, .sawEmpty s.head) := by
    have hle : decodeTailT s.burn.tail ≤ s.head + 1 := by rwa [← h.decodeTailT hn] at hclosed
    simp [dequeue, hle]
  apply goes_dequeue rfl hdraw
  apply goes_dequeue rfl hread
  apply goes_dequeue rfl hvoid
  apply goes_dequeue rfl hskip
  apply goes_dequeue rfl htail
  apply goes_dequeue rfl rfl
  exact goes_dequeue rfl rfl hy

/-- On an open ring without items, `fixState` moves the tail up to the head. -/
theorem solo_empty_open (h : Shows true n t s []) (hn : n ≤ 2 ^ 62) :
  ∃ s', (machine ι).Solo i s .dequeue (.value EMPTY) s' ∧ Shows true (n + 1) (s.head + 1) s' []
  := by
  have hhead := h.head_le
  have ht : t = s.head := h.opened rfl
  have hword : s.burn.tail = s.head := by
    apply h.tail.trans
    rw [ht]
    exact TopBit.pack_false (by omega)
  use { s.burn with tail := s.head + 1 }
  constructor
  · refine ⟨.dequeue .empty, goes_burn h hn ?_, rfl⟩
    have hcheck : dequeue s.burn (.fixCheck (s.head + 1) s.burn.tail) =
        some (s.burn, .fixCas (s.head + 1) s.burn.tail, .other) := by
      simp [dequeue, hword]
    have hcas : dequeue s.burn (.fixCas (s.head + 1) s.burn.tail) =
        some ({ s.burn with tail := s.head + 1 }, .empty, .jump (s.head + 1)) := by
      simp [dequeue]
    apply goes_dequeue rfl hcheck
    exact goes_dequeue rfl hcas .refl
  · have hnew : TopBit.pack false (s.head + 1) = s.head + 1 := TopBit.pack_false (by omega)
    constructor
    case window => exact h.burn
    case items => exact h.items
    case tail => exact hnew.symm
    case opened => exact fun _ => rfl
    case closed => exact Nat.le_succ _
    case head_le => exact Nat.succ_le_succ hhead
    case tail_le => exact Nat.succ_le_succ hhead

/-- The word of a closed tail is above every head, so `fixState` leaves it. -/
theorem solo_empty_closed (h : Shows false n t s []) (hn : n ≤ 2 ^ 62) :
  ∃ s', (machine ι).Solo i s .dequeue (.value EMPTY) s' ∧ Shows false (n + 1) t s' []
  := by
  have hhead := h.head_le
  use s.burn
  constructor
  · refine ⟨.dequeue .empty, goes_burn h hn ?_, rfl⟩
    have hle : s.head + 1 ≤ s.burn.tail := by
      have hlarge := TopBit.le_pack_true t
      have htail : s.burn.tail = TopBit.pack true t := h.tail
      rw [htail]
      exact le_trans (by omega) hlarge
    have hcheck : dequeue s.burn (.fixCheck (s.head + 1) s.burn.tail) =
        some (s.burn, .empty, .other) := by
      simp [dequeue, hle]
    exact goes_dequeue rfl hcheck .refl
  · constructor
    case window => exact h.burn
    case items => exact h.items
    case tail => exact h.tail
    case opened =>
      rintro ⟨⟩
    case closed => exact Nat.le_succ_of_le h.closed
    case head_le => exact Nat.succ_le_succ hhead
    case tail_le => exact Nat.le_succ_of_le h.tail_le

end CRQ
