import ConcurrentQueues.PRQ.Exact
import ConcurrentQueues.Library.Sequential
import ConcurrentQueues.Library.Window

/-!
# PRQ with one thread

As for `CRQ`, the items of a ring are in the cells of the tickets from the head on. But nothing
undoes the ticket that a dequeue burns on an empty ring: the head runs past the tail, and
then the cell of the next tail ticket has its epoch already. So the next enqueue fails
and closes the ring, as it does when it finds all cells taken.
-/

namespace PRQ

open Machine

variable {ι : Type} {tokens : Tokens ι} {i : ι}

/-- The cell `x` has the item `o` at the ticket `k`, or none and lets an enqueue with this ticket
in. -/
def Slot (k : ℕ) : Option ℕ → Cell → Prop
  | some v, x => x = ⟨encodeCellSafeEpoch true (k / R), v⟩
  | none, x => ∃ e < k / R, x = ⟨encodeCellSafeEpoch true e, NULL_VALUE⟩

/-- An enqueue with the ticket `t` finds its cell burned. -/
def Shared.Burned (s : Shared) (t : ℕ) : Prop :=
  t < s.head ∧ t / R ≤ decodeCellEpoch (s.a (t % R)).safeAndEpoch

/-- The ring `s` with the items `q`, open or not, when its tail ticket is `t` and thread `i` has
called it at most `n` times. -/
structure Shows (isOpen : Bool) (n t : ℕ) (s : Shared) (q : List ℕ) : Prop where
  window : Window R Slot s.a s.head q
  items : ∀ v ∈ q, vacant v = false
  tail : s.tail = TopBit.pack (!isOpen) t
  opened : isOpen = true → t = s.head + q.length ∨ q = [] ∧ s.Burned t
  closed : t ≤ s.head + q.length + 1
  head_le : s.head ≤ R + n
  tail_le : t ≤ R + n

theorem goes_enqueue {s s' : Shared} {pc pc' : Enqueue} {τ : RingTag ℕ} {y : Shared × Local}
    (hpc : (machine tokens).result (.enqueue pc) = none)
    (hs : enqueue (tokens.threadToken i) s pc = some (s', pc', τ))
    (hy : (machine tokens).Goes i (s', .enqueue pc') y) :
  (machine tokens).Goes i (s, .enqueue pc) y
  := by
  have hstep : (machine tokens).step i () s (.enqueue pc) = some (s', .enqueue pc', τ) :=
    Option.map_eq_some_iff.mpr ⟨_, hs, rfl⟩
  exact hy.step hpc hstep

theorem goes_dequeue {s s' : Shared} {pc pc' : Dequeue} {τ : RingTag ℕ} {y : Shared × Local}
    (hpc : (machine tokens).result (.dequeue pc) = none) (hs : dequeue s pc = some (s', pc', τ))
    (hy : (machine tokens).Goes i (s', .dequeue pc') y) :
  (machine tokens).Goes i (s, .dequeue pc) y
  := by
  have hstep : (machine tokens).step i () s (.dequeue pc) = some (s', .dequeue pc', τ) :=
    Option.map_eq_some_iff.mpr ⟨_, hs, rfl⟩
  exact hy.step hpc hstep

variable {isOpen : Bool} {n t item : ℕ} {s : Shared} {q : List ℕ}

theorem init_shows :
  Shows true 0 R init []
  := by
  constructor
  case window =>
    use Nat.zero_le R
    intro j _
    refine ⟨0, ?_, rfl⟩
    exact Nat.div_pos (Nat.le_add_right R j) R_pos
  case items => exact fun v hv => absurd hv List.not_mem_nil
  case tail => decide
  case opened => exact fun _ => Or.inl rfl
  case closed => exact Nat.le_succ _
  case head_le => exact le_rfl
  case tail_le => exact le_rfl

theorem Shows.tail_lt (h : Shows isOpen n t s q) (hn : n ≤ 2 ^ 62) :
  t + 1 < 2 ^ 63
  := by
  have hR : R < 2 ^ 62 - 1 := by decide
  have htail := h.tail_le
  omega

theorem Shows.head_lt (h : Shows isOpen n t s q) (hn : n ≤ 2 ^ 62) :
  s.head + 1 < 2 ^ 63
  := by
  have hR : R < 2 ^ 62 - 1 := by decide
  have hhead := h.head_le
  omega

theorem Shows.decodeTailT (h : Shows isOpen n t s q) (hn : n ≤ 2 ^ 62) :
  decodeTailT s.tail = t
  := by
  rw [h.tail]
  exact TopBit.body_pack (Nat.lt_of_succ_lt (h.tail_lt hn))

theorem Shows.decodeTailClosed (h : Shows isOpen n t s q) :
  decodeTailClosed s.tail = !isOpen
  := by
  rw [h.tail]
  exact TopBit.flag_pack _ _

theorem Shows.drawTail (h : Shows isOpen n t s q) (hn : n ≤ 2 ^ 62) :
  fetchAdd s.tail = TopBit.pack (!isOpen) (t + 1)
  := by
  rw [h.tail]
  exact TopBit.pack_succ _ (h.tail_lt hn)

theorem Shows.drawHead (h : Shows isOpen n t s q) (hn : n ≤ 2 ^ 62) :
  fetchAdd s.head = s.head + 1
  := by
  have hhead := h.head_lt hn
  apply Nat.mod_eq_of_lt
  omega

theorem epoch_encode_div {k : ℕ} (hk : k < 2 ^ 63) :
  decodeCellEpoch (encodeCellSafeEpoch true (k / R)) = k / R
  := epoch_encode (lt_of_le_of_lt (Nat.div_le_self k R) hk)

/-- An enqueue on an open ring that has room succeeds at once. -/
theorem solo_ok (h : Shows true n t s q) (hn : n ≤ 2 ^ 62) (hitem : vacant item = false)
    (ht : t = s.head + q.length) (hroom : q.length < R) :
  ∃ s', (machine tokens).Solo i s (.enqueue item) .ok s' ∧
    Shows true (n + 1) (t + 1) s' (q ++ [item])
  := by
  have hlt := h.tail_lt hn
  obtain ⟨e, he, hcell⟩ := h.window.back hroom
  rw [← ht] at he hcell
  have hsafe : decodeCellSafe (encodeCellSafeEpoch true e) = true := safe_encode true e
  have hepoch : decodeCellEpoch (encodeCellSafeEpoch true e) = e := by
    apply epoch_encode
    have hle := Nat.div_le_self t R
    omega
  have hopen := h.decodeTailClosed
  have hticket := h.decodeTailT hn
  let token := tokens.threadToken i
  let s₁ : Shared := { s with tail := fetchAdd s.tail }
  let s₂ : Shared := s₁.setCell (t % R) ⟨encodeCellSafeEpoch true e, token⟩
  let s₃ : Shared := s₁.setCell (t % R) ⟨encodeCellSafeEpoch true (t / R), token⟩
  let s₄ : Shared := s₁.setCell (t % R) ⟨encodeCellSafeEpoch true (t / R), item⟩
  have hcell₁ : s₁.a (t % R) = ⟨encodeCellSafeEpoch true e, NULL_VALUE⟩ := hcell
  have hlength : t + 1 = s.head + (q ++ [item]).length := by
    rw [ht, List.length_append]
    rfl
  use s₄
  constructor
  · use .enqueue .ok
    refine ⟨?_, rfl⟩
    have hdraw : enqueue token s (.drawTail item 0) =
        some (s₁, .readWord item 0 t, .drawTail t item) := by
      simp [enqueue, hopen, hticket, s₁]
    have hword : enqueue token s₁ (.readWord item 0 t) =
        some (s₁, .readValue item 0 t (encodeCellSafeEpoch true e), .other) := by
      simp [enqueue, hcell₁]
    have hfree : enqueue token s₁ (.readValue item 0 t (encodeCellSafeEpoch true e)) =
        some (s₁, .placeToken item 0 t (encodeCellSafeEpoch true e) NULL_VALUE, .other) := by
      simp [enqueue, hcell₁, hepoch, hsafe, he, vacant_null]
    have hplace : enqueue token s₁
        (.placeToken item 0 t (encodeCellSafeEpoch true e) NULL_VALUE) =
        some (s₂, .casWord item 0 t (encodeCellSafeEpoch true e), .other) := by
      simp [enqueue, hcell₁, Shared.setValue, s₂]
    have hcas : enqueue token s₂ (.casWord item 0 t (encodeCellSafeEpoch true e)) =
        some (s₃, .install item 0 t, .other) := by
      simp [enqueue, Shared.setWord, Shared.setCell, s₂, s₃]
    have hinstall : enqueue token s₃ (.install item 0 t) =
        some (s₄, .ok, .install t item) := by
      simp [enqueue, Shared.setValue, Shared.setCell, s₃, s₄]
    apply goes_enqueue rfl hdraw
    apply goes_enqueue rfl hword
    apply goes_enqueue rfl hfree
    apply goes_enqueue rfl hplace
    apply goes_enqueue rfl hcas
    apply goes_enqueue rfl hinstall
    exact .refl
  · constructor
    case window =>
      have hslot : Slot t (some item) ⟨encodeCellSafeEpoch true (t / R), item⟩ := rfl
      rw [ht] at hslot
      have hwindow := h.window.append hroom hslot
      rwa [← ht] at hwindow
    case items =>
      intro v hv
      rcases List.mem_append.mp hv with hv | hv
      · exact h.items v hv
      · rwa [List.mem_singleton.mp hv]
    case tail => exact h.drawTail hn
    case opened => exact fun _ => Or.inl hlength
    case closed => exact Nat.le_succ_of_le (le_of_eq hlength)
    case head_le => exact Nat.le_succ_of_le h.head_le
    case tail_le => exact Nat.succ_le_succ h.tail_le

/-- An enqueue on an open ring that finds an item in its cell, or the cell burned, closes the
ring. -/
theorem solo_fails {w v : ℕ} (h : Shows true n t s q) (hn : n ≤ 2 ^ 62)
    (hcell : s.a (t % R) = ⟨w, v⟩) (htaken : ¬ (vacant v = true ∧ decodeCellEpoch w < t / R))
    (hover : overflows t s.head = true) (ht : t ≤ s.head + q.length) :
  ∃ s', (machine tokens).Solo i s (.enqueue item) .closed s' ∧ Shows false (n + 1) (t + 1) s' q
  := by
  have hlt := h.tail_lt hn
  have hopen := h.decodeTailClosed
  have hticket := h.decodeTailT hn
  let token := tokens.threadToken i
  let s₁ : Shared := { s with tail := fetchAdd s.tail }
  have hcell₁ : s₁.a (t % R) = ⟨w, v⟩ := hcell
  use { s₁ with tail := s₁.tail ||| CLOSED_BIT }
  constructor
  · use .enqueue .closed
    refine ⟨?_, rfl⟩
    have hdraw : enqueue token s (.drawTail item 0) =
        some (s₁, .readWord item 0 t, .drawTail t item) := by
      simp [enqueue, hopen, hticket, s₁]
    have hword : enqueue token s₁ (.readWord item 0 t) =
        some (s₁, .readValue item 0 t w, .other) := by
      simp [enqueue, hcell₁]
    have hvalue : enqueue token s₁ (.readValue item 0 t w) =
        some (s₁, .checkOverflow item 0 t, .other) := by
      simp only [enqueue, hcell₁, if_neg htaken]
    have hcheck : enqueue token s₁ (.checkOverflow item 0 t) = some (s₁, .close, .giveUp t) := by
      simp [enqueue, s₁, hover]
    apply goes_enqueue rfl hdraw
    apply goes_enqueue rfl hword
    apply goes_enqueue rfl hvalue
    apply goes_enqueue rfl hcheck
    exact goes_enqueue rfl rfl .refl
  · constructor
    case window => exact h.window
    case items => exact h.items
    case tail =>
      show fetchAdd s.tail ||| TopBit.bit = TopBit.pack true (t + 1)
      rw [h.drawTail hn]
      exact TopBit.pack_or_bit _ hlt
    case opened =>
      rintro ⟨⟩
    case closed => exact Nat.succ_le_succ ht
    case head_le => exact Nat.le_succ_of_le h.head_le
    case tail_le => exact Nat.succ_le_succ h.tail_le

/-- An enqueue on a full ring closes it. -/
theorem solo_full (h : Shows true n t s q) (hn : n ≤ 2 ^ 62) (ht : t = s.head + q.length)
    (hfull : q.length = R) :
  ∃ s', (machine tokens).Solo i s (.enqueue item) .closed s' ∧ Shows false (n + 1) (t + 1) s' q
  := by
  have hhead : s.a (t % R) = s.a (s.head % R) := by rw [ht, hfull, Nat.add_mod_right]
  have hover : overflows t s.head = true := by
    apply decide_eq_true
    have hdiff : t + 2 ^ 64 - s.head = R + 2 ^ 64 := by
      rw [ht, hfull]
      omega
    rw [hdiff, Nat.add_mod_right]
    decide
  cases q with
  | nil => cases hfull
  | cons v q =>
      have hcell : s.a (s.head % R) = ⟨encodeCellSafeEpoch true (s.head / R), v⟩ :=
        h.window.front R_pos
      apply solo_fails h hn (hhead.trans hcell) _ hover (le_of_eq ht)
      rintro ⟨hv, -⟩
      cases hv.symm.trans (h.items v List.mem_cons_self)

/-- An enqueue on a ring whose head has run past the tail closes it. -/
theorem solo_burned (h : Shows true n t s []) (hn : n ≤ 2 ^ 62) (hburned : s.Burned t) :
  ∃ s', (machine tokens).Solo i s (.enqueue item) .closed s' ∧ Shows false (n + 1) (t + 1) s' []
  := by
  obtain ⟨hlt, hepoch⟩ := hburned
  have hhead := h.head_lt hn
  have hover : overflows t s.head = true := by
    apply decide_eq_true
    have hR : R < 2 ^ 63 := by decide
    omega
  apply solo_fails h hn rfl _ hover (le_of_lt hlt)
  rintro ⟨-, hcycle⟩
  exact Nat.not_le.mpr hcycle hepoch

/-- A dequeue on a ring with items takes the first one at once. -/
theorem solo_take {v : ℕ} (h : Shows isOpen n t s (v :: q)) (hn : n ≤ 2 ^ 62) :
  ∃ s', (machine tokens).Solo i s .dequeue (.value v) s' ∧ Shows isOpen (n + 1) t s' q
  := by
  have hhead := h.head_lt hn
  have hcell : s.a (s.head % R) = ⟨encodeCellSafeEpoch true (s.head / R), v⟩ :=
    h.window.front R_pos
  have hv : vacant v = false := h.items v List.mem_cons_self
  have hepoch := epoch_encode_div (k := s.head) (by omega)
  have hlength : s.head + 1 + q.length = s.head + (v :: q).length := by
    rw [List.length_cons]
    omega
  let s₁ : Shared := { s with head := s.head + 1 }
  have hcell₁ : s₁.a (s.head % R) = ⟨encodeCellSafeEpoch true (s.head / R), v⟩ := hcell
  use s₁.setCell (s.head % R) ⟨encodeCellSafeEpoch true (s.head / R), NULL_VALUE⟩
  constructor
  · use .dequeue (.gave v)
    refine ⟨?_, rfl⟩
    have hdraw : dequeue s .drawHead = some (s₁, .readWord s.head, .drawHead s.head) := by
      simp [dequeue, h.drawHead hn, s₁]
    have hword : dequeue s₁ (.readWord s.head) =
        some (s₁, .readValue s.head (encodeCellSafeEpoch true (s.head / R)), .other) := by
      simp [dequeue, hcell₁]
    have hvalue : dequeue s₁ (.readValue s.head (encodeCellSafeEpoch true (s.head / R))) =
        some (s₁, .checkWord s.head (encodeCellSafeEpoch true (s.head / R)) v, .look s.head) := by
      simp [dequeue, hcell₁]
    have hmine : dequeue s₁ (.checkWord s.head (encodeCellSafeEpoch true (s.head / R)) v) =
        some (s₁, .take s.head v, .other) := by
      simp [dequeue, hcell₁, hepoch, hv]
    have htake : dequeue s₁ (.take s.head v) =
        some (s₁.setCell (s.head % R) ⟨encodeCellSafeEpoch true (s.head / R), NULL_VALUE⟩,
          .gave v, .take s.head v) := by
      simp [dequeue, hcell₁, Shared.setValue]
    apply goes_dequeue rfl hdraw
    apply goes_dequeue rfl hword
    apply goes_dequeue rfl hvalue
    apply goes_dequeue rfl hmine
    apply goes_dequeue rfl htake
    exact .refl
  · constructor
    case window =>
      apply h.window.next R_pos
      refine ⟨s.head / R, ?_, rfl⟩
      rw [Nat.add_div_right _ R_pos]
      exact Nat.lt_succ_self _
    case items => exact fun y hy => h.items y (List.mem_cons_of_mem v hy)
    case tail => exact h.tail
    case opened =>
      intro hopen
      rcases h.opened hopen with ht | ⟨⟨⟩, -⟩
      exact Or.inl (ht.trans hlength.symm)
    case closed =>
      have hclosed := h.closed
      rwa [← hlength] at hclosed
    case head_le => exact Nat.succ_le_succ h.head_le
    case tail_le => exact Nat.le_succ_of_le h.tail_le

/-- A dequeue on a ring without items burns one ticket. -/
theorem solo_empty (h : Shows isOpen n t s []) (hn : n ≤ 2 ^ 62) :
  ∃ s', (machine tokens).Solo i s .dequeue (.value EMPTY) s' ∧ Shows isOpen (n + 1) t s' []
  := by
  have hhead := h.head_lt hn
  have hclosed : t ≤ s.head + 1 := h.closed
  obtain ⟨e, he, hcell⟩ := h.window.front R_pos
  have hsafe : decodeCellSafe (encodeCellSafeEpoch true e) = true := safe_encode true e
  have hle := Nat.div_le_self s.head R
  have hepoch : decodeCellEpoch (encodeCellSafeEpoch true e) = e := epoch_encode (by omega)
  have hburned := epoch_encode_div (k := s.head) (by omega)
  let s₁ : Shared := { s with head := s.head + 1 }
  let s₂ : Shared := s₁.setCell (s.head % R) ⟨encodeCellSafeEpoch true (s.head / R), NULL_VALUE⟩
  have hcell₁ : s₁.a (s.head % R) = ⟨encodeCellSafeEpoch true e, NULL_VALUE⟩ := hcell
  use s₂
  constructor
  · use .dequeue .empty
    refine ⟨?_, rfl⟩
    have hdraw : dequeue s .drawHead = some (s₁, .readWord s.head, .drawHead s.head) := by
      simp [dequeue, h.drawHead hn, s₁]
    have hword : dequeue s₁ (.readWord s.head) =
        some (s₁, .readValue s.head (encodeCellSafeEpoch true e), .other) := by
      simp [dequeue, hcell₁]
    have hvalue : dequeue s₁ (.readValue s.head (encodeCellSafeEpoch true e)) =
        some (s₁, .checkWord s.head (encodeCellSafeEpoch true e) NULL_VALUE, .look s.head) := by
      simp [dequeue, hcell₁]
    have hvoid : dequeue s₁ (.checkWord s.head (encodeCellSafeEpoch true e) NULL_VALUE) =
        some (s₁, .advance s.head (encodeCellSafeEpoch true e), .other) := by
      simp [dequeue, hcell₁, hepoch, vacant_null, not_isToken_null, le_of_lt he]
    have hadvance : dequeue s₁ (.advance s.head (encodeCellSafeEpoch true e)) =
        some (s₂, .readTail s.head, .miss s.head) := by
      simp [dequeue, hcell₁, hsafe, Shared.setWord, s₂]
    have htail : dequeue s₂ (.readTail s.head) = some (s₂, .empty, .sawEmpty s.head) := by
      have hle : PRQ.decodeTailT s₂.tail ≤ s.head + 1 := by rwa [← h.decodeTailT hn] at hclosed
      have hword : (s.head + 1) % 2 ^ 64 = s.head + 1 := Nat.mod_eq_of_lt (by omega)
      rw [← hword] at hle
      exact if_pos hle
    apply goes_dequeue rfl hdraw
    apply goes_dequeue rfl hword
    apply goes_dequeue rfl hvalue
    apply goes_dequeue rfl hvoid
    apply goes_dequeue rfl hadvance
    apply goes_dequeue rfl htail
    exact .refl
  · constructor
    case window =>
      apply h.window.next R_pos
      refine ⟨s.head / R, ?_, rfl⟩
      rw [Nat.add_div_right _ R_pos]
      exact Nat.lt_succ_self _
    case items => exact h.items
    case tail => exact h.tail
    case opened =>
      -- the cell of the tail ticket is the one burned now, or has been burned before
      intro hopen
      refine Or.inr ⟨rfl, ?_⟩
      have hle : t ≤ s.head := by
        rcases h.opened hopen with ht | ⟨-, hlt, -⟩
        · exact le_of_eq ht
        · exact le_of_lt hlt
      refine ⟨Nat.lt_succ_of_le hle, ?_⟩
      by_cases hres : t % R = s.head % R
      · have hself : s₂.a (t % R) = ⟨encodeCellSafeEpoch true (s.head / R), NULL_VALUE⟩ := by
          rw [hres]
          exact Function.update_self ..
        rw [hself]
        exact le_of_le_of_eq (Nat.div_le_div_right hle) hburned.symm
      · have hother : s₂.a (t % R) = s.a (t % R) := Function.update_of_ne hres ..
        rw [hother]
        rcases h.opened hopen with ht | ⟨-, -, hcycle⟩
        · exact absurd (congrArg (· % R) ht) hres
        · exact hcycle
    case closed => exact Nat.le_succ_of_le hclosed
    case head_le => exact Nat.succ_le_succ h.head_le
    case tail_le => exact Nat.le_succ_of_le h.tail_le

end PRQ
