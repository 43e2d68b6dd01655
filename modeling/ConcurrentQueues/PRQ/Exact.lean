import ConcurrentQueues.PRQ.Model
import ConcurrentQueues.Library.TicketRing

/-!
# The tickets of PRQ

The tickets of a ring are kept as a ghost, with two more things. A cell is live when it shows
the token of a thread that has claimed it for its cycle and not yet stored its item. And
for each head ticket the ghost records the word under which its holder last saw an item
in the cell. The words of a cell only move up in rank, so a word that is compared
successfully has not changed since it was read.
-/

namespace PRQ

open Machine

variable {ι : Type}

/-- The history of a ring. -/
structure Trace (ι : Type) where
  tickets : Tickets ι ℕ
  live : ℕ → Bool
  spot : ℕ → Option ℕ

/-- A ring with its history. -/
abbrev State (ι : Type) := Shared × Trace ι

/-- Whether a cell that changes from `x` to `x'` by an access of the thread with the given token
is live afterwards. -/
def liveAfter (token : ℕ) (x x' : Cell) (b : Bool) : Bool :=
  if x' = x then b else decide (x'.value = x.value ∧ x'.value = token)

/-- What the holder of a head ticket has seen after an access. -/
def spotAfter (s : Shared) (spot : ℕ → Option ℕ) : RingTag ℕ → ℕ → Option ℕ
  | .look h => Function.update spot h
      (if vacant (s.a (h % R)).value then none else some (s.a (h % R)).safeAndEpoch)
  | _ => spot

/-- The history after an access of the thread with the given token. -/
def Trace.next (token : ℕ) (i : ι) (s : Shared) (a : Trace ι) (s' : Shared) (τ : RingTag ℕ) :
    Trace ι where
  tickets := a.tickets.apply i τ
  live c := liveAfter token (s.a c) (s'.a c) (a.live c)
  spot := spotAfter s a.spot τ

/-! ### Words -/

theorem R_pos :
  0 < R
  := by decide

theorem epoch_lt (w : ℕ) :
  decodeCellEpoch w < 2 ^ 63
  := TopBit.body_lt w

theorem epoch_encode {b : Bool} {e : ℕ} (he : e < 2 ^ 63) :
  decodeCellEpoch (encodeCellSafeEpoch b e) = e
  := TopBit.body_pack he

theorem safe_encode (b : Bool) (e : ℕ) :
  decodeCellSafe (encodeCellSafeEpoch b e) = b
  := TopBit.flag_pack b e

theorem encode_lt (b : Bool) (e : ℕ) :
  encodeCellSafeEpoch b e < 2 ^ 64
  := TopBit.pack_lt b e

theorem encode_decode {w : ℕ} (hw : w < 2 ^ 64) :
  encodeCellSafeEpoch (decodeCellSafe w) (decodeCellEpoch w) = w
  := TopBit.pack_flag_body hw

/-- How far a word has come: each epoch is first safe, then unsafe. -/
def rank (w : ℕ) : ℕ := 2 * decodeCellEpoch w + if decodeCellSafe w then 0 else 1

theorem rank_lt_of_epoch {w w' : ℕ} (h : decodeCellEpoch w < decodeCellEpoch w') :
  rank w < rank w'
  := by
  rw [rank, rank]
  split <;> split <;> omega

theorem vacant_null :
  vacant NULL_VALUE = true
  := by decide

theorem vacant_of_isToken {v : ℕ} (h : isToken v = true) :
  vacant v = true
  := by
  rw [vacant, h, Bool.or_true]

theorem not_isToken_null :
  isToken NULL_VALUE = false
  := by decide

/-- The epoch of a ticket and its cell make up the ticket. -/
theorem ticket_eq {t c e : ℕ} (hc : t % R = c) (he : t / R = e) :
  e * R + c = t
  := by
  rw [← hc, ← he]
  exact Nat.div_add_mod' t R

theorem div_ticket {c : ℕ} (e : ℕ) (hc : c < R) :
  (e * R + c) / R = e ∧ (e * R + c) % R = c
  := by
  constructor
  · rw [Nat.mul_comm, Nat.mul_add_div R_pos, Nat.div_eq_of_lt hc, Nat.add_zero]
  · rw [Nat.mul_comm, Nat.mul_add_mod, Nat.mod_eq_of_lt hc]

/-! ### The invariant -/

/-- What the cell `x` at index `c`, which is live or not, says about its tickets. -/
structure Cell.Fits (a : Tickets ι ℕ) (spot : ℕ → Option ℕ) (c : ℕ) (x : Cell) (live : Bool) :
    Prop where
  word : x.safeAndEpoch < 2 ^ 64
  item : vacant x.value = false →
    a.enq (decodeCellEpoch x.safeAndEpoch * R + c) = .full x.value ∧
      a.deq (decodeCellEpoch x.safeAndEpoch * R + c) ≠ .took
  full : ∀ t y, t % R = c → a.enq t = .full y → a.deq t ≠ .took →
    decodeCellEpoch x.safeAndEpoch = t / R ∧ x.value = y
  missed : ∀ t, t % R = c → a.deq t = .missed →
    t / R < decodeCellEpoch x.safeAndEpoch ∨
    decodeCellEpoch x.safeAndEpoch = t / R ∧ live = false ∨
    decodeCellSafe x.safeAndEpoch = false ∧ decodeCellEpoch x.safeAndEpoch < t / R
  live : live = true → isToken x.value = true ∧ decodeCellSafe x.safeAndEpoch = true ∧
    ∀ t, t % R = c → spot t ≠ some x.safeAndEpoch
  spot : ∀ t w, t % R = c → spot t = some w → rank w ≤ rank x.safeAndEpoch

/-- The invariant of a ring with its history. -/
structure Inv (σ : State ι) : Prop where
  tickets : σ.2.tickets.Inv
  head : σ.2.tickets.head = σ.1.head
  tail : σ.2.tickets.tail = decodeTailT σ.1.tail
  closed : σ.2.tickets.closed = decodeTailClosed σ.1.tail
  word : σ.1.tail < 2 ^ 64
  items : σ.2.tickets.All (vacant · = false)
  spot : ∀ t, σ.2.spot t ≠ none → t < σ.1.head
  cell : ∀ c < R, (σ.1.a c).Fits σ.2.tickets σ.2.spot c (σ.2.live c)

/-- While the cell at index `c` shows the word `w`, it is not live and has no item. -/
def Quiet (σ : State ι) (c w : ℕ) : Prop :=
  (σ.1.a c).safeAndEpoch = w → σ.2.live c = false ∧ vacant (σ.1.a c).value = true

/-- While the cell of ticket `t` shows the unsafe word `w`, it has no item. -/
def Void (σ : State ι) (t w : ℕ) : Prop :=
  decodeCellSafe w = false → (σ.1.a (t % R)).safeAndEpoch = w →
    vacant (σ.1.a (t % R)).value = true

/-- While the cell of ticket `t` shows the unsafe word `w`, no dequeuer with a ticket from `t` on
has left it, or seen an item in it. -/
def Unmissed (σ : State ι) (t w : ℕ) : Prop :=
  decodeCellSafe w = false → (σ.1.a (t % R)).safeAndEpoch = w →
    ∀ u, t ≤ u → u % R = t % R → σ.2.tickets.deq u ≠ .missed ∧ σ.2.spot u ≠ some w

/-- The word `w` has been read from the cell at index `c`. -/
def Read (σ : State ι) (c w : ℕ) : Prop := rank w ≤ rank (σ.1.a c).safeAndEpoch

/-- What the thread with the given token knows at each point of `enqueue`. -/
def Enqueue.Knows (token : ℕ) (σ : State ι) : Enqueue → Prop
  | .drawTail item _ => vacant item = false
  | .readValue _ _ t w => Read σ (t % R) w
  | .readHead _ _ t w v =>
      Read σ (t % R) w ∧ vacant v = true ∧ decodeCellEpoch w < t / R ∧ Void σ t w
  | .placeToken _ _ t w v =>
      Read σ (t % R) w ∧ vacant v = true ∧ decodeCellEpoch w < t / R ∧ Void σ t w ∧ Unmissed σ t w
  | .casWord _ _ t w =>
      Read σ (t % R) w ∧ decodeCellEpoch w < t / R ∧ Quiet σ (t % R) w ∧ Unmissed σ t w
  | .install _ _ t => (σ.1.a (t % R)).value = token → σ.2.live (t % R) = true ∧
      (σ.1.a (t % R)).safeAndEpoch = encodeCellSafeEpoch true (t / R)
  | .closed => σ.2.tickets.closed = true
  | _ => True

/-- What a thread knows at each point of `dequeue`. -/
def Dequeue.Knows (σ : State ι) : Dequeue → Prop
  | .readValue h w => Read σ (h % R) w
  | .checkWord h w v => Read σ (h % R) w ∧
      ((σ.1.a (h % R)).safeAndEpoch = w → vacant v = false →
        σ.2.tickets.enq (decodeCellEpoch w * R + h % R) = .full v ∧ σ.2.spot h = some w) ∧
      (v = NULL_VALUE → Quiet σ (h % R) w)
  | .take h v => σ.2.tickets.enq h = .full v
  | .killToken h w v => Read σ (h % R) w ∧ isToken v = true ∧ decodeCellEpoch w ≤ h / R
  | .advance h w => Read σ (h % R) w ∧ decodeCellEpoch w ≤ h / R ∧ Quiet σ (h % R) w
  | .mark h w => Read σ (h % R) w ∧ decodeCellEpoch w < h / R ∧
      ((σ.1.a (h % R)).safeAndEpoch = w → σ.2.spot h = some w)
  | .readTail h => σ.2.tickets.deq h = .missed
  | .gave v => v ≠ EMPTY
  | _ => True

/-- The tail ticket of a thread, with the item it wants to install. -/
def Enqueue.ticket : Enqueue → Option (ℕ × ℕ)
  | .readWord item _ t | .readValue item _ t _ | .readHead item _ t _ _
  | .placeToken item _ t _ _ | .casWord item _ t _ | .clearToken item _ t | .install item _ t
  | .checkOverflow item _ t => some (t, item)
  | .drawTail _ _ | .close | .ok | .closed => none

/-- The head ticket of a thread. -/
def Dequeue.ticket : Dequeue → Option ℕ
  | .readWord h | .readValue h _ | .checkWord h _ _ | .take h _ | .killToken h _ _
  | .advance h _ | .mark h _ => some h
  | .drawHead | .readTail _ | .gave _ | .empty => none

/-- The cell in which a thread may have its token. -/
def Enqueue.mine : Enqueue → Option ℕ
  | .casWord _ _ t _ | .clearToken _ _ t | .install _ _ t => some (t % R)
  | _ => none

/-- The history of a ring, which follows the tags of the accesses. -/
def ticketing (tokens : Tokens ι) : (machine tokens).Ticketing (Trace ι) where
  init := ⟨.new R, fun _ => false, fun _ => none⟩
  next i s a s' τ := a.next (tokens.threadToken i) i s s' τ
  tickets := Trace.tickets
  enq
    | .enqueue pc => pc.ticket
    | .dequeue _ => none
  deq
    | .enqueue _ => none
    | .dequeue pc => pc.ticket

/-- The token can be in the cell `mine` only. -/
def Tidy (token : ℕ) (s : Shared) (mine : Option ℕ) : Prop :=
  ∀ c, (s.a c).value = token → mine = some c

theorem Tidy.ne {token : ℕ} {s : Shared} (h : Tidy token s none) (c : ℕ) :
  (s.a c).value ≠ token
  := by
  intro heq
  cases h c heq

/-- What thread `i` knows about its own position. -/
def Knows (tokens : Tokens ι) (i : ι) (σ : State ι) : Option Local → Prop
  | none => σ.2.tickets.Holding i none none ∧ Tidy (tokens.threadToken i) σ.1 none
  | some (.enqueue pc) => (σ.2.tickets.Holding i pc.ticket none ∧
      Tidy (tokens.threadToken i) σ.1 pc.mine) ∧ pc.Knows (tokens.threadToken i) σ
  | some (.dequeue pc) => (σ.2.tickets.Holding i none pc.ticket ∧
      Tidy (tokens.threadToken i) σ.1 none) ∧ pc.Knows σ

/-- How an access of another thread than the one with the token `token` may change a cell that
is live or not. -/
structure Cell.Moves (token : ℕ) (x : Cell) (live : Bool) (x' : Cell) (live' : Bool) : Prop where
  word : x'.safeAndEpoch = x.safeAndEpoch ∨ rank x.safeAndEpoch < rank x'.safeAndEpoch
  quiet : x'.safeAndEpoch = x.safeAndEpoch → live = false → vacant x.value = true →
    live' = false ∧ vacant x'.value = true
  void : x'.safeAndEpoch = x.safeAndEpoch → decodeCellSafe x.safeAndEpoch = false →
    vacant x.value = true → vacant x'.value = true
  token : x'.value = token → x.value = token ∧
    (live = true → live' = true ∧ x'.safeAndEpoch = x.safeAndEpoch)

/-- What an access of another thread does, as thread `j` sees it. -/
structure Sees (tokens : Tokens ι) (j : ι) (σ σ' : State ι) : Prop where
  later : σ.2.tickets.Later σ'.2.tickets
  holding : ∀ e d, σ.2.tickets.Holding j e d → σ'.2.tickets.Holding j e d
  cell : ∀ c, (σ.1.a c).Moves (tokens.threadToken j) (σ.2.live c) (σ'.1.a c) (σ'.2.live c)
  missed : ∀ t, σ'.2.tickets.deq t = .missed → σ.2.tickets.deq t = .missed ∨
    (σ'.1.a (t % R)).safeAndEpoch ≠ (σ.1.a (t % R)).safeAndEpoch ∨
    t / R ≤ decodeCellEpoch (σ.1.a (t % R)).safeAndEpoch ∨
    σ.2.spot t = some (σ.1.a (t % R)).safeAndEpoch
  spot : ∀ t w, σ'.2.spot t = some w → σ.2.spot t = some w ∨
    vacant (σ.1.a (t % R)).value = false ∧ (σ.1.a (t % R)).safeAndEpoch = w
  mine : ∀ t, σ.2.tickets.deq t = .held j → σ'.2.spot t = σ.2.spot t

/-! ### What a thread knows is stable -/

section stable

variable {tokens : Tokens ι} {j : ι} {σ σ' : State ι} {c t w : ℕ}

theorem Read.keep (h : Read σ c w) (hs : Sees tokens j σ σ') :
  Read σ' c w
  := by
  rcases (hs.cell c).word with heq | hlt
  · rw [Read, heq]
    exact h
  · exact h.trans (le_of_lt hlt)

/-- A word that was read before and is there after an access was there before it. -/
theorem Read.same (h : Read σ c w) (hs : Sees tokens j σ σ')
    (hw : (σ'.1.a c).safeAndEpoch = w) :
  (σ.1.a c).safeAndEpoch = w
  := by
  rcases (hs.cell c).word with heq | hlt
  · rw [← heq, hw]
  · rw [hw] at hlt
    exact absurd h (Nat.not_le.mpr hlt)

theorem Quiet.keep (h : Quiet σ c w) (hread : Read σ c w) (hs : Sees tokens j σ σ') :
  Quiet σ' c w
  := by
  intro hw
  have hold := hread.same hs hw
  obtain ⟨hlive, hvacant⟩ := h hold
  exact (hs.cell c).quiet (hw.trans hold.symm) hlive hvacant

theorem Void.keep (h : Void σ t w) (hread : Read σ (t % R) w) (hs : Sees tokens j σ σ') :
  Void σ' t w
  := by
  intro hsafe hw
  have hold := hread.same hs hw
  apply (hs.cell (t % R)).void (hw.trans hold.symm)
  · rw [hold]
    exact hsafe
  · exact h hsafe hold

theorem Unmissed.keep (h : Unmissed σ t w) (hread : Read σ (t % R) w)
    (hvacant : decodeCellSafe w = false → (σ.1.a (t % R)).safeAndEpoch = w →
      vacant (σ.1.a (t % R)).value = true)
    (hepoch : decodeCellEpoch w < t / R) (hs : Sees tokens j σ σ') :
  Unmissed σ' t w
  := by
  intro hsafe hw u htu hu
  have hold := hread.same hs hw
  obtain ⟨hmissed, hspot⟩ := h hsafe hold u htu hu
  have hle : t / R ≤ u / R := Nat.div_le_div_right htu
  constructor
  · intro hnew
    rcases hs.missed u hnew with hm | hne | hge | hm
    · exact hmissed hm
    · rw [hu] at hne
      exact hne (hw.trans hold.symm)
    · rw [hu, hold] at hge
      omega
    · rw [hu, hold] at hm
      exact hspot hm
  · intro hnew
    rcases hs.spot u w hnew with hm | ⟨hitem, -⟩
    · exact hspot hm
    · rw [hu, hvacant hsafe hold] at hitem
      cases hitem

theorem Tidy.keep {mine : Option ℕ} (h : Tidy (tokens.threadToken j) σ.1 mine)
    (hs : Sees tokens j σ σ') :
  Tidy (tokens.threadToken j) σ'.1 mine
  := fun c hc => h c ((hs.cell c).token hc).1

theorem Enqueue.Knows.keep {pc : Enqueue} (hpc : pc.Knows (tokens.threadToken j) σ)
    (hs : Sees tokens j σ σ') :
  pc.Knows (tokens.threadToken j) σ'
  := by
  cases pc with
  | drawTail item it => exact hpc
  | readValue item it t w => exact Read.keep hpc hs
  | readHead item it t w v =>
      obtain ⟨hread, hv, hepoch, hvoid⟩ := hpc
      exact ⟨hread.keep hs, hv, hepoch, hvoid.keep hread hs⟩
  | placeToken item it t w v =>
      obtain ⟨hread, hv, hepoch, hvoid, hun⟩ := hpc
      exact ⟨hread.keep hs, hv, hepoch, hvoid.keep hread hs, hun.keep hread hvoid hepoch hs⟩
  | casWord item it t w =>
      obtain ⟨hread, hepoch, hquiet, hun⟩ := hpc
      exact ⟨hread.keep hs, hepoch, hquiet.keep hread hs,
        hun.keep hread (fun _ hw => (hquiet hw).2) hepoch hs⟩
  | install item it t =>
      intro hv
      obtain ⟨hold, hkeep⟩ := (hs.cell (t % R)).token hv
      obtain ⟨hlive, hw⟩ := hpc hold
      obtain ⟨hlive', hw'⟩ := hkeep hlive
      exact ⟨hlive', hw'.trans hw⟩
  | closed => exact hs.later.closed hpc
  | readWord item it t => trivial
  | clearToken item it t => trivial
  | checkOverflow item it t => trivial
  | close => trivial
  | ok => trivial

theorem Dequeue.Knows.keep {pc : Dequeue} (hpc : pc.Knows σ)
    (hold : σ.2.tickets.Holding j none pc.ticket) (hs : Sees tokens j σ σ') :
  pc.Knows σ'
  := by
  cases pc with
  | readValue h w => exact Read.keep hpc hs
  | checkWord h w v =>
      obtain ⟨hread, hitem, hnull⟩ := hpc
      refine ⟨hread.keep hs, fun hw hv => ?_, fun hv => (hnull hv).keep hread hs⟩
      obtain ⟨hfull, hspot⟩ := hitem (hread.same hs hw) hv
      use hs.later.full _ _ hfull
      rw [hs.mine h ((hold.deq h).mpr rfl), hspot]
  | take h v => exact hs.later.full _ _ hpc
  | killToken h w v => exact ⟨hpc.1.keep hs, hpc.2⟩
  | advance h w =>
      obtain ⟨hread, hepoch, hquiet⟩ := hpc
      exact ⟨hread.keep hs, hepoch, hquiet.keep hread hs⟩
  | mark h w =>
      obtain ⟨hread, hepoch, hspot⟩ := hpc
      refine ⟨hread.keep hs, hepoch, fun hw => ?_⟩
      rw [hs.mine h ((hold.deq h).mpr rfl), hspot (hread.same hs hw)]
  | readTail h => exact hs.later.missed h hpc
  | gave v => exact hpc
  | drawHead => trivial
  | readWord h => trivial
  | empty => trivial

theorem Knows.keep {l : Option Local} (hl : Knows tokens j σ l) (hs : Sees tokens j σ σ') :
  Knows tokens j σ' l
  := by
  cases l with
  | none => exact ⟨hs.holding _ _ hl.1, hl.2.keep hs⟩
  | some l =>
      cases l with
      | enqueue pc =>
          obtain ⟨⟨hold, htidy⟩, hpc⟩ := hl
          exact ⟨⟨hs.holding _ _ hold, htidy.keep hs⟩, hpc.keep hs⟩
      | dequeue pc =>
          obtain ⟨⟨hold, htidy⟩, hpc⟩ := hl
          exact ⟨⟨hs.holding _ _ hold, htidy.keep hs⟩, hpc.keep hold hs⟩

end stable

/-! ### One access -/

section access

variable {token : ℕ} {x x' : Cell} {live : Bool}

theorem liveAfter_self (token : ℕ) (x : Cell) (live : Bool) :
  liveAfter token x x live = live
  := if_pos rfl

theorem liveAfter_value (h : x'.value ≠ x.value) :
  liveAfter token x x' live = false
  := by
  have hne : x' ≠ x := fun heq => h (congrArg Cell.value heq)
  rw [liveAfter, if_neg hne, decide_eq_false]
  exact fun hand => h hand.1

/-- A cell that is not live, and where the thread does not have its token, is not made live. -/
theorem liveAfter_tidy (h : x'.value ≠ token) :
  liveAfter token x x' false = false
  := by
  rw [liveAfter]
  split
  · rfl
  · exact decide_eq_false fun hand => h hand.2

/-- Storing a value in a cell. A value that is an item is stored in a live, safe cell only. -/
theorem Cell.Moves.value {token' v : ℕ} (hne : v ≠ token')
    (hv : vacant v = true ∨ live = true ∧ decodeCellSafe x.safeAndEpoch = true) :
  x.Moves token' live ⟨x.safeAndEpoch, v⟩ (liveAfter token x ⟨x.safeAndEpoch, v⟩ live)
  := by
  constructor
  case word => exact Or.inl rfl
  case quiet =>
    intro _ hlive hvacant
    subst hlive
    rcases hv with hv | ⟨hlive, -⟩
    · by_cases hsame : v = x.value
      · subst hsame
        exact ⟨liveAfter_self .., hv⟩
      · exact ⟨liveAfter_value hsame, hv⟩
    · cases hlive
  case void =>
    intro _ hsafe hvacant
    rcases hv with hv | ⟨-, hsafe'⟩
    · exact hv
    · cases hsafe.symm.trans hsafe'
  case token => exact fun heq => absurd heq hne

/-- Replacing the word of a cell that is not live. -/
theorem Cell.Moves.setWord {token' w : ℕ}
    (hrank : w = x.safeAndEpoch ∨ rank x.safeAndEpoch < rank w) :
  x.Moves token' false ⟨w, x.value⟩ (liveAfter token x ⟨w, x.value⟩ false)
  := by
  constructor
  case word => exact hrank
  case quiet =>
    intro hw _ hvacant
    have hsame : (⟨w, x.value⟩ : Cell) = x := by
      rw [show w = x.safeAndEpoch from hw]
    rw [hsame]
    exact ⟨liveAfter_self .., hvacant⟩
  case void => exact fun _ _ => id
  case token => exact fun hv => ⟨hv, nofun⟩

end access

/-- What an access of thread `i` with tag `τ` from the ring `σ` to `s'` has to satisfy. -/
structure Access (tokens : Tokens ι) (i : ι) (σ : State ι) (s' : Shared) (τ : RingTag ℕ) :
    Prop where
  ok : σ.2.tickets.Ok i τ
  inv : Inv (s', σ.2.next (tokens.threadToken i) i σ.1 s' τ)
  cell : ∀ c token, isToken token = true → token ≠ tokens.threadToken i →
    (σ.1.a c).Moves token (σ.2.live c) (s'.a c)
      (liveAfter (tokens.threadToken i) (σ.1.a c) (s'.a c) (σ.2.live c))
  missed : ∀ t, τ = .miss t →
    (s'.a (t % R)).safeAndEpoch ≠ (σ.1.a (t % R)).safeAndEpoch ∨
    t / R ≤ decodeCellEpoch (σ.1.a (t % R)).safeAndEpoch ∨
    σ.2.spot t = some (σ.1.a (t % R)).safeAndEpoch

variable {tokens : Tokens ι} {i j : ι} {s s' : Shared} {a : Trace ι} {τ : RingTag ℕ}

/-- The other threads see the access. -/
theorem Access.sees (h : Access tokens i (s, a) s' τ) (hinv : Inv (s, a)) (hj : j ≠ i) :
  Sees tokens j (s, a) (s', a.next (tokens.threadToken i) i s s' τ)
  := by
  constructor
  case later => exact h.ok.later hinv.tickets
  case holding => exact fun e d hold => hold.frame h.ok hinv.tickets hj
  case cell =>
    intro c
    apply h.cell c _ (tokens.token j)
    exact fun heq => hj (tokens.injective heq)
  case missed =>
    intro t ht
    by_cases hτ : τ.ticket = some t
    · cases τ with
      | install u x => exact Or.inl ht
      | take u x =>
          cases hτ
          cases (Function.update_self ..).symm.trans ht
      | miss u =>
          cases hτ
          exact Or.inr (h.missed t rfl)
      | _ => cases hτ
    · exact Or.inl (((h.ok.settled hinv.tickets hτ).2.2).mp ht)
  case spot =>
    intro t w ht
    cases τ with
    | look u =>
        by_cases htu : t = u
        · subst htu
          right
          have hnew : spotAfter s a.spot (.look t) t = some w := ht
          rw [spotAfter, Function.update_self] at hnew
          split at hnew
          case isTrue => cases hnew
          case isFalse hv =>
            rw [Bool.not_eq_true] at hv
            exact ⟨hv, Option.some.inj hnew⟩
        · exact Or.inl ((Function.update_of_ne htu ..).symm.trans ht)
    | _ => exact Or.inl ht
  case mine =>
    intro t ht
    cases τ with
    | look u =>
        have htu : t ≠ u := by
          rintro rfl
          have hheld : a.tickets.deq t = .held i := h.ok
          cases hheld.symm.trans ht
          exact hj rfl
        exact Function.update_of_ne htu ..
    | _ => rfl

/-- A cell whose tickets have not been touched still fits. -/
theorem Cell.Fits.settled {spot : ℕ → Option ℕ} {x : Cell} {c : ℕ} {live : Bool}
    (hx : x.Fits a.tickets spot c live) (hok : a.tickets.Ok i τ) (ha : a.tickets.Inv)
    (hτ : ∀ t, τ.ticket = some t → t % R ≠ c) (hc : c < R) :
  x.Fits (a.tickets.apply i τ) spot c live
  := by
  have hset : ∀ t, t % R = c → _ := fun t ht =>
    hok.settled ha (fun heq => hτ t heq ht)
  constructor
  case word => exact hx.word
  case item =>
    intro hv
    obtain ⟨hfull, htook, -⟩ := hset _ (div_ticket (decodeCellEpoch x.safeAndEpoch) hc).2
    obtain ⟨henq, hdeq⟩ := hx.item hv
    exact ⟨(hfull _).mpr henq, fun h => hdeq (htook.mp h)⟩
  case full =>
    intro t y ht hy hdeq
    obtain ⟨hfull, htook, -⟩ := hset t ht
    exact hx.full t y ht ((hfull y).mp hy) (fun h => hdeq (htook.mpr h))
  case missed =>
    intro t ht hmissed
    exact hx.missed t ht ((hset t ht).2.2.mp hmissed)
  case live => exact hx.live
  case spot => exact hx.spot

/-- An access that leaves the cells alone, settles no ticket and is no look. -/
theorem Access.counters (h : Inv (s, a)) (hok : a.tickets.Ok i τ) (hnone : τ.ticket = none)
    (hlook : spotAfter s a.spot τ = a.spot)
    (hcells : s'.a = s.a) (hhead : (a.tickets.apply i τ).head = s'.head)
    (htail : (a.tickets.apply i τ).tail = decodeTailT s'.tail)
    (hclosed : (a.tickets.apply i τ).closed = decodeTailClosed s'.tail)
    (hword : s'.tail < 2 ^ 64) (hdraw : ∀ t x, τ = .drawTail t x → vacant x = false) :
  Access tokens i (s, a) s' τ
  := by
  have hle : s.head ≤ s'.head := by
    rw [← hhead, ← show a.tickets.head = s.head from h.head]
    exact (hok.later h.tickets).head
  have hlive : ∀ c, liveAfter (tokens.threadToken i) (s.a c) (s'.a c) (a.live c) = a.live c := by
    intro c
    rw [hcells]
    apply liveAfter_self
  refine ⟨hok, ⟨hok.inv h.tickets, hhead, htail, hclosed, hword, hok.all h.items hdraw, ?_, ?_⟩,
    ?_, ?_⟩
  · intro t ht
    rw [Trace.next, hlook] at ht
    exact lt_of_lt_of_le (h.spot t ht) hle
  · intro c hc
    have hfits : (s'.a c).Fits (a.tickets.apply i τ) a.spot c
        (liveAfter (tokens.threadToken i) (s.a c) (s'.a c) (a.live c)) := by
      rw [hlive, hcells]
      apply (h.cell c hc).settled hok h.tickets _ hc
      intro t ht
      rw [hnone] at ht
      cases ht
    rw [Trace.next, hlook]
    exact hfits
  · intro c token _ _
    rw [hlive, hcells]
    exact ⟨Or.inl rfl, fun _ h₁ h₂ => ⟨h₁, h₂⟩, fun _ _ => id, fun hv => ⟨hv, fun h₁ => ⟨h₁, rfl⟩⟩⟩
  · rintro t rfl
    cases hnone

theorem Access.stay (h : Inv (s, a)) (hok : a.tickets.Ok i τ) (hnone : τ.ticket = none)
    (hlook : spotAfter s a.spot τ = a.spot)
    (hcount : (a.tickets.apply i τ).head = a.tickets.head ∧
      (a.tickets.apply i τ).tail = a.tickets.tail ∧
      (a.tickets.apply i τ).closed = a.tickets.closed)
    (hdraw : ∀ t x, τ = .drawTail t x → vacant x = false) :
  Access tokens i (s, a) s τ
  := Access.counters h hok hnone hlook rfl (hcount.1.trans h.head) (hcount.2.1.trans h.tail)
    (hcount.2.2.trans h.closed) h.word hdraw

theorem Access.silent (h : Inv (s, a)) :
  Access tokens i (s, a) s .other
  := Access.stay h trivial rfl rfl ⟨rfl, rfl, rfl⟩ nofun

/-- An access that makes `x` the cell at index `c`, and settles at most a ticket of that cell. -/
theorem Access.write {c : ℕ} {x : Cell} (h : Inv (s, a)) (hok : a.tickets.Ok i τ)
    (hτ : τ = .other ∨ ∃ t, τ.ticket = some t ∧ t % R = c)
    (hx : x.Fits (a.tickets.apply i τ) a.spot c
      (liveAfter (tokens.threadToken i) (s.a c) x (a.live c)))
    (hmoves : ∀ token, isToken token = true → token ≠ tokens.threadToken i →
      (s.a c).Moves token (a.live c) x
        (liveAfter (tokens.threadToken i) (s.a c) x (a.live c)))
    (hmissed : ∀ t, τ = .miss t → t % R = c → x.safeAndEpoch ≠ (s.a c).safeAndEpoch ∨
      t / R ≤ decodeCellEpoch (s.a c).safeAndEpoch ∨ a.spot t = some (s.a c).safeAndEpoch) :
  Access tokens i (s, a) (s.setCell c x) τ
  := by
  have hself : (s.setCell c x).a c = x := Function.update_self ..
  have hother : ∀ {c'}, c' ≠ c → (s.setCell c x).a c' = s.a c' :=
    fun hc => Function.update_of_ne hc ..
  have hticket : ∀ t, τ.ticket = some t → t % R = c := by
    intro t ht
    rcases hτ with rfl | ⟨u, hu, huc⟩
    · cases ht
    · cases hu.symm.trans ht
      exact huc
  have hplain : ((a.tickets.apply i τ).head = a.tickets.head ∧
      (a.tickets.apply i τ).tail = a.tickets.tail ∧
      (a.tickets.apply i τ).closed = a.tickets.closed) ∧ spotAfter s a.spot τ = a.spot ∧
      ∀ t x, τ = .drawTail t x → vacant x = false := by
    rcases hτ with rfl | ⟨u, hu, -⟩
    · exact ⟨⟨rfl, rfl, rfl⟩, rfl, nofun⟩
    · cases τ with
      | install | take | miss => exact ⟨⟨rfl, rfl, rfl⟩, rfl, nofun⟩
      | _ => cases hu
  obtain ⟨hcount, hspot, hdraw⟩ := hplain
  refine ⟨hok, ⟨hok.inv h.tickets, hcount.1.trans h.head, hcount.2.1.trans h.tail,
    hcount.2.2.trans h.closed, h.word, hok.all h.items hdraw, ?_, ?_⟩, ?_, ?_⟩
  · intro t ht
    rw [Trace.next, hspot] at ht
    exact h.spot t ht
  · intro c' hc
    have hfits : ((s.setCell c x).a c').Fits (a.tickets.apply i τ) a.spot c'
        (liveAfter (tokens.threadToken i) (s.a c') ((s.setCell c x).a c') (a.live c')) := by
      by_cases hcc : c' = c
      · subst hcc
        rw [hself]
        exact hx
      · rw [hother hcc, liveAfter_self]
        apply (h.cell c' hc).settled hok h.tickets _ hc
        intro t ht
        rw [hticket t ht]
        exact Ne.symm hcc
    rw [Trace.next, hspot]
    exact hfits
  · intro c' token htoken hne
    by_cases hcc : c' = c
    · subst hcc
      rw [hself]
      exact hmoves token htoken hne
    · rw [hother hcc, liveAfter_self]
      exact ⟨Or.inl rfl, fun _ h₁ h₂ => ⟨h₁, h₂⟩, fun _ _ => id,
        fun hv => ⟨hv, fun h₁ => ⟨h₁, rfl⟩⟩⟩
  · rintro t rfl
    have htc := hticket t rfl
    rw [htc, hself]
    exact hmissed t rfl htc

/-! ### The accesses to a cell -/

theorem Inv.cell_at (h : Inv (s, a)) (t : ℕ) :
  (s.a (t % R)).Fits a.tickets a.spot (t % R) (a.live (t % R))
  := h.cell _ (Nat.mod_lt _ R_pos)

theorem Inv.item (h : Inv (s, a)) {t y : ℕ} (ht : a.tickets.enq t = .full y) :
  vacant y = false
  := h.items t y (Or.inr ht)

/-- Replacing a token or null by another. -/
theorem Access.vacate {t v : ℕ} (h : Inv (s, a)) (hold : vacant (s.a (t % R)).value = true)
    (hv : vacant v = true) (hne : v ≠ (s.a (t % R)).value)
    (htoken : ∀ token, isToken token = true → token ≠ tokens.threadToken i → v ≠ token) :
  Access tokens i (s, a) (s.setValue (t % R) v) .other
  := by
  have hfits := h.cell_at t
  have hdead : ∀ token, liveAfter token (s.a (t % R)) ⟨(s.a (t % R)).safeAndEpoch, v⟩
      (a.live (t % R)) = false := fun _ => liveAfter_value hne
  have hok : a.tickets.Ok i .other := trivial
  apply Access.write h hok (Or.inl rfl)
  · rw [hdead]
    constructor
    case word => exact hfits.word
    case item =>
      intro hitem
      cases hv.symm.trans hitem
    case full =>
      intro u y hu hy htook
      obtain ⟨-, hval⟩ := hfits.full u y hu hy htook
      rw [hval, h.item hy] at hold
      cases hold
    case missed =>
      intro u hu hmissed
      exact (hfits.missed u hu hmissed).imp id (Or.imp (fun hand => ⟨hand.1, rfl⟩) id)
    case live => exact nofun
    case spot => exact hfits.spot
  · exact fun token ht hne => .value (htoken token ht hne) (Or.inl hv)
  · exact nofun

/-- The dequeuer takes the item that was installed with its ticket. -/
theorem Access.take {t v : ℕ} (h : Inv (s, a)) (hheld : a.tickets.deq t = .held i)
    (hfull : a.tickets.enq t = .full v) :
  Access tokens i (s, a) (s.setValue (t % R) NULL_VALUE) (.take t v)
  := by
  have hfits := h.cell_at t
  have hnot : a.tickets.deq t ≠ .took := by
    rw [hheld]
    exact nofun
  obtain ⟨hepoch, hval⟩ := hfits.full t v rfl hfull hnot
  have hne : NULL_VALUE ≠ (s.a (t % R)).value := by
    rw [hval]
    rintro rfl
    cases vacant_null.symm.trans (h.item hfull)
  have hdead : ∀ token, liveAfter token (s.a (t % R)) ⟨(s.a (t % R)).safeAndEpoch, NULL_VALUE⟩
      (a.live (t % R)) = false := fun _ => liveAfter_value hne
  have hok : a.tickets.Ok i (.take t v) := ⟨hheld, hfull⟩
  apply Access.write h hok (Or.inr ⟨t, rfl, rfl⟩)
  · rw [hdead]
    constructor
    case word => exact hfits.word
    case item => exact nofun
    case full =>
      intro u y hu hy htook
      by_cases hut : u = t
      · subst hut
        exact absurd (Function.update_self ..) htook
      · have hdeq : a.tickets.deq u ≠ .took :=
          fun heq => htook ((Function.update_of_ne hut ..).trans heq)
        obtain ⟨hepoch', -⟩ := hfits.full u y hu hy hdeq
        have hsame : u = t := by
          rw [← ticket_eq hu (hepoch'.symm.trans hepoch), ticket_eq rfl rfl]
        exact absurd hsame hut
    case missed =>
      intro u hu hmissed
      have hut : u ≠ t := by
        rintro rfl
        cases (Function.update_self ..).symm.trans hmissed
      have hold := hfits.missed u hu ((Function.update_of_ne hut ..).symm.trans hmissed)
      exact hold.imp id (Or.imp (fun hand => ⟨hand.1, rfl⟩) id)
    case live => exact nofun
    case spot => exact hfits.spot
  · intro token htoken _
    apply Cell.Moves.value _ (Or.inl vacant_null)
    rintro rfl
    cases htoken
  · exact nofun

/-- The enqueuer installs its item in a cell that is live. -/
theorem Access.install {t v : ℕ} (h : Inv (s, a)) (hheld : a.tickets.enq t = .held i v)
    (hlt : t / R < 2 ^ 63) (hval : (s.a (t % R)).value = tokens.threadToken i)
    (hlive : a.live (t % R) = true)
    (hw : (s.a (t % R)).safeAndEpoch = encodeCellSafeEpoch true (t / R)) :
  Access tokens i (s, a) (s.setValue (t % R) v) (.install t v)
  := by
  have hfits := h.cell_at t
  have hv : vacant v = false := h.items t v (Or.inl ⟨i, hheld⟩)
  have hepoch : decodeCellEpoch (s.a (t % R)).safeAndEpoch = t / R := by
    rw [hw, epoch_encode hlt]
  have hsafe : decodeCellSafe (s.a (t % R)).safeAndEpoch = true := by rw [hw, safe_encode]
  have hvacant : vacant (s.a (t % R)).value = true := by
    rw [hval]
    exact vacant_of_isToken (tokens.token i)
  have hne : v ≠ (s.a (t % R)).value := by
    rintro rfl
    cases hv.symm.trans hvacant
  have hdead : ∀ token, liveAfter token (s.a (t % R)) ⟨(s.a (t % R)).safeAndEpoch, v⟩
      (a.live (t % R)) = false := fun _ => liveAfter_value hne
  have htook : a.tickets.deq t ≠ .took := by
    intro htook
    obtain ⟨y, hy⟩ := h.tickets.took t htook
    cases hheld.symm.trans hy
  -- a cell that is live has only been left by tickets of earlier epochs
  have hbelow : ∀ u, u % R = t % R → a.tickets.deq u = .missed → u / R < t / R := by
    intro u hu hmissed
    rcases hfits.missed u hu hmissed with hlt | ⟨-, hdead⟩ | ⟨hun, -⟩
    · rw [← hepoch]
      exact hlt
    · cases hlive.symm.trans hdead
    · cases hsafe.symm.trans hun
  have hmissed : a.tickets.deq t ≠ .missed := fun hm => lt_irrefl _ (hbelow t rfl hm)
  have hok : a.tickets.Ok i (.install t v) := ⟨hheld, htook, hmissed⟩
  apply Access.write h hok (Or.inr ⟨t, rfl, rfl⟩)
  · rw [hdead]
    constructor
    case word => exact hfits.word
    case item =>
      intro _
      rw [hepoch, ticket_eq rfl rfl]
      exact ⟨Function.update_self .., htook⟩
    case full =>
      intro u y hu hy hdeq
      by_cases hut : u = t
      · subst hut
        cases (Function.update_self ..).symm.trans hy
        exact ⟨hepoch, rfl⟩
      · have hfull : a.tickets.enq u = .full y := (Function.update_of_ne hut ..).symm.trans hy
        obtain ⟨-, hval'⟩ := hfits.full u y hu hfull hdeq
        rw [hval', h.item hfull] at hvacant
        cases hvacant
    case missed =>
      intro u hu hm
      left
      rw [hepoch]
      exact hbelow u hu hm
    case live => exact nofun
    case spot => exact hfits.spot
  · intro token htoken _
    apply Cell.Moves.value _ (Or.inr ⟨hlive, hsafe⟩)
    rintro rfl
    cases hv.symm.trans (vacant_of_isToken htoken)
  · exact nofun

/-- The enqueuer claims a quiet cell for the cycle of its ticket. -/
theorem Access.claim {t w : ℕ} (h : Inv (s, a)) (hlt : t / R < 2 ^ 63)
    (hw : (s.a (t % R)).safeAndEpoch = w) (hepoch : decodeCellEpoch w < t / R)
    (hquiet : Quiet (s, a) (t % R) w) (hun : Unmissed (s, a) t w) :
  Access tokens i (s, a) (s.setWord (t % R) (encodeCellSafeEpoch true (t / R))) .other
  := by
  have hfits := h.cell_at t
  obtain ⟨hlive, hvacant⟩ := hquiet hw
  have hnew : decodeCellEpoch (encodeCellSafeEpoch true (t / R)) = t / R := epoch_encode hlt
  have hrank : rank w < rank (encodeCellSafeEpoch true (t / R)) := by
    apply rank_lt_of_epoch
    rw [hnew]
    exact hepoch
  have hok : a.tickets.Ok i .other := trivial
  apply Access.write h hok (Or.inl rfl)
  · rw [hlive]
    constructor
    case word => exact encode_lt ..
    case item =>
      intro hitem
      cases hvacant.symm.trans hitem
    case full =>
      intro u y hu hy htook
      obtain ⟨-, hval⟩ := hfits.full u y hu hy htook
      rw [hval, h.item hy] at hvacant
      cases hvacant
    case missed =>
      intro u hu hmissed
      left
      rw [hnew]
      -- a ticket that missed under an unsafe word is below `t`
      have hlow : t ≤ u → decodeCellSafe w = true := by
        intro htu
        by_contra hsafe
        rw [Bool.not_eq_true] at hsafe
        exact (hun hsafe hw u htu hu).1 hmissed
      have hdiv : ¬ t ≤ u → u / R < t / R := by
        intro htu
        have hle : u / R ≤ t / R := Nat.div_le_div_right (le_of_lt (Nat.lt_of_not_le htu))
        apply lt_of_le_of_ne hle
        intro heq
        apply htu
        exact le_of_eq ((ticket_eq rfl rfl).symm.trans (ticket_eq hu heq))
      by_cases htu : t ≤ u
      · have hle : t / R ≤ u / R := Nat.div_le_div_right htu
        have hm := hfits.missed u hu hmissed
        rw [hw] at hm
        rcases hm with hlt | ⟨heq, -⟩ | ⟨hsafe, -⟩
        · omega
        · omega
        · cases (hlow htu).symm.trans hsafe
      · exact hdiv htu
    case live =>
      intro hnow
      have htoken : (s.a (t % R)).value = tokens.threadToken i := by
        by_contra hne
        have hdead : liveAfter (tokens.threadToken i) (s.a (t % R))
            ⟨encodeCellSafeEpoch true (t / R), (s.a (t % R)).value⟩ false = false :=
          liveAfter_tidy hne
        cases hdead.symm.trans hnow
      refine ⟨?_, safe_encode .., fun u hu hspot => ?_⟩
      · exact (congrArg isToken htoken).trans (tokens.token i)
      · have hle := hfits.spot u _ hu hspot
        rw [hw] at hle
        exact absurd hrank (Nat.not_lt.mpr hle)
    case spot =>
      intro u v hu hspot
      have hle := hfits.spot u v hu hspot
      rw [hw] at hle
      exact hle.trans (le_of_lt hrank)
  · intro token _ _
    rw [hlive]
    apply Cell.Moves.setWord
    rw [hw]
    exact Or.inr hrank
  · exact nofun

/-- Leaving a cell without an item. The word `w` that remains there is beyond the ticket, or is
at its epoch in a cell that is not live, or is unsafe. -/
theorem Access.miss {t w : ℕ} (h : Inv (s, a)) (hheld : a.tickets.deq t = .held i)
    (hlt : w < 2 ^ 64)
    (hdead : w = (s.a (t % R)).safeAndEpoch ∨
      a.live (t % R) = false ∧ (s.a (t % R)).value ≠ tokens.threadToken i)
    (hrank : w = (s.a (t % R)).safeAndEpoch ∨ rank (s.a (t % R)).safeAndEpoch < rank w)
    (hepoch : decodeCellEpoch (s.a (t % R)).safeAndEpoch ≤ decodeCellEpoch w)
    (hsafe : decodeCellSafe w = decodeCellSafe (s.a (t % R)).safeAndEpoch ∨
      decodeCellSafe w = false)
    (hitem : vacant (s.a (t % R)).value = false →
      decodeCellEpoch w = decodeCellEpoch (s.a (t % R)).safeAndEpoch)
    (hnot : vacant (s.a (t % R)).value = true ∨
      decodeCellEpoch (s.a (t % R)).safeAndEpoch ≠ t / R)
    (hself : t / R < decodeCellEpoch w ∨ decodeCellEpoch w = t / R ∧ a.live (t % R) = false ∨
      decodeCellSafe w = false ∧ decodeCellEpoch w < t / R)
    (hmissed : w ≠ (s.a (t % R)).safeAndEpoch ∨
      t / R ≤ decodeCellEpoch (s.a (t % R)).safeAndEpoch ∨
      a.spot t = some (s.a (t % R)).safeAndEpoch) :
  Access tokens i (s, a) (s.setWord (t % R) w) (.miss t)
  := by
  have hfits := h.cell_at t
  have htook : a.tickets.deq t ≠ .took := by
    rw [hheld]
    exact nofun
  have hfull : ∀ y, a.tickets.enq t ≠ .full y := by
    intro y hy
    obtain ⟨heq, hval⟩ := hfits.full t y rfl hy htook
    rcases hnot with hvacant | hne
    · rw [hval, h.item hy] at hvacant
      cases hvacant
    · exact hne heq
  have hsame : w = (s.a (t % R)).safeAndEpoch →
      (⟨w, (s.a (t % R)).value⟩ : Cell) = s.a (t % R) := by
    intro hw
    rw [hw]
  -- the cell is live after the access only if nothing has changed
  have hafter : (w = (s.a (t % R)).safeAndEpoch ∧ liveAfter (tokens.threadToken i) (s.a (t % R))
      ⟨w, (s.a (t % R)).value⟩ (a.live (t % R)) = a.live (t % R)) ∨
      a.live (t % R) = false ∧ liveAfter (tokens.threadToken i) (s.a (t % R))
        ⟨w, (s.a (t % R)).value⟩ (a.live (t % R)) = false := by
    rcases hdead with hw | ⟨hlive, hval⟩
    · left
      use hw
      rw [hsame hw, liveAfter_self]
    · right
      use hlive
      rw [hlive]
      exact liveAfter_tidy hval
  have hkeep : a.live (t % R) = false → liveAfter (tokens.threadToken i) (s.a (t % R))
      ⟨w, (s.a (t % R)).value⟩ (a.live (t % R)) = false := by
    intro hlive
    rcases hafter with ⟨-, heq⟩ | ⟨-, heq⟩
    · exact heq.trans hlive
    · exact heq
  have hok : a.tickets.Ok i (.miss t) := ⟨hheld, hfull⟩
  apply Access.write h hok (Or.inr ⟨t, rfl, rfl⟩)
  · constructor
    case word => exact hlt
    case item =>
      intro hv
      obtain ⟨henq, hdeq⟩ := hfits.item hv
      rw [← hitem hv] at henq hdeq
      use henq
      exact fun heq => hdeq (Tickets.update_inv heq nofun)
    case full =>
      intro u y hu hy hdeq
      have hdeq' : a.tickets.deq u ≠ .took := fun heq => hdeq (Tickets.update_ne heq htook)
      obtain ⟨heq, hval⟩ := hfits.full u y hu hy hdeq'
      have hv : vacant (s.a (t % R)).value = false := by
        rw [hval]
        exact h.item hy
      exact ⟨(hitem hv).trans heq, hval⟩
    case missed =>
      intro u hu hm
      by_cases hut : u = t
      · subst hut
        exact hself.imp id (Or.imp (fun hand => ⟨hand.1, hkeep hand.2⟩) id)
      · have hold := hfits.missed u hu ((Function.update_of_ne hut ..).symm.trans hm)
        rcases hold with hlt | ⟨heq, hlive⟩ | ⟨hun, -⟩
        · exact Or.inl (lt_of_lt_of_le hlt hepoch)
        · rcases Nat.lt_or_eq_of_le hepoch with hlt | heq'
          · left
            rw [← heq]
            exact hlt
          · exact Or.inr (Or.inl ⟨heq'.symm.trans heq, hkeep hlive⟩)
        · have hun' : decodeCellSafe w = false := by
            rcases hsafe with hs | hs
            · exact hs.trans hun
            · exact hs
          rcases lt_trichotomy (decodeCellEpoch w) (u / R) with hlt | heq | hlt
          · exact Or.inr (Or.inr ⟨hun', hlt⟩)
          · right
            left
            use heq
            apply hkeep
            by_contra hlive
            rw [Bool.not_eq_false] at hlive
            cases hun.symm.trans (hfits.live hlive).2.1
          · exact Or.inl hlt
    case live =>
      intro hlive
      rcases hafter with ⟨hw, heq⟩ | ⟨-, heq⟩
      · have hfits' := hfits.live (heq.symm.trans hlive)
        rw [← hw] at hfits'
        exact hfits'
      · cases heq.symm.trans hlive
    case spot =>
      intro u v hu hv
      have hle := hfits.spot u v hu hv
      rcases hrank with heq | hlt
      · rw [heq]
        exact hle
      · exact hle.trans (le_of_lt hlt)
  · intro token _ _
    rcases hdead with hw | ⟨hlive, -⟩
    · rw [hsame hw, liveAfter_self]
      exact ⟨Or.inl rfl, fun _ h₁ h₂ => ⟨h₁, h₂⟩, fun _ _ => id,
        fun hv => ⟨hv, fun h₁ => ⟨h₁, rfl⟩⟩⟩
    · rw [hlive]
      exact Cell.Moves.setWord hrank
  · intro u hu _
    cases hu
    exact hmissed

/-- A dequeuer that finds the cell beyond its ticket. -/
theorem Access.leave {t : ℕ} (h : Inv (s, a)) (hheld : a.tickets.deq t = .held i)
    (hlt : t / R < decodeCellEpoch (s.a (t % R)).safeAndEpoch) :
  Access tokens i (s, a) s (.miss t)
  := by
  have hsame : s.setWord (t % R) (s.a (t % R)).safeAndEpoch = s := by
    rw [Shared.setWord, Shared.setCell, Function.update_eq_self]
  have hmiss : Access tokens i (s, a) (s.setWord (t % R) (s.a (t % R)).safeAndEpoch)
      (.miss t) := by
    apply Access.miss h hheld (h.cell_at t).word
    · exact Or.inl rfl
    · exact Or.inl rfl
    · exact le_rfl
    · exact Or.inl rfl
    · exact fun _ => rfl
    · exact Or.inr (ne_of_gt hlt)
    · exact Or.inl hlt
    · exact Or.inr (Or.inl (le_of_lt hlt))
  rwa [hsame] at hmiss

/-- A dequeuer that moves a quiet cell to the epoch of its ticket. -/
theorem Access.advance {t w : ℕ} (h : Inv (s, a)) (hheld : a.tickets.deq t = .held i)
    (htidy : Tidy (tokens.threadToken i) s none) (hlt : t / R < 2 ^ 63)
    (hw : (s.a (t % R)).safeAndEpoch = w) (hepoch : decodeCellEpoch w ≤ t / R)
    (hquiet : Quiet (s, a) (t % R) w) :
  Access tokens i (s, a)
    (s.setWord (t % R) (encodeCellSafeEpoch (decodeCellSafe w) (t / R))) (.miss t)
  := by
  obtain ⟨hlive, hvacant⟩ := hquiet hw
  have hnew : decodeCellEpoch (encodeCellSafeEpoch (decodeCellSafe w) (t / R)) = t / R :=
    epoch_encode hlt
  have hword := (h.cell_at t).word
  apply Access.miss h hheld (encode_lt ..)
  · exact Or.inr ⟨hlive, htidy.ne _⟩
  · rw [hw]
    rcases Nat.lt_or_eq_of_le hepoch with hlt | heq
    · right
      apply rank_lt_of_epoch
      rw [hnew]
      exact hlt
    · left
      rw [← heq]
      rw [hw] at hword
      exact encode_decode hword
  · rw [hw, hnew]
    exact hepoch
  · rw [hw]
    exact Or.inl (safe_encode ..)
  · intro hv
    cases hvacant.symm.trans hv
  · exact Or.inl hvacant
  · exact Or.inr (Or.inl ⟨hnew, hlive⟩)
  · rw [hw]
    rcases Nat.lt_or_eq_of_le hepoch with hlt | heq
    · left
      intro hsame
      have hcontra := congrArg decodeCellEpoch hsame
      rw [hnew] at hcontra
      exact ne_of_gt hlt hcontra
    · exact Or.inr (Or.inl (le_of_eq heq.symm))

/-- A dequeuer that marks a cell in which it has seen an item of an earlier epoch. -/
theorem Access.mark {t w : ℕ} (h : Inv (s, a)) (hheld : a.tickets.deq t = .held i)
    (htidy : Tidy (tokens.threadToken i) s none)
    (hw : (s.a (t % R)).safeAndEpoch = w) (hepoch : decodeCellEpoch w < t / R)
    (hspot : a.spot t = some w) :
  Access tokens i (s, a)
    (s.setWord (t % R) (encodeCellSafeEpoch false (decodeCellEpoch w))) (.miss t)
  := by
  have hfits := h.cell_at t
  have hlive : a.live (t % R) = false := by
    by_contra hlive
    rw [Bool.not_eq_false] at hlive
    have hnot := (hfits.live hlive).2.2 t rfl
    rw [hw] at hnot
    exact hnot hspot
  have hnew : decodeCellEpoch (encodeCellSafeEpoch false (decodeCellEpoch w)) = decodeCellEpoch w :=
    epoch_encode (epoch_lt w)
  have hword := hfits.word
  apply Access.miss h hheld (encode_lt ..)
  · exact Or.inr ⟨hlive, htidy.ne _⟩
  · rw [hw] at hword ⊢
    cases hsafe : decodeCellSafe w with
    | false =>
        left
        rw [← hsafe]
        exact encode_decode hword
    | true =>
        right
        rw [rank, rank, hnew, hsafe, safe_encode]
        exact Nat.lt_succ_self _
  · rw [hw, hnew]
  · exact Or.inr (safe_encode ..)
  · intro _
    rw [hw, hnew]
  · rw [hw]
    exact Or.inr (ne_of_lt hepoch)
  · right
    right
    rw [hnew]
    exact ⟨safe_encode .., hepoch⟩
  · rw [hw]
    exact Or.inr (Or.inr hspot)

/-- A dequeuer that reads the value of its cell. -/
theorem Access.look {t : ℕ} (h : Inv (s, a)) (hheld : a.tickets.deq t = .held i) :
  Access tokens i (s, a) s (.look t)
  := by
  have hlive : ∀ c, liveAfter (tokens.threadToken i) (s.a c) (s.a c) (a.live c) = a.live c :=
    fun c => liveAfter_self ..
  have hdrawn : t < s.head := by
    rw [← show a.tickets.head = s.head from h.head]
    apply Nat.lt_of_not_le
    intro hle
    cases hheld.symm.trans (h.tickets.deq t hle)
  have hother : ∀ {u}, u ≠ t → spotAfter s a.spot (.look t) u = a.spot u :=
    fun hut => Function.update_of_ne hut ..
  have hself : ∀ w, spotAfter s a.spot (.look t) t = some w →
      vacant (s.a (t % R)).value = false ∧ (s.a (t % R)).safeAndEpoch = w := by
    intro w hw
    rw [spotAfter, Function.update_self] at hw
    split at hw
    case isTrue => cases hw
    case isFalse hv =>
      rw [Bool.not_eq_true] at hv
      exact ⟨hv, Option.some.inj hw⟩
  refine ⟨hheld, ⟨h.tickets, h.head, h.tail, h.closed, h.word, h.items, ?_, ?_⟩, ?_, nofun⟩
  · intro u hu
    by_cases hut : u = t
    · rw [hut]
      exact hdrawn
    · apply h.spot u
      rw [← hother hut]
      exact hu
  · intro c hc
    have hfits := h.cell c hc
    have hnew : (s.a c).Fits a.tickets (spotAfter s a.spot (.look t)) c
        (liveAfter (tokens.threadToken i) (s.a c) (s.a c) (a.live c)) := by
      rw [hlive]
      refine ⟨hfits.word, hfits.item, hfits.full, hfits.missed, fun hl => ?_, fun u w hu hw => ?_⟩
      · obtain ⟨htoken, hsafe, hspot⟩ := hfits.live hl
        refine ⟨htoken, hsafe, fun u hu hw => ?_⟩
        by_cases hut : u = t
        · subst hut
          obtain ⟨hv, -⟩ := hself _ hw
          rw [hu] at hv
          cases hv.symm.trans (vacant_of_isToken htoken)
        · exact hspot u hu ((hother hut).symm.trans hw)
      · by_cases hut : u = t
        · subst hut
          obtain ⟨-, heq⟩ := hself _ hw
          rw [hu] at heq
          rw [heq]
        · exact hfits.spot u w hu ((hother hut).symm.trans hw)
    exact hnew
  · intro c token _ _
    rw [hlive]
    exact ⟨Or.inl rfl, fun _ h₁ h₂ => ⟨h₁, h₂⟩, fun _ _ => id, fun hv => ⟨hv, fun h₁ => ⟨h₁, rfl⟩⟩⟩

/-! ### The accesses to the counters -/

theorem fetchAdd_tail (hw : s.tail < 2 ^ 64) (hlegal : Legal s) :
  fetchAdd s.tail < 2 ^ 64 ∧ decodeTailT (fetchAdd s.tail) = decodeTailT s.tail + 1 ∧
    decodeTailClosed (fetchAdd s.tail) = decodeTailClosed s.tail
  := by
  apply TopBit.succ_mod hw
  have h : TopBit.body s.tail < 2 ^ 63 - 1 := hlegal.2
  omega

theorem fetchAdd_head (hlegal : Legal s) :
  fetchAdd s.head = s.head + 1
  := by
  have h := hlegal.1
  have hR : R < 2 ^ 62 := by decide
  apply Nat.mod_eq_of_lt
  omega

theorem Access.drawTail {item : ℕ} (h : Inv (s, a)) (hlegal : Legal s)
    (hitem : vacant item = false) (hopen : decodeTailClosed s.tail = false) :
  Access tokens i (s, a) { s with tail := fetchAdd s.tail } (.drawTail (decodeTailT s.tail) item)
  := by
  obtain ⟨hlt, htail, hclosed⟩ := fetchAdd_tail h.word hlegal
  have hok : a.tickets.Ok i (.drawTail (decodeTailT s.tail) item) :=
    ⟨h.closed.trans hopen, h.tail.symm⟩
  apply Access.counters h hok rfl rfl
  · rfl
  · exact h.head
  · exact (congrArg (· + 1) h.tail).trans htail.symm
  · exact h.closed.trans hclosed.symm
  · exact hlt
  · intro t x heq
    cases heq
    exact hitem

theorem Access.drawClosed (h : Inv (s, a)) (hlegal : Legal s)
    (hclosed : decodeTailClosed s.tail = true) :
  Access tokens i (s, a) { s with tail := fetchAdd s.tail } .drawClosed
  := by
  obtain ⟨hlt, htail, hclosed'⟩ := fetchAdd_tail h.word hlegal
  have hok : a.tickets.Ok i .drawClosed := h.closed.trans hclosed
  apply Access.counters h hok rfl rfl
  · rfl
  · exact h.head
  · exact (congrArg (· + 1) h.tail).trans htail.symm
  · exact h.closed.trans hclosed'.symm
  · exact hlt
  · exact nofun

theorem Access.close (h : Inv (s, a)) :
  Access tokens i (s, a) { s with tail := s.tail ||| CLOSED_BIT } .close
  := by
  obtain ⟨hlt, htail, hclosed⟩ := TopBit.or_bit h.word
  have hok : a.tickets.Ok i .close := trivial
  apply Access.counters h hok rfl rfl
  · rfl
  · exact h.head
  · exact h.tail.trans htail.symm
  · exact hclosed.symm
  · exact hlt
  · exact nofun

theorem Access.drawHead (h : Inv (s, a)) (hlegal : Legal s) :
  Access tokens i (s, a) { s with head := fetchAdd s.head } (.drawHead s.head)
  := by
  have hok : a.tickets.Ok i (.drawHead s.head) := h.head.symm
  apply Access.counters h hok rfl rfl
  · rfl
  · exact (congrArg (· + 1) h.head).trans (fetchAdd_head hlegal).symm
  · exact h.tail
  · exact h.closed
  · exact h.word
  · exact nofun

/-! ### Tokens in cells -/

section tidy

variable {token c : ℕ} {x : Cell} {mine : Option ℕ}

theorem Tidy.place (h : Tidy token s mine) (hm : ∀ c', mine = some c' → c' = c) :
  Tidy token (s.setCell c x) (some c)
  := by
  intro c' hc
  by_cases hcc : c' = c
  · rw [hcc]
  · have hold : (s.setCell c x).a c' = s.a c' := Function.update_of_ne hcc ..
    rw [hold] at hc
    rw [hm c' (h c' hc)]

/-- The token is not in a cell whose value is replaced by another. -/
theorem Tidy.drop (h : Tidy token s mine) (hm : ∀ c', mine = some c' → c' = c)
    (hx : x.value ≠ token) :
  Tidy token (s.setCell c x) none
  := by
  intro c' hc
  by_cases hcc : c' = c
  · subst hcc
    rw [show (s.setCell c' x).a c' = x from Function.update_self ..] at hc
    exact absurd hc hx
  · have hold : (s.setCell c x).a c' = s.a c' := Function.update_of_ne hcc ..
    rw [hold] at hc
    exact absurd (hm c' (h c' hc)) hcc

theorem Tidy.gone (h : Tidy token s (some c)) (hx : (s.a c).value ≠ token) :
  Tidy token s none
  := by
  intro c' hc
  cases h c' hc
  exact absurd hc hx

theorem null_ne_token (h : isToken token = true) :
  NULL_VALUE ≠ token
  := by
  rintro rfl
  cases h

end tidy

/-! ### The steps of the two operations -/

/-- A drawn ticket is below the tail, and its epoch has room. -/
theorem Inv.held_lt {t x : ℕ} (h : Inv (s, a)) (hheld : a.tickets.enq t = .held i x) :
  t / R < 2 ^ 63
  := by
  have hlt : t < a.tickets.tail := by
    apply Nat.lt_of_not_le
    intro hle
    cases hheld.symm.trans (h.tickets.enq t hle)
  rw [h.tail] at hlt
  have hbody : decodeTailT s.tail < 2 ^ 63 := TopBit.body_lt _
  exact lt_of_le_of_lt (Nat.div_le_self t R) (hlt.trans hbody)

theorem Inv.deq_held_lt {t : ℕ} (h : Inv (s, a)) (hlegal : Legal s)
    (hheld : a.tickets.deq t = .held i) :
  t / R < 2 ^ 63
  := by
  have hlt : t < a.tickets.head := by
    apply Nat.lt_of_not_le
    intro hle
    cases hheld.symm.trans (h.tickets.deq t hle)
  rw [show a.tickets.head = s.head from h.head] at hlt
  have hhead := hlegal.1
  have hR : R < 2 ^ 62 := by decide
  have hdiv := Nat.div_le_self t R
  omega

/-- Each access of `enqueue` does to the tickets what its tag says. -/
theorem enqueue_spec {pc pc' : Enqueue} (h : Inv (s, a))
    (hold : a.tickets.Holding i pc.ticket none) (htidy : Tidy (tokens.threadToken i) s pc.mine)
    (hpc : pc.Knows (tokens.threadToken i) (s, a)) (hlegal : Legal s)
    (hs : enqueue (tokens.threadToken i) s pc = some (s', pc', τ)) :
  Access tokens i (s, a) s' τ ∧ Tickets.Draws pc.ticket none τ ∧
    pc'.ticket = τ.enqAfter pc.ticket ∧ τ.deqAfter none = none ∧
    Tidy (tokens.threadToken i) s' pc'.mine ∧
    pc'.Knows (tokens.threadToken i) (s', a.next (tokens.threadToken i) i s s' τ)
  := by
  cases pc with
  | drawTail item it =>
      simp only [enqueue] at hs
      split at hs
      case isTrue hclosed =>
        cases hs
        exact ⟨.drawClosed h hlegal hclosed, trivial, rfl, rfl, htidy, h.closed.trans hclosed⟩
      case isFalse hopen =>
        cases hs
        rw [Bool.not_eq_true] at hopen
        exact ⟨.drawTail h hlegal hpc hopen, ⟨rfl, rfl⟩, rfl, rfl, htidy, trivial⟩
  | readWord item it t =>
      cases hs
      exact ⟨.silent h, trivial, rfl, rfl, htidy, le_rfl⟩
  | readValue item it t w =>
      simp only [enqueue] at hs
      split at hs
      case isTrue hand =>
        obtain ⟨hv, hepoch⟩ := hand
        split at hs
        case isTrue hsafe =>
          cases hs
          refine ⟨.silent h, trivial, rfl, rfl, htidy, hpc, hv, hepoch, fun hun => ?_,
            fun hun => ?_⟩
          · cases hsafe.symm.trans hun
          · cases hsafe.symm.trans hun
        case isFalse =>
          cases hs
          exact ⟨.silent h, trivial, rfl, rfl, htidy, hpc, hv, hepoch, fun _ _ => hv⟩
      case isFalse =>
        cases hs
        exact ⟨.silent h, trivial, rfl, rfl, htidy, trivial⟩
  | readHead item it t w v =>
      obtain ⟨hread, hv, hepoch, hvoid⟩ := hpc
      simp only [enqueue] at hs
      split at hs
      case isTrue hle =>
        cases hs
        refine ⟨.silent h, trivial, rfl, rfl, htidy, hread, hv, hepoch, hvoid,
          fun _ _ u htu _ => ⟨?_, fun hspot => ?_⟩⟩
        -- no ticket from the head on has been drawn
        · have hfree : a.tickets.deq u = .free := by
            apply h.tickets.deq
            rw [show a.tickets.head = s.head from h.head]
            exact hle.trans htu
          rw [Trace.next, Tickets.apply, hfree]
          rintro ⟨⟩
        · have hlt : u < s.head := by
            apply h.spot u
            intro hnone
            cases hnone.symm.trans hspot
          exact absurd (hle.trans htu) (Nat.not_le.mpr hlt)
      case isFalse =>
        cases hs
        exact ⟨.silent h, trivial, rfl, rfl, htidy, trivial⟩
  | placeToken item it t w v =>
      obtain ⟨hread, hv, hepoch, hvoid, hun⟩ := hpc
      simp only [enqueue] at hs
      split at hs
      case isTrue hval =>
        cases hs
        have hself : (s.setValue (t % R) (tokens.threadToken i)).a (t % R)
            = ⟨(s.a (t % R)).safeAndEpoch, tokens.threadToken i⟩ := Function.update_self ..
        have hvac : vacant (tokens.threadToken i) = true := vacant_of_isToken (tokens.token i)
        have hne : tokens.threadToken i ≠ (s.a (t % R)).value := Ne.symm (htidy.ne _)
        have hacc : Access tokens i (s, a) (s.setValue (t % R) (tokens.threadToken i)) .other := by
          apply Access.vacate h _ hvac hne
          · exact fun token _ hne => Ne.symm hne
          · rw [hval]
            exact hv
        have hdead : liveAfter (tokens.threadToken i) (s.a (t % R))
            ((s.setValue (t % R) (tokens.threadToken i)).a (t % R)) (a.live (t % R)) = false := by
          rw [hself]
          exact liveAfter_value hne
        refine ⟨hacc, trivial, rfl, rfl, htidy.place (by rintro _ ⟨⟩), ?_, hepoch,
          fun _ => ⟨hdead, ?_⟩, ?_⟩
        · rw [Read, hself]
          exact hread
        · rw [hself]
          exact hvac
        · intro hsafe hw u htu hu
          rw [hself] at hw
          exact hun hsafe hw u htu hu
      case isFalse =>
        cases hs
        exact ⟨.silent h, trivial, rfl, rfl, htidy, trivial⟩
  | casWord item it t w =>
      have hheld : a.tickets.enq t = .held i item := (hold.enq t item).mpr rfl
      have hlt := h.held_lt hheld
      obtain ⟨hread, hepoch, hquiet, hun⟩ := hpc
      simp only [enqueue] at hs
      split at hs
      case isTrue hw =>
        cases hs
        have hself : (s.setWord (t % R) (encodeCellSafeEpoch true (t / R))).a (t % R)
            = ⟨encodeCellSafeEpoch true (t / R), (s.a (t % R)).value⟩ := Function.update_self ..
        have hmine : ∀ c', some (t % R) = some c' → c' = t % R :=
          fun c' hc => (Option.some.inj hc).symm
        refine ⟨.claim h hlt hw hepoch hquiet hun, trivial, rfl, rfl, htidy.place hmine,
          fun hval => ⟨?_, congrArg Cell.safeAndEpoch hself⟩⟩
        rw [hself] at hval
        have hchanged : (⟨encodeCellSafeEpoch true (t / R), (s.a (t % R)).value⟩ : Cell)
            ≠ s.a (t % R) := by
          intro heq
          have hword := congrArg (fun x => decodeCellEpoch x.safeAndEpoch) heq
          simp only [hw, epoch_encode hlt] at hword
          exact ne_of_gt hepoch hword
        have hlive : liveAfter (tokens.threadToken i) (s.a (t % R))
            ((s.setWord (t % R) (encodeCellSafeEpoch true (t / R))).a (t % R))
            (a.live (t % R)) = true := by
          rw [hself, liveAfter, if_neg hchanged]
          exact decide_eq_true ⟨rfl, hval⟩
        exact hlive
      case isFalse =>
        cases hs
        exact ⟨.silent h, trivial, rfl, rfl, htidy, trivial⟩
  | clearToken item it t =>
      have hmine : ∀ c', some (t % R) = some c' → c' = t % R :=
        fun c' hc => (Option.some.inj hc).symm
      simp only [enqueue] at hs
      split at hs
      case isTrue hval =>
        cases hs
        have hacc : Access tokens i (s, a) (s.setValue (t % R) NULL_VALUE) .other := by
          apply Access.vacate h _ vacant_null
          · rw [hval]
            exact null_ne_token (tokens.token i)
          · exact fun token ht _ => null_ne_token ht
          · rw [hval]
            exact vacant_of_isToken (tokens.token i)
        exact ⟨hacc, trivial, rfl, rfl, htidy.drop hmine (null_ne_token (tokens.token i)), trivial⟩
      case isFalse hval =>
        cases hs
        exact ⟨.silent h, trivial, rfl, rfl, htidy.gone hval, trivial⟩
  | install item it t =>
      have hheld : a.tickets.enq t = .held i item := (hold.enq t item).mpr rfl
      have hmine : ∀ c', some (t % R) = some c' → c' = t % R :=
        fun c' hc => (Option.some.inj hc).symm
      simp only [enqueue] at hs
      split at hs
      case isTrue hval =>
        cases hs
        obtain ⟨hlive, hw⟩ := hpc hval
        have hitem : item ≠ tokens.threadToken i := by
          intro heq
          have hv : vacant item = false := h.items t item (Or.inl ⟨i, hheld⟩)
          rw [heq] at hv
          cases hv.symm.trans (vacant_of_isToken (tokens.token i))
        exact ⟨.install h hheld (h.held_lt hheld) hval hlive hw, trivial, rfl, rfl,
          htidy.drop hmine hitem, trivial⟩
      case isFalse hval =>
        cases hs
        exact ⟨.silent h, trivial, rfl, rfl, htidy.gone hval, trivial⟩
  | checkOverflow item it t =>
      have hheld : a.tickets.enq t = .held i item := (hold.enq t item).mpr rfl
      have hgive : Access tokens i (s, a) s (.giveUp t) :=
        .stay h ⟨item, hheld⟩ rfl rfl ⟨rfl, rfl, rfl⟩ (by rintro _ _ ⟨⟩)
      simp only [enqueue] at hs
      split at hs
      · cases hs
        exact ⟨hgive, trivial, rfl, rfl, htidy, trivial⟩
      · cases hs
        exact ⟨hgive, trivial, rfl, rfl, htidy, h.items t item (Or.inl ⟨i, hheld⟩)⟩
  | close =>
      cases hs
      exact ⟨.close h, trivial, rfl, rfl, htidy, rfl⟩
  | ok => cases hs
  | closed => cases hs

/-- Each access of `dequeue` does to the tickets what its tag says. -/
theorem dequeue_spec {pc pc' : Dequeue} (h : Inv (s, a)) (hold : a.tickets.Holding i none pc.ticket)
    (htidy : Tidy (tokens.threadToken i) s none) (hpc : pc.Knows (s, a)) (hlegal : Legal s)
    (hs : dequeue s pc = some (s', pc', τ)) :
  Access tokens i (s, a) s' τ ∧ Tickets.Draws none pc.ticket τ ∧
    τ.enqAfter (none : Option (ℕ × ℕ)) = none ∧ pc'.ticket = τ.deqAfter pc.ticket ∧
    Tidy (tokens.threadToken i) s' none ∧
    pc'.Knows (s', a.next (tokens.threadToken i) i s s' τ)
  := by
  cases pc with
  | drawHead =>
      cases hs
      exact ⟨.drawHead h hlegal, ⟨rfl, rfl⟩, rfl, rfl, htidy, trivial⟩
  | readWord t =>
      cases hs
      exact ⟨.silent h, trivial, rfl, rfl, htidy, le_rfl⟩
  | readValue t w =>
      cases hs
      have hheld : a.tickets.deq t = .held i := (hold.deq t).mpr rfl
      have hfits := h.cell_at t
      refine ⟨.look h hheld, trivial, rfl, rfl, htidy, hpc, fun hw hv => ⟨?_, ?_⟩, fun hv _ => ?_⟩
      · obtain ⟨hfull, -⟩ := hfits.item hv
        rw [show (s.a (t % R)).safeAndEpoch = w from hw] at hfull
        exact hfull
      · have hspot : spotAfter s a.spot (.look t) t = some w := by
          rw [spotAfter, Function.update_self, hv, show (s.a (t % R)).safeAndEpoch = w from hw]
          rfl
        exact hspot
      · have hlive : a.live (t % R) = false := by
          by_contra hlive
          rw [Bool.not_eq_false] at hlive
          have htoken := (hfits.live hlive).1
          rw [hv] at htoken
          cases htoken
        have hsame : liveAfter (tokens.threadToken i) (s.a (t % R)) (s.a (t % R))
            (a.live (t % R)) = false := by
          rw [liveAfter_self, hlive]
        use hsame
        rw [hv]
        exact vacant_null
  | checkWord t w v =>
      have hheld : a.tickets.deq t = .held i := (hold.deq t).mpr rfl
      obtain ⟨hread, hitem, hnull⟩ := hpc
      simp only [dequeue] at hs
      split at hs
      case isTrue =>
        cases hs
        exact ⟨.silent h, trivial, rfl, rfl, htidy, trivial⟩
      case isFalse hw =>
        rw [not_not] at hw
        split at hs
        case isTrue hand =>
          cases hs
          obtain ⟨hepoch, hv⟩ := hand
          obtain ⟨hfull, -⟩ := hitem hw.symm hv
          rw [hepoch, ticket_eq rfl rfl] at hfull
          exact ⟨.silent h, trivial, rfl, rfl, htidy, hfull⟩
        case isFalse htake =>
          split at hs
          case isTrue hand =>
            obtain ⟨hepoch, hv⟩ := hand
            split at hs
            case isTrue htoken =>
              cases hs
              exact ⟨.silent h, trivial, rfl, rfl, htidy, hread, htoken, hepoch⟩
            case isFalse htoken =>
              cases hs
              have hzero : v = NULL_VALUE := by
                rw [vacant, Bool.or_eq_true, decide_eq_true_eq] at hv
                exact hv.resolve_right htoken
              have hquiet : Quiet (s, a) (t % R) w := hnull hzero
              refine ⟨.silent h, trivial, rfl, rfl, htidy, hread, hepoch, fun hw' => ?_⟩
              obtain ⟨hlive, hvacant⟩ := hquiet hw'
              have hsame : liveAfter (tokens.threadToken i) (s.a (t % R)) (s.a (t % R))
                  (a.live (t % R)) = false := by
                rw [liveAfter_self]
                exact hlive
              exact ⟨hsame, hvacant⟩
          case isFalse hskip =>
            split at hs
            case isTrue hand =>
              cases hs
              obtain ⟨hepoch, hv⟩ := hand
              exact ⟨.silent h, trivial, rfl, rfl, htidy, hread, hepoch,
                fun hw' => (hitem hw' hv).2⟩
            case isFalse hmark =>
              cases hs
              -- the epoch is neither equal to the cycle nor below it
              have hlt : t / R < decodeCellEpoch w := by
                cases hv : vacant v with
                | true => exact Nat.lt_of_not_le fun hle => hskip ⟨hle, hv⟩
                | false =>
                    rcases lt_trichotomy (decodeCellEpoch w) (t / R) with hlt | heq | hlt
                    · exact absurd ⟨hlt, hv⟩ hmark
                    · exact absurd ⟨heq, hv⟩ htake
                    · exact hlt
              rw [hw] at hlt
              exact ⟨.leave h hheld hlt, trivial, rfl, rfl, htidy, Function.update_self ..⟩
  | take t v =>
      cases hs
      have hheld : a.tickets.deq t = .held i := (hold.deq t).mpr rfl
      have hv : v ≠ EMPTY := by
        rintro rfl
        cases vacant_null.symm.trans (h.item hpc)
      exact ⟨.take h hheld hpc, trivial, rfl, rfl,
        htidy.drop nofun (null_ne_token (tokens.token i)), hv⟩
  | killToken t w v =>
      obtain ⟨hread, htoken, hepoch⟩ := hpc
      simp only [dequeue] at hs
      split at hs
      case isTrue hval =>
        cases hs
        have hne : NULL_VALUE ≠ (s.a (t % R)).value := by
          rw [hval]
          exact null_ne_token htoken
        have hself : (s.setValue (t % R) NULL_VALUE).a (t % R)
            = ⟨(s.a (t % R)).safeAndEpoch, NULL_VALUE⟩ := Function.update_self ..
        have hacc : Access tokens i (s, a) (s.setValue (t % R) NULL_VALUE) .other := by
          apply Access.vacate h _ vacant_null hne
          · exact fun token ht _ => null_ne_token ht
          · rw [hval]
            exact vacant_of_isToken htoken
        have hdead : liveAfter (tokens.threadToken i) (s.a (t % R))
            ((s.setValue (t % R) NULL_VALUE).a (t % R)) (a.live (t % R)) = false := by
          rw [hself]
          exact liveAfter_value hne
        refine ⟨hacc, trivial, rfl, rfl, htidy.drop nofun (null_ne_token (tokens.token i)), ?_,
          hepoch, fun _ => ⟨hdead, ?_⟩⟩
        · rw [Read, hself]
          exact hread
        · rw [hself]
          exact vacant_null
      case isFalse =>
        cases hs
        exact ⟨.silent h, trivial, rfl, rfl, htidy, trivial⟩
  | advance t w =>
      have hheld : a.tickets.deq t = .held i := (hold.deq t).mpr rfl
      obtain ⟨-, hepoch, hquiet⟩ := hpc
      simp only [dequeue] at hs
      split at hs
      case isTrue hw =>
        cases hs
        have htidy' : Tidy (tokens.threadToken i) (s.setWord (t % R)
            (encodeCellSafeEpoch (decodeCellSafe w) (t / R))) none :=
          htidy.drop nofun (htidy.ne (t % R))
        exact ⟨.advance h hheld htidy (h.deq_held_lt hlegal hheld) hw hepoch hquiet, trivial, rfl,
          rfl, htidy', Function.update_self ..⟩
      case isFalse =>
        cases hs
        exact ⟨.silent h, trivial, rfl, rfl, htidy, trivial⟩
  | mark t w =>
      have hheld : a.tickets.deq t = .held i := (hold.deq t).mpr rfl
      obtain ⟨-, hepoch, hspot⟩ := hpc
      simp only [dequeue] at hs
      split at hs
      case isTrue hw =>
        cases hs
        have htidy' : Tidy (tokens.threadToken i) (s.setWord (t % R)
            (encodeCellSafeEpoch false (decodeCellEpoch w))) none :=
          htidy.drop nofun (htidy.ne (t % R))
        exact ⟨.mark h hheld htidy hw hepoch (hspot hw), trivial, rfl, rfl, htidy',
          Function.update_self ..⟩
      case isFalse =>
        cases hs
        exact ⟨.silent h, trivial, rfl, rfl, htidy, trivial⟩
  | readTail t =>
      simp only [dequeue] at hs
      split at hs
      case isTrue hle =>
        cases hs
        rw [← show a.tickets.tail = decodeTailT s.tail from h.tail] at hle
        exact ⟨.stay h ⟨hpc, hle.trans (Nat.mod_le ..)⟩ rfl rfl ⟨rfl, rfl, rfl⟩ nofun, trivial, rfl, rfl, htidy,
          trivial⟩
      case isFalse =>
        cases hs
        exact ⟨.silent h, trivial, rfl, rfl, htidy, trivial⟩
  | gave v => cases hs
  | empty => cases hs

/-! ### The outline -/

theorem init_inv :
  Inv ((init, ⟨.new R, fun _ => false, fun _ => none⟩) : State ι)
  := by
  have hR : R < 2 ^ 63 := by decide
  constructor
  case tickets => apply Tickets.new_inv
  case head => rfl
  case tail => exact ((TopBit.body_eq R).trans (Nat.mod_eq_of_lt hR)).symm
  case closed =>
    apply Eq.symm
    apply (TopBit.flag_eq (hR.trans (by decide))).trans
    exact decide_eq_false (Nat.not_le.mpr hR)
  case word => exact hR.trans (by decide)
  case items => apply Tickets.new_all
  case spot => exact fun t ht => absurd rfl ht
  case cell =>
    intro c _
    constructor
    case word => exact encode_lt ..
    case item => exact nofun
    case full =>
      intro t y _ h
      cases h
    case missed =>
      intro t _ h
      cases h
    case live => exact nofun
    case spot => exact nofun

variable (tokens) in
theorem outline :
  ((machine tokens).withGhost (ticketing tokens).ghost).Outline Inv (Knows tokens) (Sees tokens)
  := by
  constructor
  case init => exact init_inv
  case idle =>
    intro i
    refine ⟨Tickets.new_holding R i, fun c hc => ?_⟩
    exact absurd hc (null_ne_token (tokens.token i))
  case call =>
    intro i σ o _ hl hvalid
    cases o with
    | enqueue item => exact ⟨hl, hvalid⟩
    | dequeue => exact ⟨hl, trivial⟩
  case ret =>
    intro i σ l v _ hl hv
    cases l with
    | enqueue pc =>
        cases pc with
        | ok => exact hl.1
        | closed => exact hl.1
        | _ => cases hv
    | dequeue pc =>
        cases pc with
        | gave val => exact hl.1
        | empty => exact hl.1
        | _ => cases hv
  case step =>
    rintro i ch ⟨s, a⟩ l ⟨s', a'⟩ l' τ hinv hl hlegal - hs
    obtain ⟨hs, hnext⟩ := withGhost_step.mp hs
    obtain rfl : a' = a.next (tokens.threadToken i) i s s' τ := hnext
    cases l with
    | enqueue pc =>
        obtain ⟨⟨_, pc', _⟩, hs, heq⟩ := Option.map_eq_some_iff.mp hs
        cases heq
        obtain ⟨⟨hold, htidy⟩, hpc⟩ := hl
        obtain ⟨hacc, hdraw, henq, hdeq, htidy', hpc'⟩ :=
          enqueue_spec hinv hold htidy hpc hlegal.1 hs
        refine ⟨hacc.inv, ⟨⟨?_, htidy'⟩, hpc'⟩, fun j hj => hacc.sees hinv hj⟩
        have hold' := hold.step hacc.ok hdraw
        rwa [← henq, hdeq] at hold'
    | dequeue pc =>
        obtain ⟨⟨_, pc', _⟩, hs, heq⟩ := Option.map_eq_some_iff.mp hs
        cases heq
        obtain ⟨⟨hold, htidy⟩, hpc⟩ := hl
        obtain ⟨hacc, hdraw, henq, hdeq, htidy', hpc'⟩ :=
          dequeue_spec hinv hold htidy hpc hlegal.1 hs
        refine ⟨hacc.inv, ⟨⟨?_, htidy'⟩, hpc'⟩, fun j hj => hacc.sees hinv hj⟩
        have hold' := hold.step hacc.ok hdraw
        rwa [henq, ← hdeq] at hold'
  case stable => exact fun _ _ hsees hl => hl.keep hsees

/-- The cell of ticket `t` holds `x` with the epoch of `t`. -/
def Holds (s : Shared) (t x : ℕ) : Prop :=
  decodeCellEpoch (s.a (t % R)).safeAndEpoch = t / R ∧ (s.a (t % R)).value = x

/-- An access that ends a dequeue with an item is the one that takes it. -/
theorem value_of_step {l l' : Local} {v : ℕ}
    (hs : (machine tokens).step i () s l = some (s', l', τ))
    (hv : (machine tokens).result l' = some (.value v)) (hne : v ≠ EMPTY) :
  ∃ t, τ = .take t v
  := by
  cases l with
  | enqueue pc =>
      obtain ⟨⟨_, pc', _⟩, hs, heq⟩ := Option.map_eq_some_iff.mp hs
      cases heq
      cases pc' with
      | _ => cases hv
  | dequeue pc =>
      obtain ⟨⟨_, pc', _⟩, hs, heq⟩ := Option.map_eq_some_iff.mp hs
      cases heq
      cases pc' with
      | gave val =>
          cases hv
          cases pc with
          | take t val =>
              cases hs
              exact ⟨t, rfl⟩
          | _ =>
              simp only [dequeue] at hs
              grind
      | empty =>
          cases hv
          exact absurd rfl hne
      | _ => cases hv

variable (tokens) in
theorem sound :
  (ticketing tokens).Sound Inv (Knows tokens) (Sees tokens) Holds EMPTY
  := by
  constructor
  case outline => exact outline tokens
  case start => exact ⟨R, rfl⟩
  case knows =>
    intro i σ l hl
    cases l with
    | none => exact hl.1
    | some l =>
        cases l with
        | enqueue pc => exact hl.1.1
        | dequeue pc => exact hl.1.1
  case step =>
    rintro i ch ⟨s, a⟩ l s' l' τ hinv hl hlegal hs
    cases l with
    | enqueue pc =>
        obtain ⟨⟨_, pc', _⟩, hs, heq⟩ := Option.map_eq_some_iff.mp hs
        cases heq
        obtain ⟨⟨hold, htidy⟩, hpc⟩ := hl
        obtain ⟨hacc, hdraw, -⟩ := enqueue_spec hinv hold htidy hpc hlegal hs
        exact ⟨hacc.ok, hdraw, rfl⟩
    | dequeue pc =>
        obtain ⟨⟨_, pc', _⟩, hs, heq⟩ := Option.map_eq_some_iff.mp hs
        cases heq
        obtain ⟨⟨hold, htidy⟩, hpc⟩ := hl
        obtain ⟨hacc, hdraw, -⟩ := dequeue_spec hinv hold htidy hpc hlegal hs
        exact ⟨hacc.ok, hdraw, rfl⟩
  case holds =>
    intro σ t x hinv hx htook
    exact (hinv.cell_at t).full t x rfl hx htook
  case fresh =>
    intro o
    cases o with
    | enqueue arg => rfl
    | dequeue => rfl
  case value => exact fun hs hv hne => value_of_step hs hv hne

/-- PRQ is exact: each ticket is held by at most one attempt, an installed item stays in its
cell, with the epoch of its ticket, until the dequeuer with the same ticket takes it, no
item is returned twice, and none is installed where that dequeuer has left without one. -/
theorem prq_exact [DecidableEq ι] (tokens : Tokens ι) {n : ℕ} (r : (machine tokens).Run n) :
  r.Exact Holds EMPTY
  := (sound tokens).exact r

end PRQ
