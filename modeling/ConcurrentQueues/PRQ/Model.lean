import ConcurrentQueues.Library.Machine
import ConcurrentQueues.Library.Tickets
import ConcurrentQueues.Library.TopBit

/-!
# PRQ

The ring of `lpr_queue.hpp`, one step for each atomic access. The two words of a cell are
accessed separately. What a thread computes between two accesses belongs to the access before.
-/

namespace PRQ

variable {ι : Type}

/-- `R`, the number of cells. -/
def R : ℕ := 1 <<< 10

/-- `STARVING_THRESHOLD`. -/
def STARVING_THRESHOLD : ℕ := R

/-- `Cell`. -/
structure Cell where
  safeAndEpoch : ℕ
  value : ℕ
  deriving DecidableEq

/-- `SAFE_BIT`. -/
def SAFE_BIT : ℕ := 1 <<< 63

/-- `EPOCH_MASK`. -/
def EPOCH_MASK : ℕ := 2 ^ 64 - 1 - SAFE_BIT

/-- `decode_cell_safe`. -/
def decodeCellSafe (safeAndEpoch : ℕ) : Bool := decide (safeAndEpoch &&& SAFE_BIT ≠ 0)

/-- `decode_cell_epoch`. -/
def decodeCellEpoch (safeAndEpoch : ℕ) : ℕ := safeAndEpoch &&& EPOCH_MASK

/-- `encode_cell_safe_epoch`. -/
def encodeCellSafeEpoch (safe : Bool) (epoch : ℕ) : ℕ :=
  (safe.toNat <<< 63) ||| (epoch &&& EPOCH_MASK)

/-- `CLOSED_BIT`. -/
def CLOSED_BIT : ℕ := 1 <<< 63

/-- `T_MASK`. -/
def T_MASK : ℕ := 2 ^ 64 - 1 - CLOSED_BIT

/-- `decode_tail_closed`. -/
def decodeTailClosed (tail : ℕ) : Bool := decide (tail &&& CLOSED_BIT ≠ 0)

/-- `decode_tail_t`. -/
def decodeTailT (tail : ℕ) : ℕ := tail &&& T_MASK

/-- `IS_TOKEN_BIT`. -/
def IS_TOKEN_BIT : ℕ := 1

/-- `is_token`. -/
def isToken (value : ℕ) : Bool := decide (value &&& IS_TOKEN_BIT ≠ 0)

/-- `thread_token`: the tokens of the threads, which are distinct. -/
structure Tokens (ι : Type) where
  threadToken : ι → ℕ
  injective : Function.Injective threadToken
  token : ∀ i, isToken (threadToken i) = true

/-- `NULL_VALUE`. -/
def NULL_VALUE : ℕ := 0

/-- `EMPTY`. -/
def EMPTY : ℕ := 0

/-- The shared memory of a ring, without its `next`, which belongs to the queue of rings. -/
structure Shared where
  head : ℕ
  tail : ℕ
  a : ℕ → Cell

/-- `PRQ()`. -/
def init : Shared where
  head := R
  tail := R
  a _ := ⟨encodeCellSafeEpoch true 0, NULL_VALUE⟩

/-- The cell at index `i` becomes `x`. -/
def Shared.setCell (s : Shared) (i : ℕ) (x : Cell) : Shared :=
  { s with a := Function.update s.a i x }

/-- The value of the cell at index `i` becomes `v`. -/
def Shared.setValue (s : Shared) (i v : ℕ) : Shared :=
  s.setCell i ⟨(s.a i).safeAndEpoch, v⟩

/-- The word of the cell at index `i` becomes `w`. -/
def Shared.setWord (s : Shared) (i w : ℕ) : Shared :=
  s.setCell i ⟨w, (s.a i).value⟩

/-- `fetch_add(1)` on a word. -/
def fetchAdd (w : ℕ) : ℕ := (w + 1) % 2 ^ 64

/-- Whether `t - h >= R`, where the difference of the words wraps around. -/
def overflows (t h : ℕ) : Bool := decide (R ≤ (t + 2 ^ 64 - h) % 2 ^ 64)

/-- Whether there is no item in `value`: it is null or a token. -/
def vacant (value : ℕ) : Bool := decide (value = NULL_VALUE) || isToken value

/-- The points of `enqueue` before each access, with the local variables in scope. -/
inductive Enqueue where
  | drawTail (item iteration : ℕ)
  | readWord (item iteration t : ℕ)
  | readValue (item iteration t safeAndEpoch : ℕ)
  | readHead (item iteration t safeAndEpoch value : ℕ)
  | placeToken (item iteration t safeAndEpoch value : ℕ)
  | casWord (item iteration t safeAndEpoch : ℕ)
  | clearToken (item iteration t : ℕ)
  | install (item iteration t : ℕ)
  | checkOverflow (item iteration t : ℕ)
  | close
  | ok
  | closed

/-- The points of `dequeue` before each access. -/
inductive Dequeue where
  | drawHead
  | readWord (h : ℕ)
  | readValue (h safeAndEpoch : ℕ)
  | checkWord (h safeAndEpoch value : ℕ)
  | take (h value : ℕ)
  | killToken (h safeAndEpoch value : ℕ)
  | advance (h safeAndEpoch : ℕ)
  | mark (h safeAndEpoch : ℕ)
  | readTail (h : ℕ)
  | gave (value : ℕ)
  | empty

/-- The local state of a thread in a call. -/
inductive Local where
  | enqueue (pc : Enqueue)
  | dequeue (pc : Dequeue)

/-- One access of `enqueue` by a thread whose token is `token`. -/
def enqueue (token : ℕ) (s : Shared) : Enqueue → Option (Shared × Enqueue × RingTag ℕ)
  | .drawTail item iteration =>
      if decodeTailClosed s.tail then
        some ({ s with tail := fetchAdd s.tail }, .closed, .drawClosed)
      else
        some ({ s with tail := fetchAdd s.tail }, .readWord item iteration (decodeTailT s.tail),
          .drawTail (decodeTailT s.tail) item)
  | .readWord item iteration t =>
      some (s, .readValue item iteration t (s.a (t % R)).safeAndEpoch, .other)
  | .readValue item iteration t safeAndEpoch =>
      let value := (s.a (t % R)).value
      if vacant value ∧ decodeCellEpoch safeAndEpoch < t / R then
        if decodeCellSafe safeAndEpoch then
          some (s, .placeToken item iteration t safeAndEpoch value, .other)
        else some (s, .readHead item iteration t safeAndEpoch value, .other)
      else some (s, .checkOverflow item iteration t, .other)
  | .readHead item iteration t safeAndEpoch value =>
      if s.head ≤ t then some (s, .placeToken item iteration t safeAndEpoch value, .other)
      else some (s, .checkOverflow item iteration t, .other)
  | .placeToken item iteration t safeAndEpoch value =>
      if (s.a (t % R)).value = value then
        some (s.setValue (t % R) token, .casWord item iteration t safeAndEpoch, .other)
      else some (s, .checkOverflow item iteration t, .other)
  | .casWord item iteration t safeAndEpoch =>
      if (s.a (t % R)).safeAndEpoch = safeAndEpoch then
        some (s.setWord (t % R) (encodeCellSafeEpoch true (t / R)), .install item iteration t,
          .other)
      else some (s, .clearToken item iteration t, .other)
  | .clearToken item iteration t =>
      if (s.a (t % R)).value = token then
        some (s.setValue (t % R) NULL_VALUE, .checkOverflow item iteration t, .other)
      else some (s, .checkOverflow item iteration t, .other)
  | .install item iteration t =>
      if (s.a (t % R)).value = token then
        some (s.setValue (t % R) item, .ok, .install t item)
      else some (s, .checkOverflow item iteration t, .other)
  | .checkOverflow item iteration t =>
      if overflows t s.head || decide (STARVING_THRESHOLD < iteration) then
        some (s, .close, .giveUp t)
      else some (s, .drawTail item (iteration + 1), .giveUp t)
  | .close => some ({ s with tail := s.tail ||| CLOSED_BIT }, .closed, .close)
  | .ok => none
  | .closed => none

/-- One access of `dequeue`. -/
def dequeue (s : Shared) : Dequeue → Option (Shared × Dequeue × RingTag ℕ)
  | .drawHead => some ({ s with head := fetchAdd s.head }, .readWord s.head, .drawHead s.head)
  | .readWord h => some (s, .readValue h (s.a (h % R)).safeAndEpoch, .other)
  | .readValue h safeAndEpoch =>
      some (s, .checkWord h safeAndEpoch (s.a (h % R)).value, .look h)
  | .checkWord h safeAndEpoch value =>
      if safeAndEpoch ≠ (s.a (h % R)).safeAndEpoch then some (s, .readWord h, .other)
      else if decodeCellEpoch safeAndEpoch = h / R ∧ vacant value = false then
        some (s, .take h value, .other)
      else if decodeCellEpoch safeAndEpoch ≤ h / R ∧ vacant value then
        if isToken value then some (s, .killToken h safeAndEpoch value, .other)
        else some (s, .advance h safeAndEpoch, .other)
      else if decodeCellEpoch safeAndEpoch < h / R ∧ vacant value = false then
        some (s, .mark h safeAndEpoch, .other)
      else some (s, .readTail h, .miss h)
  | .take h value => some (s.setValue (h % R) NULL_VALUE, .gave value, .take h value)
  | .killToken h safeAndEpoch value =>
      if (s.a (h % R)).value = value then
        some (s.setValue (h % R) NULL_VALUE, .advance h safeAndEpoch, .other)
      else some (s, .readWord h, .other)
  | .advance h safeAndEpoch =>
      if (s.a (h % R)).safeAndEpoch = safeAndEpoch then
        some (s.setWord (h % R) (encodeCellSafeEpoch (decodeCellSafe safeAndEpoch) (h / R)),
          .readTail h, .miss h)
      else some (s, .readWord h, .other)
  | .mark h safeAndEpoch =>
      if (s.a (h % R)).safeAndEpoch = safeAndEpoch then
        some (s.setWord (h % R) (encodeCellSafeEpoch false (decodeCellEpoch safeAndEpoch)),
          .readTail h, .miss h)
      else some (s, .readWord h, .other)
  | .readTail h =>
      if decodeTailT s.tail ≤ (h + 1) % 2 ^ 64 then some (s, .empty, .sawEmpty h)
      else some (s, .drawHead, .other)
  | .gave _ => none
  | .empty => none

/-- Neither counter comes near its top bit, as is the case while the ring has handed out fewer
than `2 ^ 62` tickets of each kind. -/
def Legal (s : Shared) : Prop := s.head < 2 ^ 62 + R ∧ decodeTailT s.tail < 2 ^ 63 - 1

instance : DecidablePred Legal := fun _ => inferInstanceAs (Decidable (_ ∧ _))

/-- `PRQ` as a machine, for items that are neither null nor tokens. -/
def machine (tokens : Tokens ι) :
    Machine ι Shared Local (RingOp ℕ) (RingRes ℕ) (RingTag ℕ) Unit where
  init := init
  legal := Legal
  valid
    | .enqueue item => vacant item = false
    | .dequeue => True
  start
    | .enqueue item => .enqueue (.drawTail item 0)
    | .dequeue => .dequeue .drawHead
  result
    | .enqueue .ok => some .ok
    | .enqueue .closed => some .closed
    | .dequeue (.gave value) => some (.value value)
    | .dequeue .empty => some (.value EMPTY)
    | _ => none
  step i _ s
    | .enqueue pc =>
        (enqueue (tokens.threadToken i) s pc).map fun (s, pc, t) => (s, .enqueue pc, t)
    | .dequeue pc => (dequeue s pc).map fun (s, pc, t) => (s, .dequeue pc, t)

end PRQ
