import ConcurrentQueues.Library.Machine
import ConcurrentQueues.Library.Tickets
import ConcurrentQueues.Library.TopBit

/-!
# CRQ

The ring of `lcr_queue.hpp`, one step for each atomic access. A word is a number below
`2 ^ 64`. What a thread computes between two accesses belongs to the access before.
-/

namespace CRQ

variable {ι : Type}

/-- `R`, the number of nodes. -/
def R : ℕ := 1 <<< 10

/-- `STARVING_THRESHOLD`. -/
def STARVING_THRESHOLD : ℕ := R

/-- `Node`. -/
structure Node where
  safeAndIdx : ℕ
  val : ℕ
  deriving DecidableEq

/-- `SAFE_BIT`. -/
def SAFE_BIT : ℕ := 1 <<< 63

/-- `IDX_MASK`. -/
def IDX_MASK : ℕ := 2 ^ 64 - 1 - SAFE_BIT

/-- `decode_node_safe`. -/
def decodeNodeSafe (safeAndIdx : ℕ) : Bool := decide (safeAndIdx &&& SAFE_BIT ≠ 0)

/-- `decode_node_idx`. -/
def decodeNodeIdx (safeAndIdx : ℕ) : ℕ := safeAndIdx &&& IDX_MASK

/-- `encode_node_safe_idx`. -/
def encodeNodeSafeIdx (safe : Bool) (idx : ℕ) : ℕ := (safe.toNat <<< 63) ||| (idx &&& IDX_MASK)

/-- `CLOSED_BIT`. -/
def CLOSED_BIT : ℕ := 1 <<< 63

/-- `T_MASK`. -/
def T_MASK : ℕ := 2 ^ 64 - 1 - CLOSED_BIT

/-- `decode_tail_closed`. -/
def decodeTailClosed (tail : ℕ) : Bool := decide (tail &&& CLOSED_BIT ≠ 0)

/-- `decode_tail_t`. -/
def decodeTailT (tail : ℕ) : ℕ := tail &&& T_MASK

/-- `UNDEFINED_NODE_VAL`. -/
def UNDEFINED_NODE_VAL : ℕ := 0

/-- `EMPTY`. -/
def EMPTY : ℕ := 0

/-- The shared memory of a ring, without its `next`, which belongs to the queue of rings. -/
structure Shared where
  head : ℕ
  tail : ℕ
  array : ℕ → Node

/-- `CRQ()`. -/
def init : Shared where
  head := 0
  tail := 0
  array i := ⟨encodeNodeSafeIdx true i, UNDEFINED_NODE_VAL⟩

/-- The node at index `i` becomes `n`. -/
def Shared.setNode (s : Shared) (i : ℕ) (n : Node) : Shared :=
  { s with array := Function.update s.array i n }

/-- `fetch_add(1)` on a word. -/
def fetchAdd (w : ℕ) : ℕ := (w + 1) % 2 ^ 64

/-- Whether `t - h >= R`, where the difference of the words wraps around. -/
def overflows (t h : ℕ) : Bool := decide (R ≤ (t + 2 ^ 64 - h) % 2 ^ 64)

/-- The points of `enqueue` before each access, with the local variables in scope. -/
inductive Enqueue where
  | drawTail (arg iteration : ℕ)
  | readVal (arg iteration t : ℕ)
  | readSafeAndIdx (arg iteration t val : ℕ)
  | readHead (arg iteration t safeAndIdx : ℕ)
  | cas (arg iteration t safeAndIdx : ℕ)
  | checkOverflow (arg iteration t : ℕ)
  | close
  | ok
  | closed

/-- The points of `dequeue` and of `fixState` before each access. -/
inductive Dequeue where
  | drawHead
  | readVal (h : ℕ)
  | readSafeAndIdx (h val : ℕ)
  | take (h safeAndIdx val : ℕ)
  | mark (h safeAndIdx val : ℕ)
  | skip (h safeAndIdx : ℕ)
  | readTail (h : ℕ)
  | fixHead
  | fixTail (h : ℕ)
  | fixCheck (h t : ℕ)
  | fixCas (h t : ℕ)
  | gave (val : ℕ)
  | empty

/-- The local state of a thread in a call. -/
inductive Local where
  | enqueue (pc : Enqueue)
  | dequeue (pc : Dequeue)

/-- `CAS2` on the node at index `i`. -/
def Shared.cas2 (s : Shared) (i : ℕ) (expected desired : Node) : Option Shared :=
  if s.array i = expected then some (s.setNode i desired) else none

/-- One access of `enqueue`. -/
def enqueue (s : Shared) : Enqueue → Option (Shared × Enqueue × RingTag ℕ)
  | .drawTail arg iteration =>
      if decodeTailClosed s.tail then
        some ({ s with tail := fetchAdd s.tail }, .closed, .drawClosed)
      else
        some ({ s with tail := fetchAdd s.tail }, .readVal arg iteration (decodeTailT s.tail),
          .drawTail (decodeTailT s.tail) arg)
  | .readVal arg iteration t =>
      some (s, .readSafeAndIdx arg iteration t (s.array (t % R)).val, .other)
  | .readSafeAndIdx arg iteration t val =>
      let safeAndIdx := (s.array (t % R)).safeAndIdx
      if val = EMPTY ∧ decodeNodeIdx safeAndIdx ≤ t then
        if decodeNodeSafe safeAndIdx then some (s, .cas arg iteration t safeAndIdx, .other)
        else some (s, .readHead arg iteration t safeAndIdx, .other)
      else some (s, .checkOverflow arg iteration t, .other)
  | .readHead arg iteration t safeAndIdx =>
      if s.head ≤ t then some (s, .cas arg iteration t safeAndIdx, .other)
      else some (s, .checkOverflow arg iteration t, .other)
  | .cas arg iteration t safeAndIdx =>
      match s.cas2 (t % R)
        ⟨encodeNodeSafeIdx (decodeNodeSafe safeAndIdx) (decodeNodeIdx safeAndIdx),
          UNDEFINED_NODE_VAL⟩
        ⟨encodeNodeSafeIdx true t, arg⟩ with
      | some s' => some (s', .ok, .install t arg)
      | none => some (s, .checkOverflow arg iteration t, .other)
  | .checkOverflow arg iteration t =>
      if overflows t s.head || decide (STARVING_THRESHOLD < iteration) then
        some (s, .close, .giveUp t)
      else some (s, .drawTail arg (iteration + 1), .giveUp t)
  | .close => some ({ s with tail := s.tail ||| CLOSED_BIT }, .closed, .close)
  | .ok => none
  | .closed => none

/-- One access of `dequeue`. -/
def dequeue (s : Shared) : Dequeue → Option (Shared × Dequeue × RingTag ℕ)
  | .drawHead => some ({ s with head := fetchAdd s.head }, .readVal s.head, .drawHead s.head)
  | .readVal h => some (s, .readSafeAndIdx h (s.array (h % R)).val, .other)
  | .readSafeAndIdx h val =>
      let enc := (s.array (h % R)).safeAndIdx
      if h < decodeNodeIdx enc then some (s, .readTail h, .miss h)
      else if val ≠ UNDEFINED_NODE_VAL then
        if decodeNodeIdx enc = h then some (s, .take h enc val, .other)
        else some (s, .mark h enc val, .other)
      else some (s, .skip h enc, .other)
  | .take h safeAndIdx val =>
      match s.cas2 (h % R) ⟨encodeNodeSafeIdx (decodeNodeSafe safeAndIdx) h, val⟩
        ⟨encodeNodeSafeIdx (decodeNodeSafe safeAndIdx) (h + R), UNDEFINED_NODE_VAL⟩ with
      | some s' => some (s', .gave val, .take h val)
      | none => some (s, .readVal h, .other)
  | .mark h safeAndIdx val =>
      match s.cas2 (h % R)
        ⟨encodeNodeSafeIdx (decodeNodeSafe safeAndIdx) (decodeNodeIdx safeAndIdx), val⟩
        ⟨encodeNodeSafeIdx false (decodeNodeIdx safeAndIdx), val⟩ with
      | some s' => some (s', .readTail h, .miss h)
      | none => some (s, .readVal h, .other)
  | .skip h safeAndIdx =>
      match s.cas2 (h % R)
        ⟨encodeNodeSafeIdx (decodeNodeSafe safeAndIdx) (decodeNodeIdx safeAndIdx),
          UNDEFINED_NODE_VAL⟩
        ⟨encodeNodeSafeIdx (decodeNodeSafe safeAndIdx) (h + R), UNDEFINED_NODE_VAL⟩ with
      | some s' => some (s', .readTail h, .miss h)
      | none => some (s, .readVal h, .other)
  | .readTail h =>
      if decodeTailT s.tail ≤ h + 1 then some (s, .fixHead, .sawEmpty h)
      else some (s, .drawHead, .other)
  | .fixHead => some (s, .fixTail s.head, .other)
  | .fixTail h => some (s, .fixCheck h s.tail, .other)
  | .fixCheck h t =>
      if s.tail ≠ t then some (s, .fixHead, .other)
      else if h ≤ t then some (s, .empty, .other)
      else some (s, .fixCas h t, .other)
  | .fixCas h t =>
      if s.tail = t then some ({ s with tail := h }, .empty, .jump h)
      else some (s, .fixHead, .other)
  | .gave _ => none
  | .empty => none

/-- Neither counter comes near its top bit. While a ring has handed out fewer than `2 ^ 62`
tickets of each kind, its head is below `2 ^ 62`, and its tail, which `fixState` may
have moved up to the head, is below `2 ^ 63 - 1`. -/
def Legal (s : Shared) : Prop := s.head < 2 ^ 62 ∧ decodeTailT s.tail < 2 ^ 63 - 1

instance : DecidablePred Legal := fun _ => inferInstanceAs (Decidable (_ ∧ _))

/-- `CRQ` as a machine, for items that are not null. -/
def machine (ι : Type) : Machine ι Shared Local (RingOp ℕ) (RingRes ℕ) (RingTag ℕ) Unit where
  init := init
  legal := Legal
  valid
    | .enqueue arg => arg ≠ 0
    | .dequeue => True
  start
    | .enqueue arg => .enqueue (.drawTail arg 0)
    | .dequeue => .dequeue .drawHead
  result
    | .enqueue .ok => some .ok
    | .enqueue .closed => some .closed
    | .dequeue (.gave val) => some (.value val)
    | .dequeue .empty => some (.value EMPTY)
    | _ => none
  step _ _ s
    | .enqueue pc => (enqueue s pc).map fun (s, pc, t) => (s, .enqueue pc, t)
    | .dequeue pc => (dequeue s pc).map fun (s, pc, t) => (s, .dequeue pc, t)

end CRQ
