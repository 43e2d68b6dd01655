import ConcurrentQueues.CRQ.Model
import ConcurrentQueues.Library.TicketRing

/-!
# The tickets of CRQ

The tickets of a ring are kept as a ghost. A node only ever moves up in rank, so what a
thread has read is still there when its `CAS2` succeeds. An enqueuer that found the node
unsafe has checked the head afterwards: no dequeuer with its ticket has been there by
then, and none can come and go without changing the node.
-/

namespace CRQ

open Machine

variable {ι : Type}

/-- A ring with its tickets. -/
abbrev State (ι : Type) := Shared × Tickets ι ℕ

/-! ### Words -/

theorem R_pos :
  0 < R
  := by decide

theorem R_lt :
  R < 2 ^ 62
  := by decide

theorem idx_lt (w : ℕ) :
  decodeNodeIdx w < 2 ^ 63
  := TopBit.body_lt w

theorem idx_encode {b : Bool} {e : ℕ} (he : e < 2 ^ 63) :
  decodeNodeIdx (encodeNodeSafeIdx b e) = e
  := TopBit.body_pack he

theorem safe_encode (b : Bool) (e : ℕ) :
  decodeNodeSafe (encodeNodeSafeIdx b e) = b
  := TopBit.flag_pack b e

theorem encode_lt (b : Bool) (e : ℕ) :
  encodeNodeSafeIdx b e < 2 ^ 64
  := TopBit.pack_lt b e

/-- The index of a node. -/
def Node.idx (n : Node) : ℕ := decodeNodeIdx n.safeAndIdx

/-- Whether a node is safe. -/
def Node.safe (n : Node) : Bool := decodeNodeSafe n.safeAndIdx

/-- The node that an access expects after reading the word `w`, with the value `val`. -/
def expect (w val : ℕ) : Node :=
  ⟨encodeNodeSafeIdx (decodeNodeSafe w) (decodeNodeIdx w), val⟩

@[simp]
theorem expect_idx (w val : ℕ) :
  (expect w val).idx = decodeNodeIdx w
  := idx_encode (idx_lt w)

@[simp]
theorem expect_safe (w val : ℕ) :
  (expect w val).safe = decodeNodeSafe w
  := safe_encode _ _

/-- How far a node has come: each index is first empty, then full, then full and unsafe. -/
def Node.rank (n : Node) : ℕ :=
  4 * n.idx + if n.val = 0 then 0 else if n.safe then 2 else 3

theorem le_rank (n : Node) :
  4 * n.idx ≤ n.rank
  := Nat.le_add_right ..

theorem rank_lt (n : Node) :
  n.rank < 4 * (n.idx + 1)
  := by
  rw [Node.rank]
  split
  · omega
  · split <;> omega

theorem rank_lt_of_idx {n n' : Node} (h : n.idx < n'.idx) :
  n.rank < n'.rank
  := by
  have := rank_lt n
  have := le_rank n'
  omega

theorem rank_empty {n : Node} (h : n.val = 0) :
  n.rank = 4 * n.idx
  := by
  rw [Node.rank, if_pos h, Nat.add_zero]

theorem rank_full {n : Node} (h : n.val ≠ 0) :
  n.rank = 4 * n.idx + if n.safe then 2 else 3
  := by
  rw [Node.rank, if_neg h]

/-! ### The invariant -/

/-- What the node `n` at index `i` says about the tickets of its cell. -/
structure Node.Fits (a : Tickets ι ℕ) (i : ℕ) (n : Node) : Prop where
  cell : n.idx % R = i
  item : n.val ≠ 0 → a.enq n.idx = .full n.val ∧ a.deq n.idx ≠ .took
  full : ∀ t x, t % R = i → a.enq t = .full x → a.deq t ≠ .took → n.idx = t ∧ n.val = x
  missed : ∀ t, t % R = i → a.deq t = .missed → t < n.idx ∨ n.safe = false

/-- The invariant of a ring with its tickets. -/
structure Inv (σ : State ι) : Prop where
  tickets : σ.2.Inv
  head : σ.2.head = σ.1.head
  tail : σ.2.tail = decodeTailT σ.1.tail
  closed : σ.2.closed = decodeTailClosed σ.1.tail
  word : σ.1.tail < 2 ^ 64
  items : σ.2.All (· ≠ 0)
  node : ∀ i < R, (σ.1.array i).Fits σ.2 i

/-- What a thread knows at each point of `enqueue`. The word it has read may be in the node
still; if it is, and unsafe, then no dequeuer has left the cell with a ticket from `t` on. -/
def Enqueue.Knows (σ : State ι) : Enqueue → Prop
  | .drawTail arg _ => arg ≠ 0
  | .readHead _ _ t w => decodeNodeIdx w ≤ t ∧ 4 * decodeNodeIdx w ≤ (σ.1.array (t % R)).rank
  | .cas _ _ t w =>
      decodeNodeIdx w ≤ t ∧ 4 * decodeNodeIdx w ≤ (σ.1.array (t % R)).rank ∧
        (decodeNodeSafe w = false → σ.1.array (t % R) = expect w 0 →
          ∀ u, t ≤ u → u % R = t % R → σ.2.deq u ≠ .missed)
  | .closed => σ.2.closed = true
  | _ => True

/-- What a thread knows at each point of `dequeue`. -/
def Dequeue.Knows (σ : State ι) : Dequeue → Prop
  | .take h w val => val ≠ 0 ∧ decodeNodeIdx w = h
  | .mark h w val => val ≠ 0 ∧ decodeNodeIdx w < h
  | .skip h w => decodeNodeIdx w ≤ h
  | .readTail h => σ.2.deq h = .missed
  | .fixTail h => h ≤ σ.1.head
  | .fixCheck h _ => h ≤ σ.1.head
  | .fixCas h t => h ≤ σ.1.head ∧ t < h
  | .gave val => val ≠ 0
  | _ => True

/-- The tail ticket of a thread, with the item it wants to install. -/
def Enqueue.ticket : Enqueue → Option (ℕ × ℕ)
  | .readVal arg _ t | .readSafeAndIdx arg _ t _ | .readHead arg _ t _ | .cas arg _ t _
  | .checkOverflow arg _ t => some (t, arg)
  | .drawTail _ _ | .close | .ok | .closed => none

/-- The head ticket of a thread. -/
def Dequeue.ticket : Dequeue → Option ℕ
  | .readVal h | .readSafeAndIdx h _ | .take h _ _ | .mark h _ _ | .skip h _ => some h
  | .drawHead | .readTail _ | .fixHead | .fixTail _ | .fixCheck _ _ | .fixCas _ _ | .gave _
  | .empty => none

/-- The tickets of a ring, which follow the tags of the accesses. -/
def ticketing (ι : Type) : (machine ι).Ticketing (Tickets ι ℕ) where
  init := .new 0
  next i _ a _ τ := a.apply i τ
  tickets := id
  enq
    | .enqueue pc => pc.ticket
    | .dequeue _ => none
  deq
    | .enqueue _ => none
    | .dequeue pc => pc.ticket

/-- What thread `i` knows about its own position. -/
def Knows (i : ι) (σ : State ι) : Option Local → Prop
  | none => σ.2.Holding i none none
  | some (.enqueue pc) => σ.2.Holding i pc.ticket none ∧ pc.Knows σ
  | some (.dequeue pc) => σ.2.Holding i none pc.ticket ∧ pc.Knows σ

/-- What an access of another thread does, as thread `j` sees it. -/
structure Sees (j : ι) (σ σ' : State ι) : Prop where
  later : σ.2.Later σ'.2
  head : σ.1.head ≤ σ'.1.head
  holding : ∀ e d, σ.2.Holding j e d → σ'.2.Holding j e d
  node : ∀ i, σ'.1.array i = σ.1.array i ∨ (σ.1.array i).rank < (σ'.1.array i).rank
  missed : ∀ t, σ'.2.deq t = .missed → σ.2.deq t = .missed ∨
    σ'.1.array (t % R) ≠ σ.1.array (t % R) ∨ (σ'.1.array (t % R)).val ≠ 0 ∨
    t < (σ'.1.array (t % R)).idx

/-! ### What a thread knows is stable -/

variable {i j : ι} {σ σ' : State ι}

theorem Sees.rank (h : Sees j σ σ') (i : ℕ) :
  (σ.1.array i).rank ≤ (σ'.1.array i).rank
  := by
  rcases h.node i with heq | hlt
  · rw [heq]
  · exact le_of_lt hlt

/-- An empty node that was there after some word has been read was there then. -/
theorem Sees.same (h : Sees j σ σ') {i w : ℕ}
    (hw : 4 * decodeNodeIdx w ≤ (σ.1.array i).rank) (hn : σ'.1.array i = expect w 0) :
  σ'.1.array i = σ.1.array i
  := by
  rcases h.node i with heq | hlt
  · exact heq
  · have hrank : (expect w 0).rank = 4 * decodeNodeIdx w := by
      rw [rank_empty rfl, expect_idx]
    rw [hn, hrank] at hlt
    exact absurd hw (Nat.not_le.mpr hlt)

theorem Enqueue.Knows.keep {pc : Enqueue} (hpc : pc.Knows σ) (h : Sees j σ σ') :
  pc.Knows σ'
  := by
  cases pc with
  | drawTail arg it => exact hpc
  | readHead arg it t w => exact ⟨hpc.1, hpc.2.trans (h.rank _)⟩
  | cas arg it t w =>
      obtain ⟨hidx, hrank, hun⟩ := hpc
      refine ⟨hidx, hrank.trans (h.rank _), fun hsafe hn u htu hu hmissed => ?_⟩
      have hsame := h.same hrank hn
      rcases h.missed u hmissed with hold | hne | hval | hlt
      · exact hun hsafe (hsame.symm.trans hn) u htu hu hold
      · rw [hu] at hne
        exact hne hsame
      · rw [hu, hn] at hval
        exact hval rfl
      · rw [hu, hn, expect_idx] at hlt
        omega
  | closed => exact h.later.closed hpc
  | readVal arg it t => trivial
  | readSafeAndIdx arg it t val => trivial
  | checkOverflow arg it t => trivial
  | close => trivial
  | ok => trivial

theorem Dequeue.Knows.keep {pc : Dequeue} (hpc : pc.Knows σ) (h : Sees j σ σ') :
  pc.Knows σ'
  := by
  cases pc with
  | take t w val => exact hpc
  | mark t w val => exact hpc
  | skip t w => exact hpc
  | readTail t => exact h.later.missed t hpc
  | fixTail t => exact hpc.trans h.head
  | fixCheck t u => exact hpc.trans h.head
  | fixCas t u => exact ⟨hpc.1.trans h.head, hpc.2⟩
  | gave val => exact hpc
  | drawHead => trivial
  | readVal t => trivial
  | readSafeAndIdx t val => trivial
  | fixHead => trivial
  | empty => trivial

theorem Knows.keep {l : Option Local} (hl : Knows j σ l) (h : Sees j σ σ') :
  Knows j σ' l
  := by
  cases l with
  | none => exact h.holding _ _ hl
  | some l =>
      cases l with
      | enqueue pc => exact ⟨h.holding _ _ hl.1, hl.2.keep h⟩
      | dequeue pc => exact ⟨h.holding _ _ hl.1, hl.2.keep h⟩

/-! ### One access -/

/-- What an access of thread `i` with tag `τ` from the ring `σ` to `s'` has to satisfy. -/
structure Access (i : ι) (σ : State ι) (s' : Shared) (τ : RingTag ℕ) : Prop where
  ok : σ.2.Ok i τ
  inv : Inv (s', σ.2.apply i τ)
  node : ∀ c, s'.array c = σ.1.array c ∨ (σ.1.array c).rank < (s'.array c).rank
  missed : ∀ h, τ = .miss h → s'.array (h % R) ≠ σ.1.array (h % R) ∨
    (s'.array (h % R)).val ≠ 0 ∨ h < (s'.array (h % R)).idx

variable {s s' : Shared} {a : Tickets ι ℕ} {τ : RingTag ℕ}

/-- The other threads see the access. -/
theorem Access.sees (h : Access i (s, a) s' τ) (hinv : Inv (s, a)) (hj : j ≠ i) :
  Sees j (s, a) (s', a.apply i τ)
  := by
  have hlater := h.ok.later hinv.tickets
  constructor
  case later => exact hlater
  case head =>
    have hhead := hlater.head
    rw [hinv.head, h.inv.head] at hhead
    exact hhead
  case holding => exact fun e d hold => hold.frame h.ok hinv.tickets hj
  case node => exact h.node
  case missed =>
    intro t ht
    by_cases hτ : τ.ticket = some t
    · cases τ with
      | install u x => exact Or.inl ht
      | take u x =>
          cases hτ
          cases (Function.update_self ..).symm.trans ht
      | miss u =>
          cases hτ
          exact Or.inr (h.missed t rfl)
      | _ => cases hτ
    · exact Or.inl (((h.ok.settled hinv.tickets hτ).2.2).mp ht)

/-- A node whose tickets have not been touched still fits. -/
theorem Node.Fits.settled {n : Node} {c : ℕ} (hn : n.Fits a c) (hok : a.Ok i τ) (ha : a.Inv)
    (hτ : ∀ t, τ.ticket = some t → t % R ≠ c) :
  n.Fits (a.apply i τ) c
  := by
  have hset : ∀ t, t % R = c → _ := fun t ht =>
    hok.settled ha (fun heq => hτ t heq ht)
  constructor
  case cell => exact hn.cell
  case item =>
    intro hval
    obtain ⟨hfull, htook, -⟩ := hset n.idx hn.cell
    obtain ⟨henq, hdeq⟩ := hn.item hval
    exact ⟨(hfull _).mpr henq, fun h => hdeq (htook.mp h)⟩
  case full =>
    intro t x ht hx hdeq
    obtain ⟨hfull, htook, -⟩ := hset t ht
    exact hn.full t x ht ((hfull x).mp hx) (fun h => hdeq (htook.mpr h))
  case missed =>
    intro t ht hmissed
    exact hn.missed t ht ((hset t ht).2.2.mp hmissed)

/-- An access that leaves the nodes alone and settles no ticket. -/
theorem Access.counters (h : Inv (s, a)) (hok : a.Ok i τ) (hnone : τ.ticket = none)
    (harray : s'.array = s.array) (hhead : (a.apply i τ).head = s'.head)
    (htail : (a.apply i τ).tail = decodeTailT s'.tail)
    (hclosed : (a.apply i τ).closed = decodeTailClosed s'.tail) (hword : s'.tail < 2 ^ 64)
    (hdraw : ∀ t x, τ = .drawTail t x → x ≠ 0) :
  Access i (s, a) s' τ
  := by
  refine ⟨hok, ⟨hok.inv h.tickets, hhead, htail, hclosed, hword, hok.all h.items hdraw, ?_⟩, ?_,
    ?_⟩
  · intro c hc
    have hfits : (s'.array c).Fits a c := by
      rw [harray]
      exact h.node c hc
    apply hfits.settled hok h.tickets
    intro t ht
    rw [hnone] at ht
    cases ht
  · intro c
    exact Or.inl (congrFun harray c)
  · rintro t rfl
    cases hnone

/-- An access that changes nothing, and no counter of the tickets. -/
theorem Access.stay (h : Inv (s, a)) (hok : a.Ok i τ) (hnone : τ.ticket = none)
    (hcount : (a.apply i τ).head = a.head ∧ (a.apply i τ).tail = a.tail ∧
      (a.apply i τ).closed = a.closed) (hdraw : ∀ t x, τ = .drawTail t x → x ≠ 0) :
  Access i (s, a) s τ
  := Access.counters h hok hnone rfl (hcount.1.trans h.head) (hcount.2.1.trans h.tail)
    (hcount.2.2.trans h.closed) h.word hdraw

theorem Access.silent (h : Inv (s, a)) :
  Access i (s, a) s .other
  := Access.stay h trivial rfl ⟨rfl, rfl, rfl⟩ nofun

/-- An access that settles the ticket `t` and makes `n` the node of its cell. -/
theorem Access.settle {t : ℕ} {n : Node} (h : Inv (s, a)) (hok : a.Ok i τ)
    (hτ : τ.ticket = some t) (hn : n.Fits (a.apply i τ) (t % R))
    (hrank : n = s.array (t % R) ∨ (s.array (t % R)).rank < n.rank)
    (hmissed : τ = .miss t → n ≠ s.array (t % R) ∨ n.val ≠ 0 ∨ t < n.idx) :
  Access i (s, a) (s.setNode (t % R) n) τ
  := by
  have hself : (s.setNode (t % R) n).array (t % R) = n := Function.update_self ..
  have hother : ∀ {c}, c ≠ t % R → (s.setNode (t % R) n).array c = s.array c :=
    fun hc => Function.update_of_ne hc ..
  have hcount : (a.apply i τ).head = a.head ∧ (a.apply i τ).tail = a.tail ∧
      (a.apply i τ).closed = a.closed := by
    cases τ with
    | install | take | miss => exact ⟨rfl, rfl, rfl⟩
    | _ => cases hτ
  have hdraw : ∀ t x, τ = .drawTail t x → x ≠ 0 := by
    rintro t x rfl
    cases hτ
  refine ⟨hok, ⟨hok.inv h.tickets, hcount.1.trans h.head, hcount.2.1.trans h.tail,
    hcount.2.2.trans h.closed, h.word, hok.all h.items hdraw, ?_⟩, ?_, ?_⟩
  · intro c hc
    by_cases hct : c = t % R
    · rw [hct, hself]
      exact hn
    · rw [hother hct]
      apply (h.node c hc).settled hok h.tickets
      intro u hu
      cases hτ.symm.trans hu
      exact Ne.symm hct
  · intro c
    by_cases hct : c = t % R
    · rw [hct, hself]
      exact hrank
    · exact Or.inl (hother hct)
  · rintro u rfl
    cases hτ
    rw [hself]
    exact hmissed rfl

/-! ### The accesses to a node -/

theorem Access.install {t w arg : ℕ} (h : Inv (s, a)) (hheld : a.enq t = .held i arg)
    (hlt : t < 2 ^ 63) (hidx : decodeNodeIdx w ≤ t) (hn : s.array (t % R) = expect w 0)
    (hun : decodeNodeSafe w = false → ∀ u, t ≤ u → u % R = t % R → a.deq u ≠ .missed) :
  Access i (s, a) (s.setNode (t % R) ⟨encodeNodeSafeIdx true t, arg⟩) (.install t arg)
  := by
  have hfits := h.node (t % R) (Nat.mod_lt _ R_pos)
  rw [hn] at hfits
  have hnew : decodeNodeIdx (encodeNodeSafeIdx true t) = t := idx_encode hlt
  have harg : arg ≠ 0 := h.items t arg (Or.inl ⟨i, hheld⟩)
  have htook : a.deq t ≠ .took := by
    intro htook
    obtain ⟨x, hx⟩ := h.tickets.took t htook
    cases hheld.symm.trans hx
  -- every ticket that missed in this cell lies below
  have hbelow : ∀ u, u % R = t % R → a.deq u = .missed → u < t := by
    intro u hu hmissed
    rcases hfits.missed u hu hmissed with hlt | hsafe
    · rw [expect_idx] at hlt
      exact lt_of_lt_of_le hlt hidx
    · rw [expect_safe] at hsafe
      apply Nat.lt_of_not_le
      intro htu
      exact hun hsafe u htu hu hmissed
  have hmissed : a.deq t ≠ .missed := fun hm => lt_irrefl t (hbelow t rfl hm)
  have hok : a.Ok i (.install t arg) := ⟨hheld, htook, hmissed⟩
  apply Access.settle h hok rfl
  · constructor
    case cell => exact congrArg (· % R) hnew
    case item =>
      intro _
      rw [Node.idx, hnew]
      exact ⟨Function.update_self .., htook⟩
    case full =>
      intro u x hu hx hdeq
      by_cases hut : u = t
      · subst hut
        cases (Function.update_self ..).symm.trans hx
        exact ⟨hnew, rfl⟩
      · have hfull : a.enq u = .full x := (Function.update_of_ne hut ..).symm.trans hx
        obtain ⟨-, hval⟩ := hfits.full u x hu hfull hdeq
        exact absurd hval.symm (h.items u x (Or.inr hfull))
    case missed =>
      intro u hu hdeq
      rw [Node.idx, hnew]
      exact Or.inl (hbelow u hu hdeq)
  · right
    rw [hn, rank_empty rfl, expect_idx, Node.rank, Node.idx, hnew, if_neg harg]
    split <;> omega
  · exact nofun

theorem Access.take {t w val : ℕ} (h : Inv (s, a)) (hheld : a.deq t = .held i)
    (hlt : t + R < 2 ^ 63) (hidx : decodeNodeIdx w = t) (hval : val ≠ 0)
    (hn : s.array (t % R) = expect w val) :
  Access i (s, a)
    (s.setNode (t % R) ⟨encodeNodeSafeIdx (decodeNodeSafe w) (t + R), UNDEFINED_NODE_VAL⟩)
    (.take t val)
  := by
  have hfits := h.node (t % R) (Nat.mod_lt _ R_pos)
  rw [hn] at hfits
  have hnew : decodeNodeIdx (encodeNodeSafeIdx (decodeNodeSafe w) (t + R)) = t + R :=
    idx_encode hlt
  obtain ⟨hfull, -⟩ := hfits.item hval
  rw [expect_idx, hidx] at hfull
  have hpos := R_pos
  have hdeq : ∀ {u : ℕ} {z : HeadTicket ι}, u ≠ t →
      Function.update a.deq t .took u = z → a.deq u = z :=
    fun hut hu => (Function.update_of_ne hut ..).symm.trans hu
  have hok : a.Ok i (.take t val) := ⟨hheld, hfull⟩
  apply Access.settle h hok rfl
  · constructor
    case cell =>
      rw [Node.idx, hnew, Nat.add_mod_right]
    case item => exact fun hne => absurd rfl hne
    case full =>
      intro u x hu hx htook
      by_cases hut : u = t
      · subst hut
        exact absurd (Function.update_self ..) htook
      · have hdeq' : a.deq u ≠ .took :=
          fun heq => htook ((Function.update_of_ne hut ..).trans heq)
        obtain ⟨hold, -⟩ := hfits.full u x hu hx hdeq'
        rw [expect_idx, hidx] at hold
        exact absurd hold.symm hut
    case missed =>
      intro u hu hmissed
      have hut : u ≠ t := by
        rintro rfl
        cases (Function.update_self ..).symm.trans hmissed
      rw [Node.idx, Node.safe, hnew, safe_encode]
      rcases hfits.missed u hu (hdeq hut hmissed) with hlt | hsafe
      · left
        rw [expect_idx] at hlt
        omega
      · right
        rw [expect_safe] at hsafe
        exact hsafe
  · right
    apply rank_lt_of_idx
    rw [hn, expect_idx, Node.idx, hnew]
    omega
  · exact nofun

/-- Leaving a cell without an item. The node `n` that remains there is not at the ticket, and
is beyond it or unsafe. -/
theorem Access.miss {t : ℕ} {n : Node} (h : Inv (s, a)) (hheld : a.deq t = .held i)
    (hcell : n.idx % R = t % R) (hval : n.val ≠ 0 → n.idx = (s.array (t % R)).idx ∧ n.idx ≠ t)
    (hitem : n.val = (s.array (t % R)).val)
    (hbeyond : t < n.idx ∨ n.safe = false ∧ n.val ≠ 0)
    (hempty : n.val = 0 → (s.array (t % R)).idx ≤ n.idx)
    (hsafe : n.safe = (s.array (t % R)).safe ∨ n.safe = false)
    (hrank : n = s.array (t % R) ∨ (s.array (t % R)).rank < n.rank) :
  Access i (s, a) (s.setNode (t % R) n) (.miss t)
  := by
  have hfits := h.node (t % R) (Nat.mod_lt _ R_pos)
  have hnot : a.deq t ≠ .took := by
    rw [hheld]
    exact nofun
  have hother : ∀ {u : ℕ}, Function.update a.deq t .missed u ≠ .took → a.deq u ≠ .took :=
    fun hu heq => hu (Tickets.update_ne heq hnot)
  have hfull : ∀ x, a.enq t ≠ .full x := by
    intro x hx
    obtain ⟨hidx, hx'⟩ := hfits.full t x rfl hx hnot
    have hne : n.val ≠ 0 := by
      rw [hitem, hx']
      exact h.items t x (Or.inr hx)
    obtain ⟨heq, hne⟩ := hval hne
    exact hne (heq.trans hidx)
  have hok : a.Ok i (.miss t) := ⟨hheld, hfull⟩
  apply Access.settle h hok rfl
  · constructor
    case cell => exact hcell
    case item =>
      intro hne
      obtain ⟨heq, hidx⟩ := hval hne
      rw [hitem] at hne
      obtain ⟨henq, hdeq⟩ := hfits.item hne
      rw [heq, hitem]
      use henq
      exact fun htook => hdeq (Tickets.update_inv htook nofun)
    case full =>
      intro u x hu hx htook
      obtain ⟨hidx, hx'⟩ := hfits.full u x hu hx (hother htook)
      have hne : n.val ≠ 0 := by
        rw [hitem, hx']
        exact h.items u x (Or.inr hx)
      exact ⟨(hval hne).1.trans hidx, hitem.trans hx'⟩
    case missed =>
      intro u hu hmissed
      by_cases hut : u = t
      · subst hut
        exact hbeyond.imp id And.left
      · have hold := hfits.missed u hu ((Function.update_of_ne hut ..).symm.trans hmissed)
        rcases hold with hlt | hold
        · left
          by_cases hne : n.val = 0
          · exact lt_of_lt_of_le hlt (hempty hne)
          · rw [(hval hne).1]
            exact hlt
        · right
          rcases hsafe with heq | heq
          · rw [heq, hold]
          · exact heq
  · exact hrank
  · intro _
    right
    rcases hbeyond with hlt | ⟨-, hne⟩
    · exact Or.inr hlt
    · exact Or.inl hne

/-- A dequeuer that finds the node beyond its ticket. -/
theorem Access.leave {t : ℕ} (h : Inv (s, a)) (hheld : a.deq t = .held i)
    (hlt : t < (s.array (t % R)).idx) :
  Access i (s, a) s (.miss t)
  := by
  have hsame : s.setNode (t % R) (s.array (t % R)) = s := by
    rw [Shared.setNode, Function.update_eq_self]
  have hmiss : Access i (s, a) (s.setNode (t % R) (s.array (t % R))) (.miss t) := by
    apply Access.miss h hheld (h.node _ (Nat.mod_lt _ R_pos)).cell
    · exact fun _ => ⟨rfl, ne_of_gt hlt⟩
    · rfl
    · exact Or.inl hlt
    · exact fun _ => le_rfl
    · exact Or.inl rfl
    · exact Or.inl rfl
  rwa [hsame] at hmiss

theorem Access.mark {t w val : ℕ} (h : Inv (s, a)) (hheld : a.deq t = .held i) (hval : val ≠ 0)
    (hidx : decodeNodeIdx w < t) (hn : s.array (t % R) = expect w val) :
  Access i (s, a) (s.setNode (t % R) ⟨encodeNodeSafeIdx false (decodeNodeIdx w), val⟩) (.miss t)
  := by
  have hold : (s.array (t % R)).idx = decodeNodeIdx w := by rw [hn, expect_idx]
  have hnew : decodeNodeIdx (encodeNodeSafeIdx false (decodeNodeIdx w)) = decodeNodeIdx w :=
    idx_encode (idx_lt w)
  have hcell : decodeNodeIdx w % R = t % R := by
    rw [← hold]
    exact (h.node (t % R) (Nat.mod_lt t R_pos)).cell
  apply Access.miss h hheld
  · exact (congrArg (· % R) hnew).trans hcell
  · exact fun _ => ⟨hnew.trans hold.symm, fun heq => absurd (hnew.symm.trans heq) (ne_of_lt hidx)⟩
  · rw [hn]
    rfl
  · exact Or.inr ⟨safe_encode .., hval⟩
  · exact fun heq => absurd heq hval
  · exact Or.inr (safe_encode ..)
  · cases hsafe : decodeNodeSafe w with
    | false =>
        left
        rw [hn, expect, hsafe]
    | true =>
        right
        have hbefore : (expect w val).rank = 4 * decodeNodeIdx w + 2 := by
          rw [rank_full hval, expect_idx, expect_safe, hsafe, if_pos rfl]
        have hafter : (Node.mk (encodeNodeSafeIdx false (decodeNodeIdx w)) val).rank
            = 4 * decodeNodeIdx w + 3 := by
          rw [rank_full hval, Node.idx, Node.safe, hnew, safe_encode]
          rfl
        rw [hn, hbefore, hafter]
        exact Nat.lt_succ_self _

theorem Access.skip {t w : ℕ} (h : Inv (s, a)) (hheld : a.deq t = .held i)
    (hlt : t + R < 2 ^ 63) (hidx : decodeNodeIdx w ≤ t) (hn : s.array (t % R) = expect w 0) :
  Access i (s, a)
    (s.setNode (t % R) ⟨encodeNodeSafeIdx (decodeNodeSafe w) (t + R), UNDEFINED_NODE_VAL⟩)
    (.miss t)
  := by
  have hold : (s.array (t % R)).idx = decodeNodeIdx w := by rw [hn, expect_idx]
  have hnew : decodeNodeIdx (encodeNodeSafeIdx (decodeNodeSafe w) (t + R)) = t + R :=
    idx_encode hlt
  have hup : t < t + R := Nat.lt_add_of_pos_right R_pos
  apply Access.miss h hheld
  · rw [Node.idx, hnew, Nat.add_mod_right]
  · exact fun hne => absurd rfl hne
  · rw [hn]
    rfl
  · left
    rw [Node.idx, hnew]
    exact hup
  · intro _
    rw [hold]
    exact (hidx.trans (le_of_lt hup)).trans (le_of_eq hnew.symm)
  · left
    rw [Node.safe, safe_encode, hn, expect_safe]
  · right
    apply rank_lt_of_idx
    rw [hold, Node.idx, hnew]
    exact lt_of_le_of_lt hidx hup

/-! ### The accesses to the counters -/

theorem fetchAdd_tail (hw : s.tail < 2 ^ 64) (hlegal : Legal s) :
  fetchAdd s.tail < 2 ^ 64 ∧ decodeTailT (fetchAdd s.tail) = decodeTailT s.tail + 1 ∧
    decodeTailClosed (fetchAdd s.tail) = decodeTailClosed s.tail
  := by
  apply TopBit.succ_mod hw
  have h : TopBit.body s.tail < 2 ^ 63 - 1 := hlegal.2
  omega

theorem fetchAdd_head (hlegal : Legal s) :
  fetchAdd s.head = s.head + 1
  := by
  have h := hlegal.1
  apply Nat.mod_eq_of_lt
  omega

theorem Access.drawTail {arg : ℕ} (h : Inv (s, a)) (hlegal : Legal s) (harg : arg ≠ 0)
    (hopen : decodeTailClosed s.tail = false) :
  Access i (s, a) { s with tail := fetchAdd s.tail } (.drawTail (decodeTailT s.tail) arg)
  := by
  obtain ⟨hlt, htail, hclosed⟩ := fetchAdd_tail h.word hlegal
  have hok : a.Ok i (.drawTail (decodeTailT s.tail) arg) := ⟨h.closed.trans hopen, h.tail.symm⟩
  apply Access.counters h hok rfl
  · rfl
  · exact h.head
  · exact (congrArg (· + 1) h.tail).trans htail.symm
  · exact h.closed.trans hclosed.symm
  · exact hlt
  · intro t x heq
    cases heq
    exact harg

theorem Access.drawClosed (h : Inv (s, a)) (hlegal : Legal s)
    (hclosed : decodeTailClosed s.tail = true) :
  Access i (s, a) { s with tail := fetchAdd s.tail } .drawClosed
  := by
  obtain ⟨hlt, htail, hclosed'⟩ := fetchAdd_tail h.word hlegal
  have hok : a.Ok i .drawClosed := h.closed.trans hclosed
  apply Access.counters h hok rfl
  · rfl
  · exact h.head
  · exact (congrArg (· + 1) h.tail).trans htail.symm
  · exact h.closed.trans hclosed'.symm
  · exact hlt
  · exact nofun

theorem Access.close (h : Inv (s, a)) :
  Access i (s, a) { s with tail := s.tail ||| CLOSED_BIT } .close
  := by
  obtain ⟨hlt, htail, hclosed⟩ := TopBit.or_bit h.word
  have hok : a.Ok i .close := trivial
  apply Access.counters h hok rfl
  · rfl
  · exact h.head
  · exact h.tail.trans htail.symm
  · exact hclosed.symm
  · exact hlt
  · exact nofun

theorem Access.drawHead (h : Inv (s, a)) (hlegal : Legal s) :
  Access i (s, a) { s with head := fetchAdd s.head } (.drawHead s.head)
  := by
  have hok : a.Ok i (.drawHead s.head) := h.head.symm
  apply Access.counters h hok rfl
  · rfl
  · exact (congrArg (· + 1) h.head).trans (fetchAdd_head hlegal).symm
  · exact h.tail
  · exact h.closed
  · exact h.word
  · exact nofun

/-- Moving an open tail up to a head ticket. -/
theorem Access.jump {t : ℕ} (h : Inv (s, a)) (hlegal : Legal s) (ht : t ≤ s.head)
    (hlt : s.tail < t) :
  Access i (s, a) { s with tail := t } (.jump t)
  := by
  have hhead := hlegal.1
  have hsmall : t < 2 ^ 63 := by omega
  have hbody : decodeTailT t = t := (TopBit.body_eq t).trans (Nat.mod_eq_of_lt hsmall)
  have hopen : ∀ w < 2 ^ 63, decodeTailClosed w = false := by
    intro w hw
    apply (TopBit.flag_eq (hw.trans (by decide))).trans
    exact decide_eq_false (Nat.not_le.mpr hw)
  have hold : decodeTailT s.tail = s.tail :=
    (TopBit.body_eq s.tail).trans (Nat.mod_eq_of_lt (hlt.trans hsmall))
  have hclosed : a.closed = false := h.closed.trans (hopen _ (hlt.trans hsmall))
  have hok : a.Ok i (.jump t) := by
    refine ⟨hclosed, ?_, ?_⟩
    · rw [h.tail, hold]
      exact hlt
    · rw [h.head]
      exact ht
  apply Access.counters h hok rfl
  · rfl
  · exact h.head
  · exact hbody.symm
  · exact hclosed.trans (hopen t hsmall).symm
  · exact hsmall.trans (by decide)
  · exact nofun

/-! ### The steps of the two operations -/

theorem cas2_eq_some {c : ℕ} {expected desired : Node}
    (h : s.cas2 c expected desired = some s') :
  s.array c = expected ∧ s.setNode c desired = s'
  := by
  rw [Shared.cas2] at h
  split at h
  case isTrue heq => exact ⟨heq, Option.some.inj h⟩
  case isFalse => cases h

/-- A drawn ticket is below the tail, and has room. -/
theorem Inv.held_lt {t x : ℕ} (h : Inv (s, a)) (hheld : a.enq t = .held i x) :
  t < 2 ^ 63
  := by
  have hlt : t < a.tail := by
    apply Nat.lt_of_not_le
    intro hle
    cases hheld.symm.trans (h.tickets.enq t hle)
  rw [h.tail] at hlt
  exact hlt.trans (TopBit.body_lt _)

theorem Inv.deq_held_lt {t : ℕ} (h : Inv (s, a)) (hlegal : Legal s) (hheld : a.deq t = .held i) :
  t + R < 2 ^ 63
  := by
  have hlt : t < a.head := by
    apply Nat.lt_of_not_le
    intro hle
    cases hheld.symm.trans (h.tickets.deq t hle)
  rw [show a.head = s.head from h.head] at hlt
  have hhead := hlegal.1
  have hR := R_lt
  omega

/-- Each access of `enqueue` does to the tickets what its tag says. -/
theorem enqueue_spec {pc pc' : Enqueue} (h : Inv (s, a)) (hold : a.Holding i pc.ticket none)
    (hpc : pc.Knows (s, a)) (hlegal : Legal s) (hs : enqueue s pc = some (s', pc', τ)) :
  Access i (s, a) s' τ ∧ Tickets.Draws pc.ticket none τ ∧ pc'.ticket = τ.enqAfter pc.ticket ∧
    τ.deqAfter none = none ∧ pc'.Knows (s', a.apply i τ)
  := by
  cases pc with
  | drawTail arg it =>
      simp only [enqueue] at hs
      split at hs
      case isTrue hclosed =>
        cases hs
        refine ⟨.drawClosed h hlegal hclosed, trivial, rfl, rfl, ?_⟩
        exact h.closed.trans hclosed
      case isFalse hopen =>
        cases hs
        rw [Bool.not_eq_true] at hopen
        exact ⟨.drawTail h hlegal hpc hopen, ⟨rfl, rfl⟩, rfl, rfl, trivial⟩
  | readVal arg it t =>
      cases hs
      exact ⟨.silent h, trivial, rfl, rfl, trivial⟩
  | readSafeAndIdx arg it t val =>
      simp only [enqueue] at hs
      split at hs
      case isTrue hidx =>
        split at hs
        case isTrue hsafe =>
          cases hs
          refine ⟨.silent h, trivial, rfl, rfl, hidx.2, le_rank _, fun hun => ?_⟩
          cases hsafe.symm.trans hun
        case isFalse =>
          cases hs
          exact ⟨.silent h, trivial, rfl, rfl, hidx.2, le_rank _⟩
      case isFalse =>
        cases hs
        exact ⟨.silent h, trivial, rfl, rfl, trivial⟩
  | readHead arg it t w =>
      simp only [enqueue] at hs
      split at hs
      case isTrue hle =>
        cases hs
        refine ⟨.silent h, trivial, rfl, rfl, hpc.1, hpc.2, fun _ _ u htu _ => ?_⟩
        -- no ticket from the head on has been drawn
        have hfree : a.deq u = .free := by
          apply h.tickets.deq
          rw [h.head]
          exact hle.trans htu
        rw [Tickets.apply, hfree]
        rintro ⟨⟩
      case isFalse =>
        cases hs
        exact ⟨.silent h, trivial, rfl, rfl, trivial⟩
  | cas arg it t w =>
      have hheld : a.enq t = .held i arg := (hold.enq t arg).mpr rfl
      obtain ⟨hidx, -, hun⟩ := hpc
      simp only [enqueue] at hs
      split at hs
      case h_1 s₁ hcas =>
        cases hs
        obtain ⟨hn, rfl⟩ := cas2_eq_some hcas
        exact ⟨.install h hheld (h.held_lt hheld) hidx hn (fun hsafe => hun hsafe hn), trivial, rfl,
          rfl, trivial⟩
      case h_2 =>
        cases hs
        exact ⟨.silent h, trivial, rfl, rfl, trivial⟩
  | checkOverflow arg it t =>
      have hheld : a.enq t = .held i arg := (hold.enq t arg).mpr rfl
      have hgive : Access i (s, a) s (.giveUp t) :=
        .stay h ⟨arg, hheld⟩ rfl ⟨rfl, rfl, rfl⟩ (by rintro _ _ ⟨⟩)
      simp only [enqueue] at hs
      split at hs
      · cases hs
        exact ⟨hgive, trivial, rfl, rfl, trivial⟩
      · cases hs
        exact ⟨hgive, trivial, rfl, rfl, h.items t arg (Or.inl ⟨i, hheld⟩)⟩
  | close =>
      cases hs
      exact ⟨.close h, trivial, rfl, rfl, rfl⟩
  | ok => cases hs
  | closed => cases hs

/-- Each access of `dequeue` does to the tickets what its tag says. -/
theorem dequeue_spec {pc pc' : Dequeue} (h : Inv (s, a)) (hold : a.Holding i none pc.ticket)
    (hpc : pc.Knows (s, a)) (hlegal : Legal s) (hs : dequeue s pc = some (s', pc', τ)) :
  Access i (s, a) s' τ ∧ Tickets.Draws none pc.ticket τ ∧
    τ.enqAfter (none : Option (ℕ × ℕ)) = none ∧ pc'.ticket = τ.deqAfter pc.ticket ∧
    pc'.Knows (s', a.apply i τ)
  := by
  cases pc with
  | drawHead =>
      cases hs
      exact ⟨.drawHead h hlegal, ⟨rfl, rfl⟩, rfl, rfl, trivial⟩
  | readVal t =>
      cases hs
      exact ⟨.silent h, trivial, rfl, rfl, trivial⟩
  | readSafeAndIdx t val =>
      have hheld : a.deq t = .held i := (hold.deq t).mpr rfl
      simp only [dequeue] at hs
      split at hs
      case isTrue hlt =>
        cases hs
        exact ⟨.leave h hheld hlt, trivial, rfl, rfl, Function.update_self ..⟩
      case isFalse hle =>
        split at hs
        case isTrue hval =>
          split at hs
          case isTrue hidx =>
            cases hs
            exact ⟨.silent h, trivial, rfl, rfl, hval, hidx⟩
          case isFalse hne =>
            cases hs
            exact ⟨.silent h, trivial, rfl, rfl, hval,
              lt_of_le_of_ne (Nat.le_of_not_lt hle) hne⟩
        case isFalse =>
          cases hs
          exact ⟨.silent h, trivial, rfl, rfl, Nat.le_of_not_lt hle⟩
  | take t w val =>
      have hheld : a.deq t = .held i := (hold.deq t).mpr rfl
      obtain ⟨hval, hidx⟩ := hpc
      simp only [dequeue] at hs
      split at hs
      case h_1 s₁ hcas =>
        cases hs
        obtain ⟨hn, rfl⟩ := cas2_eq_some hcas
        rw [← hidx, ← expect, hidx] at hn
        exact ⟨.take h hheld (h.deq_held_lt hlegal hheld) hidx hval hn, trivial, rfl, rfl, hval⟩
      case h_2 =>
        cases hs
        exact ⟨.silent h, trivial, rfl, rfl, trivial⟩
  | mark t w val =>
      have hheld : a.deq t = .held i := (hold.deq t).mpr rfl
      obtain ⟨hval, hidx⟩ := hpc
      simp only [dequeue] at hs
      split at hs
      case h_1 s₁ hcas =>
        cases hs
        obtain ⟨hn, rfl⟩ := cas2_eq_some hcas
        exact ⟨.mark h hheld hval hidx hn, trivial, rfl, rfl, Function.update_self ..⟩
      case h_2 =>
        cases hs
        exact ⟨.silent h, trivial, rfl, rfl, trivial⟩
  | skip t w =>
      have hheld : a.deq t = .held i := (hold.deq t).mpr rfl
      simp only [dequeue] at hs
      split at hs
      case h_1 s₁ hcas =>
        cases hs
        obtain ⟨hn, rfl⟩ := cas2_eq_some hcas
        exact ⟨.skip h hheld (h.deq_held_lt hlegal hheld) hpc hn, trivial, rfl, rfl,
          Function.update_self ..⟩
      case h_2 =>
        cases hs
        exact ⟨.silent h, trivial, rfl, rfl, trivial⟩
  | readTail t =>
      simp only [dequeue] at hs
      split at hs
      case isTrue hle =>
        cases hs
        rw [← h.tail] at hle
        exact ⟨.stay h ⟨hpc, hle⟩ rfl ⟨rfl, rfl, rfl⟩ nofun, trivial, rfl, rfl, trivial⟩
      case isFalse =>
        cases hs
        exact ⟨.silent h, trivial, rfl, rfl, trivial⟩
  | fixHead =>
      cases hs
      exact ⟨.silent h, trivial, rfl, rfl, le_rfl⟩
  | fixTail t =>
      cases hs
      exact ⟨.silent h, trivial, rfl, rfl, hpc⟩
  | fixCheck t u =>
      simp only [dequeue] at hs
      split at hs
      case isTrue =>
        cases hs
        exact ⟨.silent h, trivial, rfl, rfl, trivial⟩
      case isFalse =>
        split at hs
        case isTrue =>
          cases hs
          exact ⟨.silent h, trivial, rfl, rfl, trivial⟩
        case isFalse hlt =>
          cases hs
          exact ⟨.silent h, trivial, rfl, rfl, hpc, Nat.lt_of_not_le hlt⟩
  | fixCas t u =>
      simp only [dequeue] at hs
      split at hs
      case isTrue heq =>
        cases hs
        obtain ⟨hle, hlt⟩ := hpc
        rw [← heq] at hlt
        exact ⟨.jump h hlegal hle hlt, trivial, rfl, rfl, trivial⟩
      case isFalse =>
        cases hs
        exact ⟨.silent h, trivial, rfl, rfl, trivial⟩
  | gave val => cases hs
  | empty => cases hs

/-! ### The outline -/

theorem init_inv :
  Inv ((init, .new 0) : State ι)
  := by
  constructor
  case tickets => apply Tickets.new_inv
  case head => rfl
  case tail => exact (TopBit.body_eq 0).symm
  case closed =>
    have hzero : 0 < 2 ^ 64 := Nat.two_pow_pos 64
    exact (TopBit.flag_eq hzero).symm
  case word => exact Nat.two_pow_pos 64
  case items => apply Tickets.new_all
  case node =>
    intro c hc
    have hidx : decodeNodeIdx (encodeNodeSafeIdx true c) = c :=
      idx_encode (hc.trans (R_lt.trans (by decide)))
    constructor
    case cell =>
      rw [Node.idx, init, hidx]
      exact Nat.mod_eq_of_lt hc
    case item => exact fun hne => absurd rfl hne
    case full =>
      intro t x _ h
      cases h
    case missed =>
      intro t _ h
      cases h

theorem outline :
  ((machine ι).withGhost (ticketing ι).ghost).Outline Inv Knows Sees
  := by
  constructor
  case init => exact init_inv
  case idle => exact fun i => Tickets.new_holding 0 i
  case call =>
    intro i σ o _ hl hvalid
    cases o with
    | enqueue arg => exact ⟨hl, hvalid⟩
    | dequeue => exact ⟨hl, trivial⟩
  case ret =>
    intro i σ l v _ hl hv
    cases l with
    | enqueue pc =>
        cases pc with
        | ok => exact hl.1
        | closed => exact hl.1
        | _ => cases hv
    | dequeue pc =>
        cases pc with
        | gave val => exact hl.1
        | empty => exact hl.1
        | _ => cases hv
  case step =>
    rintro i ch ⟨s, a⟩ l ⟨s', a'⟩ l' τ hinv hl hlegal - hs
    obtain ⟨hs, hnext⟩ := withGhost_step.mp hs
    obtain rfl : a' = a.apply i τ := hnext
    cases l with
    | enqueue pc =>
        obtain ⟨⟨_, pc', _⟩, hs, heq⟩ := Option.map_eq_some_iff.mp hs
        cases heq
        obtain ⟨hold, hpc⟩ := hl
        obtain ⟨hacc, hdraw, henq, hdeq, hpc'⟩ := enqueue_spec hinv hold hpc hlegal.1 hs
        refine ⟨hacc.inv, ⟨?_, hpc'⟩, fun j hj => hacc.sees hinv hj⟩
        have hold' := hold.step hacc.ok hdraw
        rwa [← henq, hdeq] at hold'
    | dequeue pc =>
        obtain ⟨⟨_, pc', _⟩, hs, heq⟩ := Option.map_eq_some_iff.mp hs
        cases heq
        obtain ⟨hold, hpc⟩ := hl
        obtain ⟨hacc, hdraw, henq, hdeq, hpc'⟩ := dequeue_spec hinv hold hpc hlegal.1 hs
        refine ⟨hacc.inv, ⟨?_, hpc'⟩, fun j hj => hacc.sees hinv hj⟩
        have hold' := hold.step hacc.ok hdraw
        rwa [henq, ← hdeq] at hold'
  case stable => exact fun _ _ hsees hl => hl.keep hsees

/-- The cell of ticket `t` holds `x`, up to the safe bit. -/
def Holds (s : Shared) (t x : ℕ) : Prop :=
  decodeNodeIdx (s.array (t % R)).safeAndIdx = t ∧ (s.array (t % R)).val = x

/-- An access that ends a dequeue with an item is the one that takes it. -/
theorem value_of_step {l l' : Local} {v : ℕ} (hs : (machine ι).step i () s l = some (s', l', τ))
    (hv : (machine ι).result l' = some (.value v)) (hne : v ≠ EMPTY) :
  ∃ t, τ = .take t v
  := by
  cases l with
  | enqueue pc =>
      obtain ⟨⟨_, pc', _⟩, hs, heq⟩ := Option.map_eq_some_iff.mp hs
      cases heq
      cases pc' with
      | _ => cases hv
  | dequeue pc =>
      obtain ⟨⟨_, pc', _⟩, hs, heq⟩ := Option.map_eq_some_iff.mp hs
      cases heq
      cases pc' with
      | gave val =>
          cases hv
          cases pc with
          | take t w val =>
              simp only [dequeue] at hs
              split at hs
              · cases hs
                exact ⟨t, rfl⟩
              · cases hs
          | _ =>
              simp only [dequeue] at hs
              grind
      | empty =>
          cases hv
          exact absurd rfl hne
      | _ => cases hv

theorem sound :
  (ticketing ι).Sound Inv Knows Sees Holds EMPTY
  := by
  constructor
  case outline => exact outline
  case start => exact ⟨0, rfl⟩
  case knows =>
    intro i σ l hl
    cases l with
    | none => exact hl
    | some l =>
        cases l with
        | enqueue pc => exact hl.1
        | dequeue pc => exact hl.1
  case step =>
    rintro i ch ⟨s, a⟩ l s' l' τ hinv hl hlegal hs
    cases l with
    | enqueue pc =>
        obtain ⟨⟨_, pc', _⟩, hs, heq⟩ := Option.map_eq_some_iff.mp hs
        cases heq
        obtain ⟨hacc, hdraw, -⟩ := enqueue_spec hinv hl.1 hl.2 hlegal hs
        exact ⟨hacc.ok, hdraw, rfl⟩
    | dequeue pc =>
        obtain ⟨⟨_, pc', _⟩, hs, heq⟩ := Option.map_eq_some_iff.mp hs
        cases heq
        obtain ⟨hacc, hdraw, -⟩ := dequeue_spec hinv hl.1 hl.2 hlegal hs
        exact ⟨hacc.ok, hdraw, rfl⟩
  case holds =>
    intro σ t x hinv hx htook
    exact (hinv.node _ (Nat.mod_lt _ R_pos)).full t x rfl hx htook
  case fresh =>
    intro o
    cases o with
    | enqueue arg => rfl
    | dequeue => rfl
  case value => exact fun hs hv hne => value_of_step hs hv hne

/-- CRQ is exact: each ticket is held by at most one attempt, an installed item stays in the
node of its ticket until the dequeuer with the same ticket takes it, no item is
returned twice, and none is installed where that dequeuer has left without an item. -/
theorem crq_exact [DecidableEq ι] {n : ℕ} (r : (machine ι).Run n) :
  r.Exact Holds EMPTY
  := sound.exact r

end CRQ
