import ConcurrentQueues.Library.Links
import ConcurrentQueues.Library.Sequential
import ConcurrentQueues.RingQueue.Model

/-!
# A queue of rings with one thread

What a ring has to do for one thread, so that a queue of such rings is a FIFO list for that
thread. The rings from the head on are linked up to the tail, which is the only open one,
and only the ring of the head may be without items. So a dequeue that finds that ring
empty gets an item from the next ring, if there is one.
-/

namespace RingQueue

open Machine

variable {ι ρ ℓ : Type}

/-- What a ring does for thread `i` in up to `N` calls. The state `s` of a ring that is open or not
shows the items of a list when thread `i` has called it at most `n` times. -/
structure SoloRing (M : Machine ι ρ ℓ (RingOp ℕ) (RingRes ℕ) (RingTag ℕ) Unit) (i : ι)
    (N null : ℕ) where
  Shows : Bool → ℕ → ρ → List ℕ → Prop
  busy : ∀ o, M.result (M.start o) = none
  mono : ∀ {b n m s q}, Shows b n s q → n ≤ m → Shows b m s q
  item : ∀ {b n s x q}, Shows b n s (x :: q) → x ≠ null
  init : Shows true 0 M.init []
  first : ∀ {x}, M.valid (.enqueue x) →
    ∃ s', M.Solo i M.init (.enqueue x) .ok s' ∧ Shows true 1 s' [x]
  enqueue : ∀ {n s q x}, Shows true n s q → n ≤ N → M.valid (.enqueue x) →
    (∃ s', M.Solo i s (.enqueue x) .ok s' ∧ Shows true (n + 1) s' (q ++ [x])) ∨
      ∃ s', M.Solo i s (.enqueue x) .closed s' ∧ Shows false (n + 1) s' q
  take : ∀ {b n s x q}, Shows b n s (x :: q) → n ≤ N →
    ∃ s', M.Solo i s .dequeue (.value x) s' ∧ Shows b (n + 1) s' q
  empty : ∀ {b n s}, Shows b n s [] → n ≤ N →
    ∃ s', M.Solo i s .dequeue (.value null) s' ∧ Shows b (n + 1) s' []

/-- A `dequeue` that calls the ring of the head first, and goes on to the next ring when it finds
that ring empty, whatever it does with the ring before. -/
structure SoloDequeue {M : Machine ι ρ ℓ (RingOp ℕ) (RingRes ℕ) (RingTag ℕ) Unit} {i : ι}
    {N null : ℕ} (S : SoloRing M i N null)
    (dequeue : ι → Shared ρ → Dequeue ℓ → Option (Shared ρ × Dequeue ℓ × Tag)) : Prop where
  loadHead : ∀ s item,
    dequeue i s (.loadHead item) = some (s, .ring item s.head (M.start .dequeue), .silent)
  ring : ∀ s item p l, dequeue i s (.ring item p l) = (call M i s p l).map fun (s, l, t) =>
    match M.result l with
    | none => (s, .ring item p l, t)
    | some (.value v) => if v ≠ null then (s, .done v, t) else (s, .loadNext item p, t)
    | some _ => (s, .loadNext item p, t)
  refuse : ∀ {s item p}, s.next p = none →
    dequeue i s (.loadNext item p) = some (s, .refused item, .silent)
  pass : ∀ {b n s item p}, S.Shows b n (s.ring s.head) [] → n ≤ N → s.next s.head = some p →
    ∃ x, (machine M dequeue).Goes i (s, .dequeue (.loadNext item s.head))
      ({ s.setRing s.head x with head := p }, .dequeue (.loadHead item))

variable {M : Machine ι ρ ℓ (RingOp ℕ) (RingRes ℕ) (RingTag ℕ) Unit}
  {dequeue : ι → Shared ρ → Dequeue ℓ → Option (Shared ρ × Dequeue ℓ × Tag)} {i : ι}

theorem goes_enqueue {s s' : Shared ρ} {pc pc' : Enqueue ℓ} {t : Tag} {y : Shared ρ × Local ℓ}
    (hpc : (machine M dequeue).result (.enqueue pc) = none)
    (hs : enqueue M i s pc = some (s', pc', t))
    (hy : (machine M dequeue).Goes i (s', .enqueue pc') y) :
  (machine M dequeue).Goes i (s, .enqueue pc) y
  := by
  have hstep : (machine M dequeue).step i () s (.enqueue pc) = some (s', .enqueue pc', t) :=
    Option.map_eq_some_iff.mpr ⟨_, hs, rfl⟩
  exact hy.step hpc hstep

theorem goes_dequeue {s s' : Shared ρ} {pc pc' : Dequeue ℓ} {t : Tag} {y : Shared ρ × Local ℓ}
    (hpc : (machine M dequeue).result (.dequeue pc) = none)
    (hs : dequeue i s pc = some (s', pc', t))
    (hy : (machine M dequeue).Goes i (s', .dequeue pc') y) :
  (machine M dequeue).Goes i (s, .dequeue pc) y
  := by
  have hstep : (machine M dequeue).step i () s (.dequeue pc) = some (s', .dequeue pc', t) :=
    Option.map_eq_some_iff.mpr ⟨_, hs, rfl⟩
  exact hy.step hpc hstep

/-! ### Calls of a ring -/

variable {s : Shared ρ} {p : ℕ}

@[simp]
theorem setRing_self (s : Shared ρ) (p : ℕ) :
  s.setRing p (s.ring p) = s
  := by
  rw [Shared.setRing, Function.update_eq_self]

@[simp]
theorem setRing_setRing (s : Shared ρ) (p : ℕ) (x y : ρ) :
  (s.setRing p x).setRing p y = s.setRing p y
  := by
  rw [Shared.setRing, Shared.setRing, Shared.setRing, Function.update_idem]

@[simp]
theorem setRing_ring (s : Shared ρ) (p : ℕ) (x : ρ) :
  (s.setRing p x).ring p = x
  := Function.update_self ..

/-- An access of the ring `p` is an access of the queue. -/
theorem call_of_step {x x' : ρ} {l l' : ℓ} {τ : RingTag ℕ}
    (hs : M.step i () x l = some (x', l', τ)) :
  call M i (s.setRing p x) p l = some (s.setRing p x', l', .ring p τ)
  := by
  rw [call, setRing_ring, hs, ← setRing_setRing s p x x']
  rfl

/-- Where an operation of the queue comes that is at `hold l` while the thread is at the point `l`
of a call of a ring, and goes on from `after v` when this call has returned `v`. -/
def arrive (M : Machine ι ρ ℓ (RingOp ℕ) (RingRes ℕ) (RingTag ℕ) Unit) (hold : ℓ → Local ℓ)
    (after : RingRes ℕ → Shared ρ → Shared ρ × Local ℓ) (s : Shared ρ) (l : ℓ) :
    Shared ρ × Local ℓ :=
  match M.result l with
  | none => (s, hold l)
  | some v => after v s

theorem arrive_none {hold : ℓ → Local ℓ} {after : RingRes ℕ → Shared ρ → Shared ρ × Local ℓ} {l : ℓ}
    (h : M.result l = none) :
  arrive M hold after s l = (s, hold l)
  := by rw [arrive, h]

theorem arrive_some {hold : ℓ → Local ℓ} {after : RingRes ℕ → Shared ρ → Shared ρ × Local ℓ} {l : ℓ}
    {v : RingRes ℕ} (h : M.result l = some v) :
  arrive M hold after s l = after v s
  := by rw [arrive, h]

/-- A call of the ring `p` as a part of an operation. -/
theorem goes_ring (hold : ℓ → Local ℓ) {after : RingRes ℕ → Shared ρ → Shared ρ × Local ℓ}
    {o : RingOp ℕ} {v : RingRes ℕ} {x : ρ} {y : Shared ρ × Local ℓ}
    (hbusy : M.result (M.start o) = none)
    (hstep : ∀ s l s' l' t, M.result l = none → call M i s p l = some (s', l', t) →
      (machine M dequeue).Moves i (s, hold l) (arrive M hold after s' l'))
    (h : M.Solo i (s.ring p) o v x)
    (hy : (machine M dequeue).Goes i (after v (s.setRing p x)) y) :
  (machine M dequeue).Goes i (s, hold (M.start o)) y
  := by
  have hmoves : ∀ a b, M.Moves i a b → (machine M dequeue).Moves i
      (arrive M hold after (s.setRing p a.1) a.2) (arrive M hold after (s.setRing p b.1) b.2) := by
    rintro ⟨x, l⟩ ⟨x', l'⟩ ⟨hl, ⟨⟩, τ, hs⟩
    rw [arrive_none hl]
    exact hstep _ _ _ _ _ hl (call_of_step hs)
  obtain ⟨l, hv, hgoes⟩ := h.inner (f := fun a => arrive M hold after (s.setRing p a.1) a.2) hmoves
  rw [arrive_none hbusy, setRing_self, arrive_some hv] at hgoes
  exact hgoes.trans hy

/-- Where `enqueue` goes on when the ring of the tail has answered. -/
def afterRing (M : Machine ι ρ ℓ (RingOp ℕ) (RingRes ℕ) (RingTag ℕ) Unit) (x crq : ℕ) :
    RingRes ℕ → Shared ρ → Shared ρ × Local ℓ
  | .closed, s => ({ s with fresh := s.fresh + 1 },
      .enqueue (.newRing x crq s.fresh (M.start (.enqueue x))))
  | _, s => (s, .enqueue (.done x))

/-- Where `dequeue` goes on when the ring of the head has answered. -/
def afterHead (null item crq : ℕ) : RingRes ℕ → Shared ρ → Shared ρ × Local ℓ
  | .value v, s => if v ≠ null then (s, .dequeue (.done v)) else (s, .dequeue (.loadNext item crq))
  | _, s => (s, .dequeue (.loadNext item crq))

variable {x crq newcrq item N null : ℕ}

theorem moves_ring {s s' : Shared ρ} {l l' : ℓ} {t : Tag}
    (hcall : call M i s crq l = some (s', l', t)) :
  (machine M dequeue).Moves i (s, .enqueue (.ring x crq l))
    (arrive M (fun l => .enqueue (.ring x crq l)) (afterRing M x crq) s' l')
  := by
  refine ⟨rfl, (), t, ?_⟩
  apply Option.map_eq_some_iff.mpr
  cases hv : M.result l' with
  | none =>
      refine ⟨(s', .ring x crq l', t), ?_, by rw [arrive_none hv]⟩
      simp only [enqueue, hcall, Option.map_some, hv]
  | some v =>
      rw [arrive_some hv]
      cases v with
      | closed =>
          refine ⟨({ s' with fresh := s'.fresh + 1 },
            .newRing x crq s'.fresh (M.start (.enqueue x)), t), ?_, rfl⟩
          simp only [enqueue, hcall, Option.map_some, hv]
      | ok | value v =>
          refine ⟨(s', .done x, t), ?_, rfl⟩
          simp only [enqueue, hcall, Option.map_some, hv]

theorem moves_newRing {s s' : Shared ρ} {l l' : ℓ} {t : Tag}
    (hcall : call M i s newcrq l = some (s', l', t)) :
  (machine M dequeue).Moves i (s, .enqueue (.newRing x crq newcrq l))
    (arrive M (fun l => .enqueue (.newRing x crq newcrq l))
      (fun _ s => (s, .enqueue (.link x crq newcrq))) s' l')
  := by
  refine ⟨rfl, (), t, ?_⟩
  apply Option.map_eq_some_iff.mpr
  cases hv : M.result l' with
  | none =>
      refine ⟨(s', .newRing x crq newcrq l', t), ?_, by rw [arrive_none hv]⟩
      simp only [enqueue, hcall, Option.map_some, hv]
  | some v =>
      refine ⟨(s', .link x crq newcrq, t), ?_, by rw [arrive_some hv]⟩
      simp only [enqueue, hcall, Option.map_some, hv]

variable {S : SoloRing M i N null}

theorem SoloDequeue.moves_ring (hD : SoloDequeue S dequeue) {s s' : Shared ρ} {l l' : ℓ} {t : Tag}
    (hcall : call M i s crq l = some (s', l', t)) :
  (machine M dequeue).Moves i (s, .dequeue (.ring item crq l))
    (arrive M (fun l => .dequeue (.ring item crq l)) (afterHead null item crq) s' l')
  := by
  refine ⟨rfl, (), t, ?_⟩
  apply Option.map_eq_some_iff.mpr
  simp only [hD.ring, hcall, Option.map_some]
  cases hv : M.result l' with
  | none => exact ⟨_, rfl, by rw [arrive_none hv]⟩
  | some v =>
      rw [arrive_some hv]
      cases v with
      | value v =>
          by_cases hnull : v = null
          · exact ⟨_, rfl, by simp [afterHead, hnull]⟩
          · exact ⟨_, rfl, by simp [afterHead, hnull]⟩
      | ok | closed => exact ⟨_, rfl, rfl⟩

/-! ### The rings -/

/-- The rings from the head to the tail, with their items. -/
structure Rings (S : SoloRing M i N null) (n : ℕ) (s : Shared ρ) (names : List ℕ)
    (items : ℕ → List ℕ) : Prop where
  links : Links s.next (some s.head) names
  last : ∃ front, names = front ++ [s.tail]
  ring : ∀ p ∈ names, S.Shows (decide (p = s.tail)) n (s.ring p) (items p)
  filled : ∀ p ∈ names, p ≠ s.head → items p ≠ []
  below : ∀ p ∈ names, p < s.fresh
  new : ∀ p, s.fresh ≤ p → s.ring p = M.init ∧ s.next p = none

/-- The queue with the items `q`, after `n` calls. -/
def Shows (S : SoloRing M i N null) (n : ℕ) (s : Shared ρ) (q : List ℕ) : Prop :=
  ∃ names items, Rings S n s names items ∧ q = names.flatMap items

variable {n : ℕ} {names : List ℕ} {items : ℕ → List ℕ} {q l : List ℕ} {r : ρ}

theorem Rings.mem_tail (h : Rings S n s names items) :
  s.tail ∈ names
  := by
  obtain ⟨front, rfl⟩ := h.last
  exact List.mem_append_right front List.mem_cons_self

/-- The ring of the head comes first. -/
theorem Rings.head (h : Rings S n s names items) :
  ∃ rest, names = s.head :: rest
  := by
  have hlinks := h.links
  cases names with
  | nil => cases hlinks
  | cons p rest =>
      obtain rfl := Option.some.inj hlinks.1
      exact ⟨rest, rfl⟩

theorem Rings.next_tail (h : Rings S n s names items) :
  s.next s.tail = none
  := by
  obtain ⟨front, rfl⟩ := h.last
  exact h.links.last

/-- A call changes one of the rings. -/
theorem Rings.setRing (h : Rings S n s names items) (hp : p ∈ names)
    (hr : S.Shows (decide (p = s.tail)) (n + 1) r l) (hl : p ≠ s.head → l ≠ []) :
  Rings S (n + 1) (s.setRing p r) names (Function.update items p l)
  := by
  constructor
  case links => exact h.links
  case last => exact h.last
  case ring =>
    intro k hk
    by_cases hkp : k = p
    · subst hkp
      rw [setRing_ring, Function.update_self]
      exact hr
    · rw [Function.update_of_ne hkp, show (s.setRing p r).ring k = s.ring k from
        Function.update_of_ne hkp ..]
      exact S.mono (h.ring k hk) (Nat.le_succ n)
  case filled =>
    intro k hk hhead
    by_cases hkp : k = p
    · subst hkp
      rw [Function.update_self]
      exact hl hhead
    · rw [Function.update_of_ne hkp]
      exact h.filled k hk hhead
  case below => exact h.below
  case new =>
    intro k hk
    have hkp : k ≠ p := ne_of_gt (lt_of_lt_of_le (h.below p hp) hk)
    rw [show (s.setRing p r).ring k = s.ring k from Function.update_of_ne hkp ..]
    exact h.new k hk

theorem flatMap_update (hp : p ∉ names) :
  names.flatMap (Function.update items p l) = names.flatMap items
  := by
  apply List.flatMap_congr
  intro k hk
  rw [Function.update_of_ne (ne_of_mem_of_not_mem hk hp)]

/-- The first ring changes the front of the queue. -/
theorem Rings.flatMap_head {rest : List ℕ} (h : Rings S n s (s.head :: rest) items) :
  (s.head :: rest).flatMap (Function.update items s.head l) = l ++ rest.flatMap items
  := by
  rw [List.flatMap_cons, Function.update_self, flatMap_update (List.nodup_cons.mp h.links.nodup).1]

/-- The last ring changes the end of the queue. -/
theorem Rings.flatMap_tail {front : List ℕ} (h : Rings S n s (front ++ [s.tail]) items) :
  (front ++ [s.tail]).flatMap (Function.update items s.tail l) = front.flatMap items ++ l
  := by
  have hnot : s.tail ∉ front := by
    intro hmem
    exact (List.nodup_append.mp h.links.nodup).2.2 s.tail hmem s.tail List.mem_cons_self rfl
  rw [List.flatMap_append, flatMap_update hnot, List.flatMap_singleton, Function.update_self]

/-! ### An enqueue -/

/-- The ring `r` of the tail has been closed, and a new ring `r'` is linked behind it. -/
def Shared.extend (s : Shared ρ) (r r' : ρ) : Shared ρ where
  head := s.head
  tail := s.fresh
  ring := Function.update (Function.update s.ring s.tail r) s.fresh r'
  next := Function.update s.next s.tail (some s.fresh)
  fresh := s.fresh + 1

theorem Rings.extend {r' : ρ} (h : Rings S n s names items)
    (hr : S.Shows false (n + 1) r (items s.tail)) (hr' : S.Shows true (n + 1) r' [x]) :
  Rings S (n + 1) (s.extend r r') (names ++ [s.fresh]) (Function.update items s.fresh [x])
  := by
  have htail := h.below s.tail h.mem_tail
  have hold : ∀ p ∈ names, p ≠ s.fresh := fun p hp => Nat.ne_of_lt (h.below p hp)
  constructor
  case links =>
    have hlinks := h.links
    have hnodup := hlinks.nodup
    obtain ⟨front, rfl⟩ := h.last
    apply hlinks.concat
    · intro p hp
      apply Function.update_of_ne
      exact (List.nodup_append.mp hnodup).2.2 p hp s.tail List.mem_cons_self
    · exact Function.update_self ..
    · exact (Function.update_of_ne (Nat.ne_of_gt htail) ..).trans (h.new s.fresh le_rfl).2
  case last => exact ⟨names, rfl⟩
  case ring =>
    intro p hp
    rcases List.mem_append.mp hp with hp | hp
    · have hne := hold p hp
      have hopen : decide (p = (s.extend r r').tail) = false := decide_eq_false hne
      have hring : (s.extend r r').ring p = Function.update s.ring s.tail r p :=
        Function.update_of_ne hne ..
      rw [hopen, hring, Function.update_of_ne hne]
      by_cases hpt : p = s.tail
      · subst hpt
        rw [Function.update_self]
        exact hr
      · rw [Function.update_of_ne hpt]
        have hshows := h.ring p hp
        rw [decide_eq_false hpt] at hshows
        exact S.mono hshows (Nat.le_succ n)
    · obtain rfl := List.mem_singleton.mp hp
      have hopen : decide (s.fresh = (s.extend r r').tail) = true := decide_eq_true rfl
      have hring : (s.extend r r').ring s.fresh = r' := Function.update_self ..
      rw [hopen, hring, Function.update_self]
      exact hr'
  case filled =>
    intro p hp hhead
    rcases List.mem_append.mp hp with hp | hp
    · rw [Function.update_of_ne (hold p hp)]
      exact h.filled p hp hhead
    · obtain rfl := List.mem_singleton.mp hp
      rw [Function.update_self]
      exact List.cons_ne_nil x []
  case below =>
    intro p hp
    rcases List.mem_append.mp hp with hp | hp
    · exact Nat.lt_succ_of_lt (h.below p hp)
    · obtain rfl := List.mem_singleton.mp hp
      exact Nat.lt_succ_self _
  case new =>
    intro p hp
    have hle : s.fresh < p := hp
    obtain ⟨hring, hnext⟩ := h.new p (le_of_lt hle)
    have hpt : p ≠ s.tail := Nat.ne_of_gt (htail.trans hle)
    constructor
    · exact (Function.update_of_ne (Nat.ne_of_gt hle) ..).trans
        ((Function.update_of_ne hpt ..).trans hring)
    · exact (Function.update_of_ne hpt ..).trans hnext

/-- An enqueue comes to the ring of the tail. -/
theorem Rings.goes_enqueue {v : RingRes ℕ} {y : Shared ρ × Local ℓ} (h : Rings S n s names items)
    (hr : M.Solo i (s.ring s.tail) (.enqueue x) v r)
    (hy : (machine M dequeue).Goes i (afterRing M x s.tail v (s.setRing s.tail r)) y) :
  (machine M dequeue).Goes i (s, .enqueue (.loadTail x)) y
  := by
  have hnext := h.next_tail
  have hload : enqueue M i s (.loadNext x s.tail) =
      some (s, .ring x s.tail (M.start (.enqueue x)), .silent) := by
    rw [enqueue, if_neg (not_not.mpr hnext)]
  apply RingQueue.goes_enqueue rfl rfl
  apply RingQueue.goes_enqueue rfl hload
  exact goes_ring (fun l => .enqueue (.ring x s.tail l)) (S.busy _)
    (fun _ _ _ _ _ _ => moves_ring) hr hy

/-- An enqueue puts its item at the end, in the ring of the tail or in a new one. -/
theorem solo_enqueue (h : Shows S n s q) (hn : n ≤ N) (hx : M.valid (.enqueue x)) :
  ∃ s', (machine M dequeue).Solo i s (.enqueue x) .enqueued s' ∧ Shows S (n + 1) s' (q ++ [x])
  := by
  obtain ⟨names, items, h, rfl⟩ := h
  have htail := h.ring s.tail h.mem_tail
  rw [decide_eq_true rfl] at htail
  rcases S.enqueue htail hn hx with ⟨r, hr, hshows⟩ | ⟨r, hr, hshows⟩
  · use s.setRing s.tail r
    constructor
    · exact ⟨.enqueue (.done x), h.goes_enqueue hr .refl, rfl⟩
    · rw [← decide_eq_true (Eq.refl s.tail)] at hshows
      refine ⟨names, _, h.setRing h.mem_tail hshows fun _ => List.concat_ne_nil x _, ?_⟩
      obtain ⟨front, rfl⟩ := h.last
      rw [h.flatMap_tail, List.flatMap_append, List.flatMap_singleton, List.append_assoc]
  · -- the ring of the tail is closed now
    obtain ⟨r', hr', hshows'⟩ := S.first hx
    have hfresh := h.new s.fresh le_rfl
    have hlt := h.below s.tail h.mem_tail
    use s.extend r r'
    constructor
    · use .enqueue (.done x)
      refine ⟨h.goes_enqueue hr ?_, rfl⟩
      let s₁ : Shared ρ := { s.setRing s.tail r with fresh := s.fresh + 1 }
      let s₂ : Shared ρ := { s₁.setRing s.fresh r' with
        next := Function.update s.next s.tail (some s.fresh) }
      have hring : s₁.ring s.fresh = M.init :=
        (Function.update_of_ne (Nat.ne_of_gt hlt) ..).trans hfresh.1
      have hnew : M.Solo i (s₁.ring s.fresh) (.enqueue x) .ok r' := by rwa [hring]
      have hlink : enqueue M i (s₁.setRing s.fresh r') (.link x s.tail s.fresh) =
          some (s₂, .swingTail x s.tail s.fresh, .link s.fresh) := by
        rw [enqueue]
        exact if_pos h.next_tail
      have hswing : enqueue M i s₂ (.swingTail x s.tail s.fresh) =
          some (s.extend r r', .done x, .swingTail) := by
        rw [enqueue]
        exact if_pos rfl
      apply goes_ring (fun l => .enqueue (.newRing x s.tail s.fresh l)) (S.busy _)
        (fun _ _ _ _ _ _ => moves_newRing) hnew
      apply goes_enqueue rfl hlink
      exact goes_enqueue rfl hswing .refl
    · refine ⟨_, _, h.extend hshows (S.mono hshows' (Nat.le_add_left 1 n)), ?_⟩
      have hnot : s.fresh ∉ names := fun hmem => lt_irrefl _ (h.below s.fresh hmem)
      rw [List.flatMap_append, flatMap_update hnot, List.flatMap_singleton, Function.update_self]

/-! ### A dequeue -/

/-- The head has moved on from a ring without items. -/
theorem Rings.drop {rest : List ℕ} (h : Rings S n s (s.head :: p :: rest) items) (r : ρ) :
  Rings S n { s.setRing s.head r with head := p } (p :: rest) items
  := by
  have hnodup := List.nodup_cons.mp h.links.nodup
  have hne : ∀ k ∈ p :: rest, k ≠ s.head := fun k hk => ne_of_mem_of_not_mem hk hnodup.1
  have hring : ∀ k, k ≠ s.head → (s.setRing s.head r).ring k = s.ring k :=
    fun k hk => Function.update_of_ne hk ..
  constructor
  case links => exact ⟨rfl, h.links.2.2⟩
  case last =>
    obtain ⟨front, hfront⟩ := h.last
    cases front with
    | nil => cases (List.cons.inj hfront).2
    | cons k front => exact ⟨front, (List.cons.inj hfront).2⟩
  case ring =>
    intro k hk
    have hshows := h.ring k (List.mem_cons_of_mem _ hk)
    rwa [← hring k (hne k hk)] at hshows
  case filled => exact fun k hk _ => h.filled k (List.mem_cons_of_mem _ hk) (hne k hk)
  case below => exact fun k hk => h.below k (List.mem_cons_of_mem _ hk)
  case new =>
    intro k hk
    have hhead := h.below s.head List.mem_cons_self
    obtain ⟨hinit, hnext⟩ := h.new k hk
    exact ⟨(hring k (Nat.ne_of_gt (lt_of_lt_of_le hhead hk))).trans hinit, hnext⟩

/-- A dequeue comes to the ring of the head. -/
theorem SoloDequeue.goes_head (hD : SoloDequeue S dequeue) {v : RingRes ℕ} {y : Shared ρ × Local ℓ}
    (hr : M.Solo i (s.ring s.head) .dequeue v r)
    (hy : (machine M dequeue).Goes i (afterHead null item s.head v (s.setRing s.head r)) y) :
  (machine M dequeue).Goes i (s, .dequeue (.loadHead item)) y
  := by
  apply goes_dequeue rfl (hD.loadHead s item)
  exact goes_ring (fun l => .dequeue (.ring item s.head l)) (S.busy _)
    (fun _ _ _ _ _ _ => hD.moves_ring) hr hy

/-- When the ring of the head has items, a dequeue returns the first one. -/
theorem Rings.goes_take (h : Rings S n s names items) (hD : SoloDequeue S dequeue) (hn : n ≤ N)
    (hhead : items s.head = x :: l) (item : ℕ) :
  ∃ q s', names.flatMap items = x :: q ∧ Shows S (n + 1) s' q ∧
    (machine M dequeue).Goes i (s, .dequeue (.loadHead item)) (s', .dequeue (.done x))
  := by
  obtain ⟨rest, rfl⟩ := h.head
  have hring := h.ring s.head List.mem_cons_self
  rw [hhead] at hring
  obtain ⟨r, hr, hshows⟩ := S.take hring hn
  refine ⟨l ++ rest.flatMap items, s.setRing s.head r, ?_, ?_, ?_⟩
  · rw [List.flatMap_cons, hhead, List.cons_append]
  · use s.head :: rest, Function.update items s.head l
    use h.setRing List.mem_cons_self hshows fun hne => absurd rfl hne
    rw [h.flatMap_head]
  · apply hD.goes_head hr
    rw [afterHead, if_pos (S.item hring)]
    exact .refl

/-- A dequeue returns the first item, from the ring of the head or from the next one, or it returns
false. -/
theorem solo_dequeue (h : Shows S n s q) (hD : SoloDequeue S dequeue) (hn : n < N) :
  ∃ s', (machine M dequeue).Solo i s (.dequeue item) (fifo q (.dequeue item)).1 s' ∧
    Shows S (n + 1) s' (fifo q (.dequeue item)).2
  := by
  obtain ⟨names, items, h, rfl⟩ := h
  cases hhead : items s.head with
  | cons x l =>
      obtain ⟨q, s', hq, hshows, hgoes⟩ := h.goes_take hD (le_of_lt hn) hhead item
      rw [hq]
      exact ⟨s', ⟨.dequeue (.done x), hgoes, rfl⟩, hshows⟩
  | nil =>
      obtain ⟨rest, rfl⟩ := h.head
      have hring := h.ring s.head List.mem_cons_self
      rw [hhead] at hring
      obtain ⟨r, hr, hempty⟩ := S.empty hring (le_of_lt hn)
      have hgoes : ∀ y, (machine M dequeue).Goes i
          (s.setRing s.head r, .dequeue (.loadNext item s.head)) y →
          (machine M dequeue).Goes i (s, .dequeue (.loadHead item)) y := by
        intro y hy
        apply hD.goes_head hr
        rwa [afterHead, if_neg (not_not.mpr rfl)]
      cases rest with
      | nil =>
          have hnext : s.next s.head = none := h.links.2
          use s.setRing s.head r
          rw [List.flatMap_singleton, hhead]
          constructor
          · use .dequeue (.refused item)
            exact ⟨hgoes _ (goes_dequeue rfl (hD.refuse hnext) .refl), rfl⟩
          · use [s.head], Function.update items s.head []
            use h.setRing List.mem_cons_self hempty fun hne => absurd rfl hne
            rw [h.flatMap_head]
            rfl
      | cons p rest =>
          have hnext : s.next s.head = some p := h.links.2.1
          have hempty' : S.Shows (decide (s.head = s.tail)) (n + 1)
              ((s.setRing s.head r).ring (s.setRing s.head r).head) [] := by
            rw [show (s.setRing s.head r).head = s.head from rfl, setRing_ring]
            exact hempty
          obtain ⟨r', hpass⟩ := hD.pass hempty' hn hnext
          rw [show (s.setRing s.head r).head = s.head from rfl, setRing_setRing] at hpass
          have hdrop := h.drop r'
          have hfilled : items p ≠ [] := by
            apply h.filled p (List.mem_cons_of_mem _ List.mem_cons_self)
            rintro rfl
            exact (List.nodup_cons.mp h.links.nodup).1 List.mem_cons_self
          obtain ⟨x, l, hp⟩ := List.exists_cons_of_ne_nil hfilled
          obtain ⟨q, s', hq, hshows, htake⟩ := hdrop.goes_take hD (le_of_lt hn) hp item
          rw [List.flatMap_cons, hhead, List.nil_append, hq]
          exact ⟨s', ⟨.dequeue (.done x), hgoes _ (hpass.trans htake), rfl⟩, hshows⟩

/-- A queue of rings is a FIFO list for one thread. -/
theorem implements_fifo (S : SoloRing M i N null) (hD : SoloDequeue S dequeue) :
  (machine M dequeue).Implements i N fifo []
  := by
  apply implements_of_rep fun n s q => Shows S n s q
  · refine ⟨[0], fun _ => [], ?_, rfl⟩
    constructor
    case links => exact ⟨rfl, rfl⟩
    case last => exact ⟨[], rfl⟩
    case ring =>
      intro p hp
      obtain rfl := List.mem_singleton.mp hp
      exact S.init
    case filled => exact fun p hp hne => absurd (List.mem_singleton.mp hp) hne
    case below =>
      intro p hp
      rw [List.mem_singleton.mp hp]
      exact Nat.zero_lt_one
    case new => exact fun _ _ => ⟨rfl, rfl⟩
  · intro n hn s q o hvalid h
    cases o with
    | enqueue x => exact solo_enqueue h (le_of_lt hn) hvalid
    | dequeue item => exact solo_dequeue h hD hn

end RingQueue
