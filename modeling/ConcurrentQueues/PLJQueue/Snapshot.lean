import ConcurrentQueues.PLJQueue.Linearizable

/-!
# The snapshot of PLJQueue is atomic

`Snapshot` reads head, tail and the field `nextobject` of the last object one after the
other. Every change of head and tail increments its counter, so a pointer that is read a
second time with the same value has not changed in between. The tail was the same around the
reading of `nextobject`, and the head was the same around both.
-/

namespace PLJQueue

open Machine

variable {ι V : Type}

/-- The point of `Snapshot` at which a thread is. -/
def Local.snapshot : Local V → Option Snapshot
  | .enqueue (.snapshot _ _ pc) => some pc
  | .dequeue (.snapshot _ pc) => some pc
  | _ => none

/-- The field `nextobject` of the object to which the tail points. -/
def Shared.tailNext (s : Shared V) : Pointer :=
  match s.tail.ptr with
  | none => .default
  | some p => (s.object p).nextobject

/-- The state in which the queue is. -/
def Shared.state (s : Shared V) : ℕ := determineState s.head s.tail s.tailNext

/-- When the tail is null the third pointer does not matter. -/
theorem determineState_null {h t : Pointer} (ht : t.ptr = none) (n n' : Pointer) :
  determineState h t n = determineState h t n'
  := by
  have hsame : ¬ (h.ptr ≠ none ∧ h.ptr = t.ptr) := fun heq => heq.1 (heq.2.trans ht)
  have hapart : ¬ (h.ptr ≠ none ∧ t.ptr ≠ none ∧ h.ptr ≠ t.ptr) := fun heq => heq.2.1 ht
  rw [determineState, determineState, if_neg hsame, if_neg hsame, if_neg hapart, if_neg hapart]

section points

variable {item : V} {object : ℕ} {head tail next : Pointer} {pc pc' : Snapshot} {s s' : Shared V}

theorem Enqueue.switch_snapshot
    (h : (Local.enqueue (Enqueue.switch item object head tail next)).snapshot
    = some pc) :
  pc = .start
  := by
  rw [Enqueue.switch] at h
  split at h <;> cases h
  rfl

theorem Dequeue.switch_snapshot (h : (Local.dequeue (Dequeue.switch item head tail next)).snapshot
    = some pc) :
  pc = .start
  := by
  rw [Dequeue.switch] at h
  split at h <;> cases h
  rfl

theorem Enqueue.afterSnapshot_snapshot
    (h : (Local.enqueue (Enqueue.afterSnapshot item object pc)).snapshot = some pc') :
  pc' = .start ∨ pc' = pc
  := by
  cases pc with
  | done head tail next => exact Or.inl (Enqueue.switch_snapshot h)
  | _ =>
      cases h
      exact Or.inr rfl

theorem Dequeue.afterSnapshot_snapshot
    (h : (Local.dequeue (Dequeue.afterSnapshot item pc)).snapshot = some pc') :
  pc' = .start ∨ pc' = pc
  := by
  cases pc with
  | done head tail next => exact Or.inl (Dequeue.switch_snapshot h)
  | _ =>
      cases h
      exact Or.inr rfl

theorem Dequeue.extract_snapshot {p : Option ℕ} :
  (Local.dequeue (Dequeue.extract item p)).snapshot = none
  := by
  cases p with
  | none => rfl
  | some p => rfl

/-- A step that leads to a point of `Snapshot` begins it or is an access of it. -/
theorem step_snapshot [Inhabited V] {i : ι} {ch : Unit} {l l' : Local V} {g : Tag}
    (hs : (machine ι V).step i ch s l = some (s', l', g)) (hl' : l'.snapshot = some pc') :
  pc' = .start ∨ ∃ pc t, l.snapshot = some pc ∧ snapshot s pc = some (pc', t)
  := by
  rcases step_inv hs with ⟨pc, pc₁, rfl, rfl, hpc⟩ | ⟨pc, pc₁, rfl, rfl, hpc⟩
  · cases pc with
    | snapshot item object pc =>
        obtain ⟨⟨pc₂, t⟩, hpc, heq⟩ := Option.map_eq_some_iff.mp hpc
        cases heq
        rcases Enqueue.afterSnapshot_snapshot hl' with rfl | rfl
        · exact Or.inl rfl
        · exact Or.inr ⟨pc, _, rfl, hpc⟩
    | new item =>
        cases hpc
        cases hl'
    | storeNext item object =>
        cases hpc
        cases hl'
        exact Or.inl rfl
    | link item object tail next =>
        obtain ⟨p, -, heq⟩ := Option.map_eq_some_iff.mp hpc
        split at heq
        · cases heq
          cases hl'
        · cases heq
          cases hl'
          exact Or.inl rfl
    | done item => cases hpc
    | _ =>
        simp only [enqueue] at hpc
        split at hpc
        · cases hpc
          cases hl' <;> exact Or.inl rfl
        · cases hpc
          cases hl' <;> exact Or.inl rfl
  · cases pc with
    | snapshot item pc =>
        obtain ⟨⟨pc₂, t⟩, hpc, heq⟩ := Option.map_eq_some_iff.mp hpc
        cases heq
        rcases Dequeue.afterSnapshot_snapshot hl' with rfl | rfl
        · exact Or.inl rfl
        · exact Or.inr ⟨pc, _, rfl, hpc⟩
    | shiftHead item head next =>
        simp only [dequeue] at hpc
        split at hpc
        · cases hpc
          cases Dequeue.extract_snapshot.symm.trans hl'
        · cases hpc
          cases hl'
          exact Or.inl rfl
    | mark item head tail next =>
        obtain ⟨p, -, heq⟩ := Option.map_eq_some_iff.mp hpc
        split at heq
        · cases heq
          cases hl'
        · cases heq
          cases hl'
          exact Or.inl rfl
    | markHead item object head =>
        simp only [dequeue] at hpc
        split at hpc
        · cases hpc
          cases Dequeue.extract_snapshot.symm.trans hl'
        · cases hpc
          cases Dequeue.extract_snapshot.symm.trans hl'
    | loadHeadNext item head | loadTailNext item tail =>
        obtain ⟨p, -, heq⟩ := Option.map_eq_some_iff.mp hpc
        cases heq
        cases hl'
    | delinkLoad item object | delinkStore item object oldNext | readData item object =>
        cases hpc
        cases hl'
    | refused item | done item => cases hpc
    | _ =>
        simp only [dequeue] at hpc
        split at hpc
        · cases hpc
          cases hl' <;> exact Or.inl rfl
        · cases hpc
          cases hl' <;> exact Or.inl rfl

end points

variable [Inhabited V] [DecidableEq ι] {n : ℕ} (r : (machine ι V).Run n)

/-! ### Pointers that have not changed -/

/-- A pointer that is not changed is the same. -/
theorem eq_of_changes {f : Shared V → Pointer} {j k : ℕ} (hjk : j ≤ k)
    (h : changes r f j = changes r f k) :
  f (r.conf k).shared = f (r.conf j).shared
  := by
  induction hjk with
  | refl => rfl
  | @step k hjk ih =>
      have hle := changes_le r f hjk
      have hsucc := changes_le r f (Nat.le_succ k)
      rw [← ih (by omega)]
      by_contra hne
      rw [changes_succ, count, if_neg hne] at h
      omega

/-- A pointer whose counter has not come round, and that is the same at two moments, has been the
same all the time. -/
theorem steady {f : Shared V → Pointer} (hbound : changes r f n < 2 ^ 32)
    (hcounts : ∀ k ≤ n, Counts (changes r f k) (f (r.conf k).shared)) {j k m : ℕ} (hjk : j ≤ k)
    (hkm : k ≤ m) (hm : m ≤ n) (heq : f (r.conf m).shared = f (r.conf j).shared) :
  f (r.conf k).shared = f (r.conf j).shared
  := by
  have hjn := hjk.trans (hkm.trans hm)
  have hj : (f (r.conf j).shared).count.counter = UInt32.ofNat (changes r f j) := hcounts j hjn
  have hcount : changes r f j = changes r f m := by
    have h : (f (r.conf m).shared).count.counter = UInt32.ofNat (changes r f m) := hcounts m hm
    rw [heq, hj] at h
    have h := congrArg UInt32.toNat h
    rwa [UInt32.toNat_ofNat_of_lt' (lt_of_le_of_lt (changes_le r f hjn) hbound),
      UInt32.toNat_ofNat_of_lt' (lt_of_le_of_lt (changes_le r f hm) hbound)] at h
  apply eq_of_changes r hjk
  apply le_antisymm (changes_le r f hjk)
  rw [hcount]
  exact changes_le r f hkm

/-! ### The moment of a snapshot -/

/-- Up to step `k` thread `i` has not begun to read the head again since step `j`. -/
def Since (i : ι) (j k : ℕ) : Prop :=
  ∀ c ≤ k, ∀ l next, (r.conf c).thread i = some l → l.snapshot = some (.loadHead next) → c ≤ j

/-- At step `j` the tail was `t`, and the object behind it had `next` in its field `nextobject`. -/
def TailSeen (t next : Pointer) (j : ℕ) : Prop :=
  (r.conf j).shared.tail = t ∧
    ∀ p, t.ptr = some p → ((r.conf j).shared.object p).nextobject = next

/-- When a thread at a point of `Snapshot` has read what it knows. -/
def ReadAt (i : ι) (k : ℕ) : Snapshot → Prop
  | .loadHead _ | .done _ _ _ => True
  | .loadTail h _ => ∃ j < k, Since r i j k ∧ (r.conf j).shared.head = h
  | .loadNext h t _ => ∃ j < k, Since r i j k ∧ (r.conf j).shared.head = h ∧
      ∃ m < k, j ≤ m ∧ (r.conf m).shared.tail = t
  | .checkTail h t next => ∃ j < k, Since r i j k ∧ (r.conf j).shared.head = h ∧
      ∃ m < k, j ≤ m ∧ (r.conf m).shared.tail = t ∧ ∃ e < k, m ≤ e ∧
        ∀ p, t.ptr = some p → ((r.conf e).shared.object p).nextobject = next
  | .checkHead h t next => ∃ j < k, Since r i j k ∧ (r.conf j).shared.head = h ∧
      ∃ m < k, j ≤ m ∧ TailSeen r t next m

/-- The call of `Snapshot` which thread `i` begins at step `c` returns `h`, `t` and `next` at step
`k`. -/
structure Snapshots (i : ι) (c k : ℕ) (h t next : Pointer) : Prop where
  le : c ≤ k
  begins : r.who c = i ∧ ∃ l, (r.conf c).thread i = some l ∧ l.snapshot = some .start
  inside : ∀ j, c ≤ j → j ≤ k → ∃ l, (r.conf j).thread i = some l ∧ l.snapshot ≠ none
  returns : ∃ g, r.Acts i g k ∧ ∃ l pc, (r.conf k).thread i = some l ∧ l.snapshot = some pc ∧
    snapshot (r.conf k).shared pc = some (.done h t next, g)

/-- Whatever a call of `Snapshot` returns was in the memory at one moment of the call, and
`determineState` tells the state in which the queue was then. -/
def SnapshotsAtomic : Prop :=
  ∀ i c k h t next, Snapshots r i c k h t next → ∃ j, c ≤ j ∧ j ≤ k ∧
    (r.conf j).shared.head = h ∧ TailSeen r t next j ∧
    determineState h t next = (r.conf j).shared.state

variable {r} {i : ι} {j k : ℕ}

theorem Since.succ {l : Local V} {pc : Snapshot} (h : Since r i j k)
    (hl : (r.conf (k + 1)).thread i = some l) (hpc : l.snapshot = some pc)
    (hne : ∀ next, pc ≠ .loadHead next) :
  Since r i j (k + 1)
  := by
  intro c hc l' next hl' hpc'
  rcases Nat.le_succ_iff.mp hc with hc | rfl
  · apply h c hc l' next hl' hpc'
  · obtain rfl := Option.some.inj (hl.symm.trans hl')
    exact absurd (Option.some.inj (hpc.symm.trans hpc')) (hne next)

theorem since_self {l : Local V} {pc : Snapshot} (hl : (r.conf (k + 1)).thread i = some l)
    (hpc : l.snapshot = some pc) (hne : ∀ next, pc ≠ .loadHead next) :
  Since r i k (k + 1)
  := by
  apply Since.succ _ hl hpc hne
  exact fun c hc _ _ _ _ => hc

/-- What a thread knows has been read a step later too. -/
theorem ReadAt.succ {l : Local V} {pc : Snapshot} (h : ReadAt r i k pc)
    (hl : (r.conf (k + 1)).thread i = some l) (hpc : l.snapshot = some pc) :
  ReadAt r i (k + 1) pc
  := by
  cases pc with
  | loadHead next => trivial
  | done hd t next => trivial
  | loadTail hd next =>
      obtain ⟨j, hj, hsince, hh⟩ := h
      exact ⟨j, Nat.lt_succ_of_lt hj, hsince.succ hl hpc nofun, hh⟩
  | loadNext hd t next =>
      obtain ⟨j, hj, hsince, hh, m, hm, hjm, ht⟩ := h
      exact ⟨j, Nat.lt_succ_of_lt hj, hsince.succ hl hpc nofun, hh, m, Nat.lt_succ_of_lt hm, hjm,
        ht⟩
  | checkTail hd t next =>
      obtain ⟨j, hj, hsince, hh, m, hm, hjm, ht, e, he, hme, hnext⟩ := h
      exact ⟨j, Nat.lt_succ_of_lt hj, hsince.succ hl hpc nofun, hh, m, Nat.lt_succ_of_lt hm, hjm,
        ht,
        e, Nat.lt_succ_of_lt he, hme, hnext⟩
  | checkHead hd t next =>
      obtain ⟨j, hj, hsince, hh, m, hm, hjm, hseen⟩ := h
      exact ⟨j, Nat.lt_succ_of_lt hj, hsince.succ hl hpc nofun, hh, m, Nat.lt_succ_of_lt hm, hjm,
        hseen⟩

section bounded

variable (hhead : changes r Shared.head n < 2 ^ 32) (htail : changes r Shared.tail n < 2 ^ 32)

include hhead htail

/-- The counters of head and tail tell how often they have been changed. -/
theorem counts (hk : k ≤ n) :
  Counts (changes r Shared.head k) (r.conf k).shared.head ∧
    Counts (changes r Shared.tail k) (r.conf k).shared.tail
  := by
  obtain ⟨⟨-, hh, ht⟩, -⟩ :=
    (outline ι V).sound (r.lift (ghost ι V) (trail_bound r hhead htail)) k hk
  rw [Run.lift_shared, trail_changes r k hk] at hh ht
  exact ⟨hh, ht⟩

/-- An access of `Snapshot` reads what it says, and a second look at the tail that shows no
difference means that the tail was the same when `nextobject` was read. -/
theorem ReadAt.step {pc pc' : Snapshot} {g : Tag} {l' : Local V} (h : ReadAt r i k pc) (hk : k < n)
    (hs : snapshot (r.conf k).shared pc = some (pc', g))
    (hl' : (r.conf (k + 1)).thread i = some l') (hpc' : l'.snapshot = some pc') :
  ReadAt r i (k + 1) pc'
  := by
  cases pc with
  | loadHead next =>
      cases hs
      exact ⟨k, Nat.lt_succ_self k, since_self hl' hpc' (by rintro _ ⟨⟩), rfl⟩
  | loadTail hd next =>
      obtain ⟨j, hj, hsince, hh⟩ := h
      simp only [snapshot] at hs
      split at hs
      case isTrue =>
        cases hs
        exact ⟨j, Nat.lt_succ_of_lt hj, hsince.succ hl' hpc' (by rintro _ ⟨⟩),
          hh, k, Nat.lt_succ_self k,
          le_of_lt hj, rfl⟩
      case isFalse hnull =>
        cases hs
        refine ⟨j, Nat.lt_succ_of_lt hj, hsince.succ hl' hpc' (by rintro _ ⟨⟩),
          hh, k, Nat.lt_succ_self k,
          le_of_lt hj, rfl, k, Nat.lt_succ_self k, le_rfl, ?_⟩
        intro p hp
        cases (not_not.mp hnull).symm.trans hp
  | loadNext hd t next =>
      obtain ⟨j, hj, hsince, hh, m, hm, hjm, ht⟩ := h
      obtain ⟨p, hp, heq⟩ := Option.map_eq_some_iff.mp hs
      cases heq
      refine ⟨j, Nat.lt_succ_of_lt hj, hsince.succ hl' hpc' (by rintro _ ⟨⟩),
        hh, m, Nat.lt_succ_of_lt hm, hjm,
        ht, k, Nat.lt_succ_self k, le_of_lt hm, ?_⟩
      intro q hq
      cases hp.symm.trans hq
      rfl
  | checkTail hd t next =>
      obtain ⟨j, hj, hsince, hh, m, hm, hjm, ht, e, he, hme, hnext⟩ := h
      simp only [snapshot] at hs
      split at hs
      case isTrue heq =>
        cases hs
        have htail := steady r htail (fun k hk => (counts hhead htail hk).2) hme (le_of_lt he)
          (le_of_lt hk) (heq.trans ht.symm)
        exact ⟨j, Nat.lt_succ_of_lt hj, hsince.succ hl' hpc' (by rintro _ ⟨⟩),
          hh, e, Nat.lt_succ_of_lt he,
          hjm.trans hme, (htail.trans ht).trans heq.symm, heq ▸ hnext⟩
      case isFalse =>
        cases hs
        exact ⟨j, Nat.lt_succ_of_lt hj, hsince.succ hl' hpc' (by rintro _ ⟨⟩), hh⟩
  | checkHead hd t next =>
      simp only [snapshot] at hs
      split at hs
      · cases hs
        trivial
      · cases hs
        trivial
  | done hd t next => cases hs

/-- What a thread at a point of `Snapshot` knows has been read. -/
theorem readAt {l : Local V} {pc : Snapshot} (hk : k ≤ n) (hl : (r.conf k).thread i = some l)
    (hpc : l.snapshot = some pc) :
  ReadAt r i k pc
  := by
  obtain ⟨_, _, -, -, h⟩ := r.busy_induction
    (fun i _ _ k l => (r.conf k).thread i = some l → ∀ pc, l.snapshot = some pc → ReadAt r i k pc)
    (by
      intro i o a _ _ pc hpc
      cases o with
      | enqueue item => cases hpc
      | dequeue out =>
          cases hpc
          trivial)
    (by
      intro i o a k l ch s l' g _ _ h hact hl hs _ hl' pc' hpc'
      rcases step_snapshot hs hpc' with rfl | ⟨pc, t, hpc, hsnap⟩
      · trivial
      · exact (h hl pc hpc).step hhead htail hact.1 hsnap hl' hpc')
    (by
      intro i o a k l _ _ h _ hl _ hl' pc hpc
      exact (h hl pc hpc).succ hl' hpc)
    k hk i l hl
  exact h hl pc hpc

variable (r) in
/-- In a run in which head and tail are each changed fewer than 2^32 times, snapshots are
atomic. -/
theorem pljQueue_snapshotsAtomic :
  SnapshotsAtomic r
  := by
  intro i c k h t next hcall
  obtain ⟨hle, ⟨-, l₀, hl₀, hstart⟩, -, g, hact, l, pc, hl, hpc, hs⟩ := hcall
  have hread := readAt hhead htail (le_of_lt hact.1) hl hpc
  cases pc with
  | checkHead hd t next =>
      obtain ⟨j, hj, hsince, hh, m, hm, hjm, hseen⟩ := hread
      simp only [snapshot] at hs
      split at hs
      case isTrue heq =>
        cases hs
        -- the head was the same at both ends, so it was at the moment in between
        have hhead := steady r hhead (fun k hk => (counts hhead htail hk).1) hjm (le_of_lt hm)
          (le_of_lt hact.1) (heq.trans hh.symm)
        refine ⟨m, (hsince c hle l₀ _ hl₀ hstart).trans hjm, le_of_lt hm,
          (hhead.trans hh).trans heq.symm, hseen, ?_⟩
        rw [Shared.state, hseen.1, hhead.trans (hh.trans heq.symm)]
        cases ht : t.ptr with
        | none => apply determineState_null ht
        | some p =>
            rw [Shared.tailNext, hseen.1, ht, ← hseen.2 p ht]
      case isFalse => cases hs
  | loadHead next => cases hs
  | loadTail hd next =>
      simp only [snapshot] at hs
      split at hs
      · cases hs
      · cases hs
  | loadNext hd t next =>
      obtain ⟨p, -, heq⟩ := Option.map_eq_some_iff.mp hs
      cases heq
  | checkTail hd t next =>
      simp only [snapshot] at hs
      split at hs
      · cases hs
      · cases hs
  | done hd t next => cases hs

end bounded

/-- Snapshots are atomic while thread 0 enqueues 7 and thread 1 dequeues it. -/
theorem pljQueue_snapshotsAtomic_exchange :
  SnapshotsAtomic (Run.ofScript exchange trivial exchange_plays)
  := pljQueue_snapshotsAtomic _ (exchange_changes _) (exchange_changes _)

end PLJQueue
