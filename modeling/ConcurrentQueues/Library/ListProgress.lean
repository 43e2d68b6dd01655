import ConcurrentQueues.Library.Progress
import ConcurrentQueues.Library.Spine

/-!
# Lock-free linked lists

A linked list with a lagging tail changes when a node is linked, and when the tail or the
head is swung. The tail is swung along every link at most once, so in a run with `E` links and
`D` swings of the head there are at most `2 * E + D` changes.
-/

variable {ι σ ℓ Op Res Tag Ch V : Type}

/-- What an access does to a linked list. -/
inductive ListChange where
  | none
  | alloc (p : ℕ)
  | link (p : ℕ)
  | swingTail
  | swingHead

namespace ListChange

def isLink : ListChange → Bool
  | .link _ => true
  | _ => false

def isSwingTail : ListChange → Bool
  | .swingTail => true
  | _ => false

def isSwingHead : ListChange → Bool
  | .swingHead => true
  | _ => false

/-- The access changes the list for other threads. -/
def isChange (c : ListChange) : Bool := c.isLink || c.isSwingTail || c.isSwingHead

end ListChange

/-- What an access of thread `i` does to the spine of the list. -/
def Spine.next (i : ι) (a : Spine ι) : ListChange → Spine ι
  | .none => a
  | .alloc p => a.alloc i p
  | .link p => a.link p
  | .swingTail => a.swingTail
  | .swingHead => a.swingHead

namespace Machine

variable [DecidableEq ι] {M : Machine ι σ ℓ Op Res Tag Ch}

/-- A run of a linked list whose pointer to the tail is `tail`, whose threads go round loops with
the top `Top`, is lock-free. -/
structure Run.LockFree {n : ℕ} (r : M.Run n) (Top : Option ℓ → ℓ → Prop) (tail : σ → Option ℕ)
    (change : Tag → ListChange) : Prop where
  /-- Every round contains a step at which some thread links a node or swings tail or head. -/
  progress : ∀ i e k, r.Round Top i e k →
    ∃ j, e < j ∧ j ≤ k ∧ ∃ i' t, r.Acts i' t j ∧ (change t).isChange
  /-- The tail is swung to a node that has been linked. -/
  along : ∀ i t k, r.Acts i t k → change t = .swingTail →
    ∃ m < k, ∃ i' t' p, r.Acts i' t' m ∧ change t' = .link p ∧
      tail (r.conf (k + 1)).shared = some p
  /-- The tail is swung to a node once. -/
  once : ∀ i t k i' t' k', r.Acts i t k → change t = .swingTail → r.Acts i' t' k' →
    change t' = .swingTail →
    tail (r.conf (k + 1)).shared = tail (r.conf (k' + 1)).shared → k = k'
  /-- The number of rounds is bounded by the numbers of threads, links and swings of the head. -/
  bound : {x : ι × ℕ × ℕ | r.Round Top x.1 x.2.1 x.2.2}.encard ≤
    (r.threads.card *
      (2 * r.count (fun t => (change t).isLink) n + r.count (fun t => (change t).isSwingHead) n) : ℕ)

variable {g : M.Ghost (Spine ι)} {view : σ → ListView V} {change : Tag → ListChange} {n : ℕ}

section trail

variable (r : M.Run n) (hinit : g.init.nodes.length = 1 ∧ g.init.tail = 0)
  (hnext : ∀ i s a l s' l' t, g.next i s a l s' l' t = a.next i (change t))

include hinit hnext

/-- The nodes of the spine are the first one and those that have been linked. -/
theorem trail_length {k : ℕ} (hk : k ≤ n) :
  (r.trail g k).nodes.length = 1 + r.count (fun t => (change t).isLink) k
  := by
  have h := r.trail_count g (fun a => a.nodes.length) (fun t => (change t).isLink) (by
    intro i s a l s' l' t
    rw [hnext]
    cases change t with
    | link p => exact List.length_append
    | _ => rfl) k hk
  rw [h, hinit.1]

/-- The position of the tail is the number of its swings. -/
theorem trail_tail {k : ℕ} (hk : k ≤ n) :
  (r.trail g k).tail = r.count (fun t => (change t).isSwingTail) k
  := by
  have h := r.trail_count g (fun a => a.tail) (fun t => (change t).isSwingTail) (by
    intro i s a l s' l' t
    rw [hnext]
    cases change t with
    | _ => rfl) k hk
  rw [h, hinit.2, Nat.zero_add]

omit hinit in
theorem trail_prefix {k m : ℕ} (h : k ≤ m) :
  (r.trail g k).nodes <+: (r.trail g m).nodes
  := by
  apply r.trail_mono g (fun a b => a.nodes <+: b.nodes) (fun _ => List.prefix_rfl)
    (fun _ _ _ => List.IsPrefix.trans) _ h
  intro i s a l s' l' t
  rw [hnext]
  cases change t with
  | link p => apply List.prefix_append
  | _ => apply List.prefix_rfl

/-- Every node of the spine but the first has been linked. -/
theorem trail_linked {k e p : ℕ} (hk : k ≤ n) (hp : (r.trail g k).nodes[e + 1]? = some p) :
  ∃ m < k, ∃ i t, r.Acts i t m ∧ change t = .link p
  := by
  induction k with
  | zero =>
      have hlt := (List.getElem?_eq_some_iff.mp hp).1
      rw [Run.trail, hinit.1] at hlt
      omega
  | succ k ih =>
      have ih := ih (Nat.le_of_succ_le hk)
      have hkeep : (r.trail g k).nodes[e + 1]? = some p →
          ∃ m < k + 1, ∃ i t, r.Acts i t m ∧ change t = .link p := by
        intro h
        obtain ⟨m, hm, hrest⟩ := ih h
        exact ⟨m, Nat.lt_succ_of_lt hm, hrest⟩
      have hstep := r.step k hk
      rw [Run.trail] at hp
      cases he : r.event k with
      | call o =>
          rw [he] at hp
          exact hkeep hp
      | ret v =>
          rw [he] at hp
          exact hkeep hp
      | act t =>
          rw [he] at hstep hp
          obtain ⟨l, ch, s, l', hl, hs, hc⟩ := hstep.act_inv
          rw [hl, hc, Config.put_thread_self] at hp
          simp only [hnext] at hp
          cases hg : change t with
          | link q =>
              rw [hg] at hp
              rcases Nat.lt_or_ge (e + 1) (r.trail g k).nodes.length with hlt | hge
              · apply hkeep
                exact (List.getElem?_append_left hlt).symm.trans hp
              · -- the new node is the last one
                have hmem := (List.getElem?_append_right hge).symm.trans hp
                have hq := List.mem_of_getElem? hmem
                rw [List.mem_singleton] at hq
                subst hq
                exact ⟨k, Nat.lt_succ_self k, r.who k, t, ⟨hk, rfl, he⟩, hg⟩
          | _ =>
              rw [hg] at hp
              exact hkeep hp

end trail

/-- A linked list with a spine whose rounds contain changes is lock-free. -/
theorem Run.lockFree {L : ι → σ × Spine ι → Option ℓ → Prop}
    {R : ι → σ × Spine ι → σ × Spine ι → Prop} {Top : Option ℓ → ℓ → Prop}
    {Fresh : σ × Spine ι → ℓ → Prop}
    (ho : (M.withGhost g).Outline (fun s => s.2.Fits (view s.1)) L R)
    (hr : (M.withGhost g).Retries (fun s => s.2.Fits (view s.1)) L Top
      (fun t => (change t).isChange) Fresh)
    (hbound : ∀ a, g.bound a) (hinit : g.init.nodes.length = 1 ∧ g.init.tail = 0)
    (hnext : ∀ i s a l s' l' t, g.next i s a l s' l' t = a.next i (change t)) (r : M.Run n) :
  r.LockFree Top (fun s => (view s).tail) change
  := by
  have hfits : ∀ k ≤ n, (r.trail g k).Fits (view (r.conf k).shared) :=
    fun k hk => (ho.sound (r.lift g fun _ _ => hbound _) k hk).1
  have htail : ∀ k < n, (r.tag k).any (fun t => (change t).isSwingTail) = true →
      ∃ p, (view (r.conf (k + 1)).shared).tail = some p ∧ (r.trail g (k + 1)).nodes[
        r.count (fun t => (change t).isSwingTail) k + 1]? = some p := by
    intro k hk hp
    obtain ⟨p, hp', hat⟩ := (hfits (k + 1) hk).tail_pointsTo
    use p, hp'
    rw [trail_tail r hinit hnext hk, count_succ, hp] at hat
    exact hat
  have hround : ∀ i e k, r.Round Top i e k →
      ∃ j, e < j ∧ j ≤ k ∧ (r.tag j).any fun t => (change t).isChange := by
    intro i e k h
    apply hr.round ho (r := r.lift g fun _ _ => hbound _)
    exact ⟨h.lt, h.stop, h.within, h.comes, h.back, h.inside⟩
  have htag : ∀ {i t k}, r.Acts i t k → change t = .swingTail →
      (r.tag k).any (fun t => (change t).isSwingTail) = true := by
    intro i t k ht hc
    apply Run.any_tag_iff.mpr
    use t, ht.2.2
    rw [hc]
    rfl
  constructor
  case progress =>
    intro i e k h
    obtain ⟨j, hej, hjk, hp⟩ := hround i e k h
    obtain ⟨t, ht, hp⟩ := any_tag_iff.mp hp
    exact ⟨j, hej, hjk, r.who j, t, ⟨lt_of_le_of_lt hjk h.stop, rfl, ht⟩, hp⟩
  case along =>
    intro i t k ht hc
    obtain ⟨p, hp, hat⟩ := htail k ht.1 (htag ht hc)
    obtain ⟨m, hmk, i', t', ht', hlink⟩ := trail_linked r hinit hnext ht.1 hat
    have hne : m ≠ k := by
      rintro rfl
      cases ht.2.2.symm.trans ht'.2.2
      cases hc.symm.trans hlink
    exact ⟨m, by omega, i', t', p, ht', hlink, hp⟩
  case once =>
    have hkey : ∀ {k k' p e e'}, k' < n → (r.trail g (k + 1)).nodes[e + 1]? = some p →
        (r.trail g (k' + 1)).nodes[e' + 1]? = some p → k ≤ k' → e = e' := by
      intro k k' p e e' hk' hp hp' hle
      obtain ⟨rest, hrest⟩ := trail_prefix r hnext (Nat.succ_le_succ hle)
      have hlt := (List.getElem?_eq_some_iff.mp hp).1
      have hlater : (r.trail g (k' + 1)).nodes[e + 1]? = some p := by
        rw [← hrest, List.getElem?_append_left hlt, hp]
      exact Nat.succ.inj ((hfits (k' + 1) hk').position hlater hp')
    intro i t k i' t' k' ht hc ht' hc' heq
    obtain ⟨p, hp, hat⟩ := htail k ht.1 (htag ht hc)
    obtain ⟨p', hp', hat'⟩ := htail k' ht'.1 (htag ht' hc')
    obtain rfl : p = p' := Option.some.inj (hp.symm.trans (heq.trans hp'))
    rcases lt_trichotomy k k' with hlt | rfl | hlt
    · have hcount := r.count_lt hlt (htag ht hc)
      exact absurd (hkey ht'.1 hat hat' (le_of_lt hlt)) (ne_of_lt hcount)
    · rfl
    · have hcount := r.count_lt hlt (htag ht' hc')
      exact absurd (hkey ht.1 hat' hat (le_of_lt hlt)) (ne_of_lt hcount)
  case bound =>
    apply le_trans (rounds_le hround)
    rw [Nat.cast_le]
    apply Nat.mul_le_mul_left
    have hle := (r.count_or_le (fun t => (change t).isLink || (change t).isSwingTail)
      (fun t => (change t).isSwingHead) n)
    have hle' := (r.count_or_le (fun t => (change t).isLink) (fun t => (change t).isSwingTail) n)
    have hlt := (hfits n le_rfl).tail_lt
    rw [trail_tail r hinit hnext le_rfl, trail_length r hinit hnext le_rfl] at hlt
    simp only [ListChange.isChange]
    omega

end Machine
