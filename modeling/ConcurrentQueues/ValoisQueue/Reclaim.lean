import ConcurrentQueues.Library.Links
import ConcurrentQueues.ValoisQueue.Linearizable

/-!
# ValoisQueue reclaims every node exactly once

A second ghost beside the spine of the list: the retired nodes from `retired_` on, and the
nodes in the hands of a dequeue that has moved the head past them. The nodes of the spine
before the head are these two kinds, and those that are not on the spine are private to an
enqueue.
-/

namespace ValoisQueue

open Machine Spine

variable {ι V : Type}

/-- The retired nodes, and the owners of nodes that are being retired. -/
structure Retire (ι : Type) where
  nodes : List ℕ
  owner : ℕ → Option ι

namespace Retire

/-- Thread `i` moves the head past the node `p`. -/
def take (b : Retire ι) (i : ι) (p : ℕ) : Retire ι :=
  { b with owner := Function.update b.owner p (some i) }

/-- The node `p` is retired. -/
def push (b : Retire ι) (p : ℕ) : Retire ι := ⟨p :: b.nodes, Function.update b.owner p none⟩

/-- What each step of thread `i` does to the retired nodes, when the head is `head`. -/
def next (i : ι) (head : Option ℕ) (b : Retire ι) : Tag → Retire ι
  | .swingHead => head.elim b (b.take i)
  | .retire p => b.push p
  | _ => b

end Retire

/-- The memory with the spine, and the retired nodes. -/
abbrev State (ι V : Type) := (Shared V × Spine ι) × Retire ι

/-- The retired nodes, beside the spine. -/
def retireGhost (ι V : Type) [Inhabited V] :
    ((machine ι V).withGhost (ghost ι V)).Ghost (Retire ι) where
  init := ⟨[], fun _ => none⟩
  bound _ := True
  next i s b _ _ _ t := b.next i s.1.head t

/-- The field `next` of a node. -/
def Shared.next (s : Shared V) (p : ℕ) : Option ℕ := (s.node p).next

/-- The field `retired_next` of a node. -/
def Shared.retiredNext (s : Shared V) (p : ℕ) : Option ℕ := (s.node p).retiredNext

/-- Every node has its place: off the spine it is owned by an enqueue, before the head it is retired
or being retired. -/
structure Placed (x : State ι V) : Prop where
  known : ∀ p < x.1.1.fresh, p ∈ x.1.2.nodes ∨ ∃ i, x.1.2.owner p = some i
  passed : ∀ k p, x.1.2.nodes[k]? = some p →
    (k < x.1.2.head ↔ p ∈ x.2.nodes ∨ ∃ i, x.2.owner p = some i)
  links : Links x.1.1.retiredNext x.1.1.retired x.2.nodes
  retired : ∀ p ∈ x.2.nodes, p ∈ x.1.2.nodes ∧ ∀ i, x.2.owner p ≠ some i
  retiring : ∀ p i, x.2.owner p = some i → p ∈ x.1.2.nodes

/-- Thread `i` owns the nodes that its position says, and no others. -/
structure Owns (i : ι) (x : State ι V) (l : Option (Local V)) : Prop where
  unlinked : ∀ p, x.1.2.owner p = some i ↔ l.bind Local.unlinked = some p
  retiring : ∀ p, x.2.owner p = some i ↔ l.bind Local.retiring = some p

/-- Before its CAS of `retired_`, a thread has stored what it expects there in its node. -/
def Stored (x : State ι V) : Option (Local V) → Prop
  | some (.dequeue (.casRetired _ node oldRetired)) =>
      ∀ p, node = some p → x.1.1.retiredNext p = oldRetired
  | _ => True

/-- What a thread knows about its position. -/
structure KnowsPlace (i : ι) (x : State ι V) (l : Option (Local V)) : Prop where
  list : Knows i x.1 l
  owns : Owns i x l
  stored : Stored x l

/-- Writing the field `next` leaves the retired list as it is. -/
theorem setNode_retiredNext (s : Shared V) (p q : ℕ) (next : Option ℕ) :
  (s.setNode p { s.node p with next }).retiredNext q = s.retiredNext q
  := by
  by_cases hq : q = p
  · subst hq
    simp [Shared.retiredNext, Shared.setNode]
  · exact congrArg Node.retiredNext (Function.update_of_ne hq ..)

/-! ### The steps -/

/-- What a step of thread `i` does to the places of nodes. -/
inductive PlaceStep (i : ι) : State ι V → State ι V → Prop where
  | keep {s s' : Shared V} {a a' : Spine ι} {b : Retire ι} (hfresh : s'.fresh = s.fresh)
      (hretired : s'.retired = s.retired) (hnext : ∀ p, s'.retiredNext p = s.retiredNext p)
      (hnodes : a'.nodes = a.nodes) (hhead : a'.head = a.head) (howner : a'.owner = a.owner) :
      PlaceStep i ((s, a), b) ((s', a'), b)
  | alloc {s s' : Shared V} {a : Spine ι} {b : Retire ι} (hfresh : s'.fresh = s.fresh + 1)
      (hretired : s'.retired = s.retired)
      (hnext : ∀ p < s.fresh, s'.retiredNext p = s.retiredNext p) :
      PlaceStep i ((s, a), b) ((s', a.alloc i s.fresh), b)
  | link {s s' : Shared V} {a : Spine ι} {b : Retire ι} {p : ℕ} (hp : a.owner p = some i)
      (hfresh : s'.fresh = s.fresh) (hretired : s'.retired = s.retired)
      (hnext : ∀ p, s'.retiredNext p = s.retiredNext p) :
      PlaceStep i ((s, a), b) ((s', a.link p), b)
  | swingHead {s s' : Shared V} {a : Spine ι} {b : Retire ι} {p : ℕ}
      (hp : a.nodes[a.head]? = some p) (hfresh : s'.fresh = s.fresh)
      (hretired : s'.retired = s.retired) (hnext : ∀ p, s'.retiredNext p = s.retiredNext p) :
      PlaceStep i ((s, a), b) ((s', a.swingHead), b.take i p)
  | store {s s' : Shared V} {a : Spine ι} {b : Retire ι} {p : ℕ} (hp : b.owner p = some i)
      (hfresh : s'.fresh = s.fresh) (hretired : s'.retired = s.retired)
      (hnext : ∀ q, q ≠ p → s'.retiredNext q = s.retiredNext q) :
      PlaceStep i ((s, a), b) ((s', a), b)
  | retire {s s' : Shared V} {a : Spine ι} {b : Retire ι} {p : ℕ} (hp : b.owner p = some i)
      (hstored : s.retiredNext p = s.retired) (hfresh : s'.fresh = s.fresh)
      (hretired : s'.retired = some p) (hnext : ∀ p, s'.retiredNext p = s.retiredNext p) :
      PlaceStep i ((s, a), b) ((s', a), b.push p)

variable {i j : ι} {x x' : State ι V} {p q : ℕ}

theorem update_owner {f : ℕ → Option ι} {o : Option ι} (hij : j ≠ i) (hp : f p ≠ some j)
    (ho : o = none ∨ o = some i) :
  Function.update f p o q = some j ↔ f q = some j
  := by
  by_cases hq : q = p
  · subst hq
    rw [Function.update_self]
    refine iff_of_false ?_ hp
    rintro rfl
    rcases ho with ho | ho
    · cases ho
    · exact hij (Option.some.inj ho)
  · rw [Function.update_of_ne hq]

/-- A node that is owned after `p` is given away was owned before and is another one. -/
theorem of_update_none {f : ℕ → Option ι} (h : Function.update f p none q = some j) :
  q ≠ p ∧ f q = some j
  := by
  by_cases hq : q = p
  · subst hq
    cases (Function.update_self ..).symm.trans h
  · rw [Function.update_of_ne hq] at h
    exact ⟨hq, h⟩

/-- The steps keep the places. -/
theorem PlaceStep.placed (h : PlaceStep i x x') (hx : Placed x) (hfits : Inv x.1) :
  Placed x'
  := by
  cases h with
  | @keep s s' a a' b hfresh hretired hnext hnodes hhead howner =>
      constructor
      case known =>
        simp only [hfresh, hnodes, howner]
        exact hx.known
      case passed =>
        simp only [hnodes, hhead]
        exact hx.passed
      case links =>
        simp only [hretired]
        exact hx.links.congr fun p _ => hnext p
      case retired =>
        simp only [hnodes]
        exact hx.retired
      case retiring =>
        simp only [hnodes]
        exact hx.retiring
  | @alloc s s' a b hfresh hretired hnext =>
      constructor
      case known =>
        intro p hp
        simp only [hfresh] at hp
        rcases Nat.lt_succ_iff_lt_or_eq.mp hp with hp | rfl
        · rcases hx.known p hp with hmem | ⟨j, hj⟩
          · exact Or.inl hmem
          · exact Or.inr ⟨j, (Function.update_of_ne (Nat.ne_of_lt hp) ..).trans hj⟩
        · exact Or.inr ⟨i, Function.update_self ..⟩
      case passed => exact hx.passed
      case links =>
        simp only [hretired]
        exact hx.links.congr fun p hp => hnext p (hfits.below p (hx.retired p hp).1)
      case retired => exact hx.retired
      case retiring => exact hx.retiring
  | @link s s' a b p hp hfresh hretired hnext =>
      have hmem := (hfits.owned p i hp).1
      constructor
      case known =>
        intro q hq
        simp only [hfresh] at hq
        rcases hx.known q hq with hqmem | ⟨j, hj⟩
        · exact Or.inl (List.mem_append_left _ hqmem)
        · by_cases hqp : q = p
          · subst hqp
            exact Or.inl (List.mem_append_right _ (List.mem_singleton_self q))
          · exact Or.inr ⟨j, (Function.update_of_ne hqp ..).trans hj⟩
      case passed =>
        intro k q hk
        have hhead : a.head < a.nodes.length := hfits.head_lt
        simp only [Spine.link] at hk ⊢
        rcases lt_trichotomy k a.nodes.length with hlt | rfl | hlt
        · rw [List.getElem?_append_left hlt] at hk
          exact hx.passed k q hk
        · rw [List.getElem?_concat_length] at hk
          obtain rfl := Option.some.inj hk
          apply iff_of_false (Nat.not_lt.mpr (le_of_lt hhead))
          rintro (hq | ⟨j, hj⟩)
          · exact hmem (hx.retired p hq).1
          · exact hmem (hx.retiring p j hj)
        · have hnone : (a.nodes ++ [p])[k]? = none := by
            apply List.getElem?_eq_none
            rw [List.length_append, List.length_singleton]
            exact hlt
          cases hnone.symm.trans hk
      case links =>
        simp only [hretired]
        exact hx.links.congr fun q _ => hnext q
      case retired =>
        intro q hq
        obtain ⟨hmemq, hnot⟩ := hx.retired q hq
        exact ⟨List.mem_append_left _ hmemq, hnot⟩
      case retiring => exact fun q j hq => List.mem_append_left _ (hx.retiring q j hq)
  | @swingHead s s' a b p hp hfresh hretired hnext =>
      have hpassed := hx.passed a.head p hp
      simp only [lt_self_iff_false, false_iff, not_or, not_exists] at hpassed
      constructor
      case known =>
        simp only [hfresh]
        exact hx.known
      case passed =>
        intro k q hk
        by_cases hqp : q = p
        · subst hqp
          obtain rfl := hfits.position hk hp
          exact iff_of_true (Nat.lt_succ_self _) (Or.inr ⟨i, Function.update_self ..⟩)
        · have hne : k ≠ a.head := by
            rintro rfl
            exact hqp (Option.some.inj (hk.symm.trans hp))
          have hold := hx.passed k q hk
          simp only [Retire.take, Spine.swingHead, Function.update_of_ne hqp] at hold ⊢
          rw [← hold]
          omega
      case links =>
        simp only [hretired]
        exact hx.links.congr fun q _ => hnext q
      case retired =>
        intro q hq
        obtain ⟨hmem, hnot⟩ := hx.retired q hq
        have hqp : q ≠ p := fun heq => hpassed.1 (heq ▸ hq)
        refine ⟨hmem, fun j => ?_⟩
        simp only [Retire.take, Function.update_of_ne hqp]
        exact hnot j
      case retiring =>
        intro q j hq
        by_cases hqp : q = p
        · subst hqp
          exact List.mem_of_getElem? hp
        · exact hx.retiring q j ((Function.update_of_ne hqp ..).symm.trans hq)
  | @store s s' a b p hp hfresh hretired hnext =>
      constructor
      case known =>
        simp only [hfresh]
        exact hx.known
      case passed => exact hx.passed
      case links =>
        simp only [hretired]
        apply hx.links.congr
        intro q hq
        apply hnext
        rintro rfl
        exact (hx.retired q hq).2 i hp
      case retired => exact hx.retired
      case retiring => exact hx.retiring
  | @retire s s' a b p hp hstored hfresh hretired hnext =>
      constructor
      case known =>
        simp only [hfresh]
        exact hx.known
      case passed =>
        intro k q hk
        rw [hx.passed k q hk]
        simp only [Retire.push, List.mem_cons]
        by_cases hqp : q = p
        · subst hqp
          exact iff_of_true (Or.inr ⟨i, hp⟩) (Or.inl (Or.inl rfl))
        · simp only [hqp, false_or, Function.update_of_ne hqp]
      case links =>
        refine ⟨hretired, ?_⟩
        rw [hnext, hstored]
        exact hx.links.congr fun q _ => hnext q
      case retired =>
        intro q hq
        rcases List.mem_cons.mp hq with rfl | hq
        · refine ⟨hx.retiring q i hp, fun j hj => ?_⟩
          exact (of_update_none hj).1 rfl
        · obtain ⟨hmem, hnot⟩ := hx.retired q hq
          exact ⟨hmem, fun j hj => hnot j (of_update_none hj).2⟩
      case retiring => exact fun q j hq => hx.retiring q j (of_update_none hq).2

/-- A step that is not about places. -/
theorem PlaceStep.stay (x : State ι V) :
  PlaceStep i x x
  := .keep rfl rfl (fun _ => rfl) rfl rfl rfl

/-- What thread `j` sees of the steps of others: the list grows, `j` owns the same nodes, and what
it has stored in a node it is retiring stays there. -/
structure SeesPlace (j : ι) (x x' : State ι V) : Prop where
  grows : Grows j (list x.1) (list x'.1)
  unlinked : ∀ p, x'.1.2.owner p = some j ↔ x.1.2.owner p = some j
  retiring : ∀ p, x'.2.owner p = some j ↔ x.2.owner p = some j
  stored : ∀ p, x.2.owner p = some j → x'.1.1.retiredNext p = x.1.1.retiredNext p

theorem PlaceStep.sees (h : PlaceStep i x x') (hx : Placed x) (hfits : Inv x.1) (hij : j ≠ i)
    (hg : Grows j (list x.1) (list x'.1)) :
  SeesPlace j x x'
  := by
  have hother : ∀ {f : ℕ → Option ι} {p : ℕ}, f p = some i → f p ≠ some j := by
    intro f p hp hj
    exact hij (Option.some.inj (hj.symm.trans hp))
  use hg
  · cases h with
    | keep _ _ _ _ _ howner =>
        intro p
        rw [howner]
    | @alloc s s' a b =>
        intro p
        apply update_owner hij _ (Or.inr rfl)
        intro hj
        exact lt_irrefl _ (hfits.owned s.fresh j hj).2.1
    | link hp =>
        intro q
        exact update_owner hij (hother hp) (Or.inl rfl)
    | swingHead => exact fun _ => Iff.rfl
    | store => exact fun _ => Iff.rfl
    | retire => exact fun _ => Iff.rfl
  · cases h with
    | keep => exact fun _ => Iff.rfl
    | alloc => exact fun _ => Iff.rfl
    | link => exact fun _ => Iff.rfl
    | @swingHead s s' a b p hp =>
        intro q
        apply update_owner hij _ (Or.inr rfl)
        intro hj
        exact lt_irrefl _ ((hx.passed a.head p hp).mpr (Or.inr ⟨j, hj⟩))
    | store => exact fun _ => Iff.rfl
    | retire hp =>
        intro q
        exact update_owner hij (hother hp) (Or.inl rfl)
  · intro p hp
    cases h with
    | keep _ _ hnext => exact hnext p
    | alloc _ _ hnext => exact hnext p (hfits.below p (hx.retiring p j hp))
    | link _ _ _ hnext => exact hnext p
    | swingHead _ _ _ hnext => exact hnext p
    | store hq _ _ hnext =>
        apply hnext
        rintro rfl
        exact hother hq hp
    | retire _ _ _ _ hnext => exact hnext p

/-- What a thread knows about places is stable. -/
theorem KnowsPlace.keep {l : Option (Local V)} (h : KnowsPlace j x l) (hs : SeesPlace j x x') :
  KnowsPlace j x' l
  := by
  constructor
  case list =>
    match l with
    | none => trivial
    | some (.enqueue pc) => apply Enqueue.Knows.keep h.list hs.grows
    | some (.dequeue pc) => apply Dequeue.Knows.keep h.list hs.grows
  case owns => exact ⟨fun p => (hs.unlinked p).trans (h.owns.unlinked p),
    fun p => (hs.retiring p).trans (h.owns.retiring p)⟩
  case stored =>
    have hstored := h.stored
    have howns := h.owns.retiring
    unfold Stored at hstored ⊢
    split
    case h_1 item node oldRetired =>
      intro p hp
      rw [hs.stored p ((howns p).mpr hp)]
      exact hstored p hp
    case h_2 => trivial

/-! ### The accesses -/

/-- A thread that owns nothing comes to own `p`. -/
theorem owns_give {f : ℕ → Option ι} (h : ∀ q, f q = some i ↔ none = some q) :
  Function.update f p (some i) q = some i ↔ some p = some q
  := by
  by_cases hq : q = p
  · subst hq
    rw [Function.update_self]
    exact iff_of_true rfl rfl
  · rw [Function.update_of_ne hq, h q]
    refine iff_of_false ?_ ?_
    · rintro ⟨⟩
    · exact fun heq => hq (Option.some.inj heq).symm

/-- A thread that owns `p` only comes to own nothing. -/
theorem owns_drop {f : ℕ → Option ι} (h : ∀ q, f q = some i ↔ some p = some q) :
  Function.update f p none q = some i ↔ none = some q
  := by
  refine iff_of_false ?_ ?_
  · intro hq
    obtain ⟨hne, hq⟩ := of_update_none hq
    exact hne (Option.some.inj ((h q).mp hq)).symm
  · rintro ⟨⟩

variable {s s' : Shared V} {a : Spine ι} {b : Retire ι} {t : Tag}

/-- Each access of `enqueue` is one of the steps, and the thread knows what it owns after it. -/
theorem enqueue_place {pc pc' : Enqueue V} (h : KnowsPlace i ((s, a), b) (some (.enqueue pc)))
    (hs : enqueue s pc = some (s', pc', t)) :
  PlaceStep i ((s, a), b) ((s', grow i a t), b.next i s.head t) ∧
    Owns i ((s', grow i a t), b.next i s.head t) (some (.enqueue pc'))
  := by
  obtain ⟨hl, ⟨hunlinked, hretiring⟩, -⟩ := h
  cases pc with
  | new item =>
      obtain ⟨rfl, rfl, rfl⟩ := hs
      refine ⟨.alloc rfl rfl fun p hp => ?_, fun _ => owns_give hunlinked, hretiring⟩
      exact congrArg Node.retiredNext (Function.update_of_ne (Nat.ne_of_lt hp) ..)
  | loadTail item node =>
      obtain ⟨rfl, rfl, rfl⟩ := hs
      exact ⟨.stay _, hunlinked, hretiring⟩
  | loadNext item node tail =>
      obtain ⟨-, k, hk, q, rfl, hnode⟩ := hl
      obtain ⟨rfl, rfl, rfl⟩ := hs
      exact ⟨.stay _, hunlinked, hretiring⟩
  | checkTail item node tail next =>
      simp only [enqueue] at hs
      split at hs
      · obtain ⟨rfl, rfl, rfl⟩ := hs
        exact ⟨.stay _, hunlinked, hretiring⟩
      · split at hs
        · obtain ⟨rfl, rfl, rfl⟩ := hs
          exact ⟨.stay _, hunlinked, hretiring⟩
        · obtain ⟨rfl, rfl, rfl⟩ := hs
          exact ⟨.stay _, hunlinked, hretiring⟩
  | link item node tail =>
      obtain ⟨hn, k, hk, q, rfl, hnode⟩ := hl
      simp only [enqueue, Option.map_some, Option.some.injEq] at hs
      split at hs
      case isTrue hnull =>
        obtain ⟨rfl, rfl, rfl⟩ := hs
        refine ⟨.link hn.1 rfl rfl fun p => ?_, fun _ => owns_drop hunlinked, hretiring⟩
        apply setNode_retiredNext
      case isFalse =>
        obtain ⟨rfl, rfl, rfl⟩ := hs
        exact ⟨.stay _, hunlinked, hretiring⟩
  | swing item node tail =>
      simp only [enqueue] at hs
      split at hs
      · obtain ⟨rfl, rfl, rfl⟩ := hs
        exact ⟨.keep rfl rfl (fun _ => rfl) rfl rfl rfl, hunlinked, hretiring⟩
      · obtain ⟨rfl, rfl, rfl⟩ := hs
        exact ⟨.stay _, hunlinked, hretiring⟩
  | help item node tail next =>
      simp only [enqueue] at hs
      split at hs
      · obtain ⟨rfl, rfl, rfl⟩ := hs
        exact ⟨.keep rfl rfl (fun _ => rfl) rfl rfl rfl, hunlinked, hretiring⟩
      · obtain ⟨rfl, rfl, rfl⟩ := hs
        exact ⟨.stay _, hunlinked, hretiring⟩
  | done item => cases hs

/-- Each access of `dequeue` is one of the steps as well. -/
theorem dequeue_place {weak : Bool} {pc pc' : Dequeue V} (hfits : Inv (s, a))
    (h : KnowsPlace i ((s, a), b) (some (.dequeue pc)))
    (hs : dequeue weak s pc = some (s', pc', t)) :
  PlaceStep i ((s, a), b) ((s', grow i a t), b.next i s.head t) ∧
    Owns i ((s', grow i a t), b.next i s.head t) (some (.dequeue pc')) ∧
    Stored ((s', grow i a t), b.next i s.head t) (some (.dequeue pc'))
  := by
  obtain ⟨hl, ⟨hunlinked, hretiring⟩, hstored⟩ := h
  cases pc with
  | loadHead item =>
      obtain ⟨rfl, rfl, rfl⟩ := hs
      exact ⟨.stay _, ⟨hunlinked, hretiring⟩, trivial⟩
  | loadTail item head =>
      obtain ⟨rfl, rfl, rfl⟩ := hs
      exact ⟨.stay _, ⟨hunlinked, hretiring⟩, trivial⟩
  | loadNext item head tail =>
      obtain ⟨k, hk, m, hm, hkm, ⟨q, rfl, hnode⟩, htail⟩ := hl
      obtain ⟨rfl, rfl, rfl⟩ := hs
      exact ⟨.stay _, ⟨hunlinked, hretiring⟩, trivial⟩
  | checkHead item head tail next =>
      simp only [dequeue] at hs
      split at hs
      · obtain ⟨rfl, rfl, rfl⟩ := hs
        exact ⟨.stay _, ⟨hunlinked, hretiring⟩, trivial⟩
      · split at hs
        · obtain ⟨rfl, rfl, rfl⟩ := hs
          exact ⟨.stay _, ⟨hunlinked, hretiring⟩, trivial⟩
        · split at hs
          · obtain ⟨rfl, rfl, rfl⟩ := hs
            exact ⟨.stay _, ⟨hunlinked, hretiring⟩, trivial⟩
          · obtain ⟨rfl, rfl, rfl⟩ := hs
            exact ⟨.stay _, ⟨hunlinked, hretiring⟩, trivial⟩
  | refused item => cases hs
  | help item tail next =>
      simp only [dequeue] at hs
      split at hs
      · obtain ⟨rfl, rfl, rfl⟩ := hs
        exact ⟨.keep rfl rfl (fun _ => rfl) rfl rfl rfl, ⟨hunlinked, hretiring⟩, trivial⟩
      · obtain ⟨rfl, rfl, rfl⟩ := hs
        exact ⟨.stay _, ⟨hunlinked, hretiring⟩, trivial⟩
  | readItem item head next =>
      obtain ⟨k, hk, hhead, q, rfl, hnode⟩ := hl
      obtain ⟨rfl, rfl, rfl⟩ := hs
      exact ⟨.stay _, ⟨hunlinked, hretiring⟩, trivial⟩
  | swing item head next =>
      obtain ⟨k, hk, ⟨p, rfl, hp⟩, q, rfl, hnode, hitem⟩ := hl
      simp only [dequeue] at hs
      split at hs
      case isTrue heq =>
        -- the head still points to the node that this thread takes
        obtain ⟨rfl, rfl, rfl⟩ := hs
        have hhead : a.nodes[a.head]? = some p := by rw [← hfits.head, ← heq]; rfl
        have hnext : b.next i s.head .swingHead = b.take i p := by rw [heq]; rfl
        rw [hnext]
        exact ⟨.swingHead hhead rfl rfl fun _ => rfl,
          ⟨hunlinked, fun _ => owns_give hretiring⟩, trivial⟩
      case isFalse =>
        obtain ⟨rfl, rfl, rfl⟩ := hs
        exact ⟨.stay _, ⟨hunlinked, hretiring⟩, trivial⟩
  | loadRetired item node =>
      obtain ⟨rfl, rfl, rfl⟩ := hs
      exact ⟨.stay _, ⟨hunlinked, hretiring⟩, trivial⟩
  | storeRetiredNext item node oldRetired =>
      obtain ⟨p, rfl⟩ := Option.ne_none_iff_exists'.mp hl
      obtain ⟨rfl, rfl, rfl⟩ := hs
      refine ⟨.store ((hretiring p).mpr rfl) rfl rfl fun q hq => ?_, ⟨hunlinked, hretiring⟩, ?_⟩
      · exact congrArg Node.retiredNext (Function.update_of_ne hq ..)
      · intro q hq
        obtain rfl := Option.some.inj hq
        simp [Shared.retiredNext, Shared.setNode]
  | casRetired item node oldRetired =>
      obtain ⟨p, rfl⟩ := Option.ne_none_iff_exists'.mp hl
      simp only [dequeue, Option.map_some, Option.some.injEq] at hs
      split at hs
      case isTrue hcas =>
        obtain ⟨rfl, rfl, rfl⟩ := hs
        have hnext : s.retiredNext p = s.retired := (hstored p rfl).trans hcas.1.symm
        exact ⟨.retire ((hretiring p).mpr rfl) hnext rfl rfl fun _ => rfl,
          ⟨hunlinked, fun _ => owns_drop hretiring⟩, trivial⟩
      case isFalse =>
        obtain ⟨rfl, rfl, rfl⟩ := hs
        exact ⟨.stay _, ⟨hunlinked, hretiring⟩, trivial⟩
  | done item => cases hs

/-! ### Every run -/

/-- The invariant: the spine describes the list, and every node has its place. -/
def PlaceInv (x : State ι V) : Prop := Inv x.1 ∧ Placed x

variable [Inhabited V] {n : ℕ}

/-- What each access of a thread establishes. -/
theorem place_spec {ch : Bool} {l l' : Local V} (hx : PlaceInv x) (hl : KnowsPlace i x (some l))
    (hs : (((machine ι V).withGhost (ghost ι V)).withGhost (retireGhost ι V)).step i ch x l =
      some (x', l', t)) :
  PlaceInv x' ∧ KnowsPlace i x' (some l') ∧ ∀ j, j ≠ i → SeesPlace j x x'
  := by
  obtain ⟨hs, hb⟩ := withGhost_step.mp hs
  obtain ⟨hstep, hl', -⟩ := step_spec hx.1 hl.list hs
  obtain ⟨hs, ha⟩ := withGhost_step.mp hs
  obtain ⟨⟨s, a⟩, b⟩ := x
  obtain ⟨⟨s', a'⟩, b'⟩ := x'
  obtain rfl : a' = grow i a t := ha
  obtain rfl : b' = b.next i s.head t := hb
  have hspec : PlaceStep i ((s, a), b) ((s', grow i a t), b.next i s.head t) ∧
      Owns i ((s', grow i a t), b.next i s.head t) (some l') ∧
      Stored ((s', grow i a t), b.next i s.head t) (some l') := by
    rcases step_inv hs with ⟨pc, pc', rfl, rfl, hpc⟩ | ⟨pc, pc', rfl, rfl, hpc⟩
    · obtain ⟨hplace, howns⟩ := enqueue_place hl hpc
      exact ⟨hplace, howns, trivial⟩
    · exact dequeue_place hx.1 hl hpc
  obtain ⟨hplace, howns, hstored⟩ := hspec
  exact ⟨⟨hstep.fits hx.1, hplace.placed hx.2 hx.1⟩, ⟨hl', howns, hstored⟩,
    fun j hj => hplace.sees hx.2 hx.1 hj (hstep.grows hx.1 hj)⟩

/-- The invariant and what the threads know about places form a proof outline. -/
theorem placeOutline (ι V : Type) [Inhabited V] :
  (((machine ι V).withGhost (ghost ι V)).withGhost (retireGhost ι V)).Outline PlaceInv KnowsPlace
    SeesPlace
  := by
  constructor
  case init =>
    use (outline ι V).init
    constructor
    case known =>
      intro p hp
      obtain rfl : p = 0 := Nat.lt_one_iff.mp hp
      exact Or.inl List.mem_cons_self
    case passed =>
      intro k p _
      refine iff_of_false (Nat.not_lt_zero k) ?_
      rintro (hp | ⟨i, hp⟩)
      · cases hp
      · cases hp
    case links => rfl
    case retired =>
      intro p hp
      cases hp
    case retiring =>
      intro p i hp
      cases hp
  case idle =>
    intro i
    use trivial
    · constructor
      · exact fun _ => iff_of_false (by rintro ⟨⟩) (by rintro ⟨⟩)
      · exact fun _ => iff_of_false (by rintro ⟨⟩) (by rintro ⟨⟩)
    · trivial
  case call =>
    intro i x o _ hl _
    obtain ⟨-, ⟨hunlinked, hretiring⟩, -⟩ := hl
    cases o with
    | enqueue item => exact ⟨trivial, ⟨hunlinked, hretiring⟩, trivial⟩
    | dequeue out => exact ⟨trivial, ⟨hunlinked, hretiring⟩, trivial⟩
  case ret =>
    intro i x l v _ hl hv
    obtain ⟨-, ⟨hunlinked, hretiring⟩, -⟩ := hl
    rcases result_eq_some ι hv with ⟨item, rfl, rfl⟩ | ⟨item, rfl, rfl⟩ | ⟨item, rfl, rfl⟩
    · exact ⟨trivial, ⟨hunlinked, hretiring⟩, trivial⟩
    · exact ⟨trivial, ⟨hunlinked, hretiring⟩, trivial⟩
    · exact ⟨trivial, ⟨hunlinked, hretiring⟩, trivial⟩
  case step =>
    intro i ch x l x' l' t hx hl _ _ hs
    apply place_spec hx hl hs
  case stable =>
    intro j x x' l _ _ hs hl
    apply hl.keep hs

/-! ### The four places -/

/-- The places of a node. -/
inductive Place (ι : Type) where
  | unlinked (i : ι)
  | linked
  | retiring (i : ι)
  | retired

/-- The place of the node `p`: with an enqueue that has not linked it, on the chain from `head_`,
with a dequeue that has not finished `retire`, or on the chain from `retired_`. -/
def Place.Has (c : Config ι (Shared V) (Local V)) (p : ℕ) : Place ι → Prop
  | .unlinked i => (c.thread i).bind Local.unlinked = some p
  | .linked => ∃ l, Links c.shared.next c.shared.head l ∧ p ∈ l
  | .retiring i => (c.thread i).bind Local.retiring = some p
  | .retired => ∃ l, Links c.shared.retiredNext c.shared.retired l ∧ p ∈ l

/-- The place of the node `p` in terms of the ghosts. -/
def Place.In (x : State ι V) (p : ℕ) : Place ι → Prop
  | .unlinked i => x.1.2.owner p = some i
  | .linked => ∃ k, x.1.2.head ≤ k ∧ x.1.2.nodes[k]? = some p
  | .retiring i => x.2.owner p = some i
  | .retired => p ∈ x.2.nodes

omit [Inhabited V] in
/-- Every node is at one place. -/
theorem PlaceInv.place (hx : PlaceInv x) (hp : p < x.1.1.fresh) :
  ∃! u : Place ι, u.In x p
  := by
  obtain ⟨hfits, hx⟩ := hx
  have howned : ∀ i, x.1.2.owner p = some i → p ∉ x.1.2.nodes :=
    fun i hi => (hfits.owned p i hi).1
  rcases hx.known p hp with hmem | ⟨i, hi⟩
  case inr =>
    have hmem := howned i hi
    use .unlinked i, hi
    intro v hv
    cases v with
    | unlinked j =>
        obtain rfl := Option.some.inj (hi.symm.trans hv)
        rfl
    | linked =>
        obtain ⟨k, -, hk⟩ := hv
        exact absurd (List.mem_of_getElem? hk) hmem
    | retiring j => exact absurd (hx.retiring p j hv) hmem
    | retired => exact absurd (hx.retired p hv).1 hmem
  case inl =>
    obtain ⟨k, hk⟩ := List.mem_iff_getElem?.mp hmem
    have hpassed := hx.passed k p hk
    by_cases hhead : x.1.2.head ≤ k
    · have hnot := hpassed.not.mp (Nat.not_lt.mpr hhead)
      use .linked, ⟨k, hhead, hk⟩
      intro v hv
      cases v with
      | unlinked j => exact absurd hmem (howned j hv)
      | linked => rfl
      | retiring j => exact absurd (Or.inr ⟨j, hv⟩) hnot
      | retired => exact absurd (Or.inl hv) hnot
    · have hlinked : ¬ Place.In x p .linked := by
        rintro ⟨m, hm, hmp⟩
        obtain rfl := hfits.position hk hmp
        exact hhead hm
      rcases hpassed.mp (Nat.not_le.mp hhead) with hret | ⟨i, hi⟩
      · use .retired, hret
        intro v hv
        cases v with
        | unlinked j => exact absurd hmem (howned j hv)
        | linked => exact absurd hv hlinked
        | retiring j => exact absurd hv ((hx.retired p hret).2 j)
        | retired => rfl
      · use .retiring i, hi
        intro v hv
        cases v with
        | unlinked j => exact absurd hmem (howned j hv)
        | linked => exact absurd hv hlinked
        | retiring j =>
            obtain rfl := Option.some.inj (hi.symm.trans hv)
            rfl
        | retired => exact absurd hi ((hx.retired p hv).2 i)

omit [Inhabited V] in
/-- Only allocated nodes have a place. -/
theorem PlaceInv.below (hx : PlaceInv x) {u : Place ι} (hu : u.In x p) :
  p < x.1.1.fresh
  := by
  obtain ⟨hfits, hx⟩ := hx
  cases u with
  | unlinked i => exact (hfits.owned p i hu).2.1
  | linked =>
      obtain ⟨k, -, hk⟩ := hu
      exact hfits.below p (List.mem_of_getElem? hk)
  | retiring i => exact hfits.below p (hx.retiring p i hu)
  | retired => exact hfits.below p (hx.retired p hu).1

omit [Inhabited V] in
/-- The chain from the head consists of the nodes of the spine from the head on. -/
theorem PlaceInv.linked (hx : PlaceInv x) :
  Links x.1.1.next x.1.1.head (x.1.2.nodes.drop x.1.2.head)
  := by
  have hlinks : Links x.1.1.next (x.1.2.nodes.drop x.1.2.head).head?
      (x.1.2.nodes.drop x.1.2.head) := by
    apply Links.of_getElem?
    intro k p hp
    rw [List.getElem?_drop] at hp ⊢
    exact hx.1.next (x.1.2.head + k) p hp
  have hhead : x.1.1.head = x.1.2.nodes[x.1.2.head]? := hx.1.head
  rwa [List.head?_drop, ← hhead] at hlinks

theorem mem_drop_iff {l : List ℕ} {m : ℕ} :
  p ∈ l.drop m ↔ ∃ k, m ≤ k ∧ l[k]? = some p
  := by
  rw [List.mem_iff_getElem?]
  simp only [List.getElem?_drop]
  constructor
  · rintro ⟨k, hk⟩
    exact ⟨m + k, Nat.le_add_right m k, hk⟩
  · rintro ⟨k, hle, hk⟩
    use k - m
    rwa [Nat.add_sub_cancel' hle]

omit [Inhabited V] in
/-- The threads and the memory show the places of the ghosts. -/
theorem PlaceInv.has_iff {c : Config ι (Shared V) (Local V)} {a : Spine ι} {b : Retire ι}
    (hx : PlaceInv ((c.shared, a), b))
    (hl : ∀ i, KnowsPlace i ((c.shared, a), b) (c.thread i)) (u : Place ι) :
  u.Has c p ↔ u.In ((c.shared, a), b) p
  := by
  cases u with
  | unlinked i => exact ((hl i).owns.unlinked p).symm
  | linked =>
      apply Iff.trans _ mem_drop_iff
      constructor
      · rintro ⟨l, hlinks, hp⟩
        rwa [hlinks.unique hx.linked] at hp
      · exact fun hp => ⟨_, hx.linked, hp⟩
  | retiring i => exact ((hl i).owns.retiring p).symm
  | retired =>
      constructor
      · rintro ⟨l, hlinks, hp⟩
        rwa [hlinks.unique hx.2.links] at hp
      · exact fun hp => ⟨_, hx.2.links, hp⟩

/-! ### The destructor -/

section destructor

omit [Inhabited V]

/-- A loop of the destructor on a chain of nodes that are alive deletes these nodes. -/
theorem DeleteChain.of_links {field : Node V → Option ℕ} {node : ℕ → Node V} {o : Option ℕ}
    {l : List ℕ} {m : ℕ → Option (Node V)} (hl : Links (fun p => field (node p)) o l)
    (hm : ∀ p ∈ l, m p = some (node p)) :
  ∃ m', DeleteChain field m o l m' ∧ ∀ p, m' p = if p ∈ l then none else m p
  := by
  have hnodup := hl.nodup
  induction l generalizing o m with
  | nil =>
      obtain rfl : o = none := hl
      exact ⟨m, .done, fun p => (if_neg List.not_mem_nil).symm⟩
  | cons x l ih =>
      obtain ⟨rfl, hl⟩ := hl
      obtain ⟨hx, hnodup⟩ := List.nodup_cons.mp hnodup
      obtain ⟨m', hdelete, hm'⟩ := ih (m := Function.update m x none) hl (by
        intro p hp
        rw [Function.update_of_ne (ne_of_mem_of_not_mem hp hx)]
        exact hm p (List.mem_cons_of_mem x hp)) hnodup
      refine ⟨m', .delete (hm x List.mem_cons_self) hdelete, fun p => ?_⟩
      rw [hm' p]
      by_cases hp : p = x
      · subst hp
        rw [if_neg hx, Function.update_self, if_pos List.mem_cons_self]
      · rw [Function.update_of_ne hp]
        simp only [List.mem_cons, hp, false_or]

/-- A loop of the destructor has one outcome. -/
theorem DeleteChain.unique {field : Node V → Option ℕ} {o : Option ℕ} {ds ds' : List ℕ}
    {m m₁ m₂ : ℕ → Option (Node V)} (h : DeleteChain field m o ds m₁)
    (h' : DeleteChain field m o ds' m₂) :
  ds = ds' ∧ m₁ = m₂
  := by
  induction h generalizing ds' m₂ with
  | done =>
      cases h'
      exact ⟨rfl, rfl⟩
  | delete halive _ ih =>
      cases h' with
      | delete halive' hrest' =>
          obtain rfl := Option.some.inj (halive.symm.trans halive')
          obtain ⟨rfl, rfl⟩ := ih hrest'
          exact ⟨rfl, rfl⟩

/-- The destructor has one outcome. -/
theorem Destroys.unique {s : Shared V} {ds ds' : List ℕ} {m m' : ℕ → Option (Node V)}
    (h : Destroys s ds m) (h' : Destroys s ds' m') :
  ds = ds' ∧ m = m'
  := by
  obtain ⟨_, _, _, hl, hr, rfl⟩ := h
  obtain ⟨_, _, _, hl', hr', rfl⟩ := h'
  obtain ⟨rfl, rfl⟩ := hl.unique hl'
  obtain ⟨rfl, rfl⟩ := hr.unique hr'
  exact ⟨rfl, rfl⟩

end destructor

omit [Inhabited V] in
/-- When no thread is in a call, the destructor deletes every node once. -/
theorem PlaceInv.destroys (hx : PlaceInv x) (hunlinked : ∀ p i, x.1.2.owner p ≠ some i)
    (hretiring : ∀ p i, x.2.owner p ≠ some i) :
  ∃ ds m, Destroys x.1.1 ds m ∧ ds.Nodup ∧ (∀ p, p ∈ ds ↔ p < x.1.1.fresh) ∧ ∀ p, m p = none
  := by
  -- the nodes on the two chains are those that have a place
  have hin : ∀ u p, Place.In x p u → u = .linked ∨ u = .retired := by
    intro u p hu
    cases u with
    | unlinked i => exact absurd hu (hunlinked p i)
    | linked => exact Or.inl rfl
    | retiring i => exact absurd hu (hretiring p i)
    | retired => exact Or.inr rfl
  have hmem : ∀ p, p ∈ x.1.2.nodes.drop x.1.2.head ++ x.2.nodes ↔ p < x.1.1.fresh := by
    intro p
    rw [List.mem_append, mem_drop_iff]
    constructor
    · rintro (hp | hp)
      · exact hx.below (u := .linked) hp
      · exact hx.below (u := .retired) hp
    · intro hp
      obtain ⟨u, hu, -⟩ := hx.place hp
      rcases hin u p hu with rfl | rfl
      · exact Or.inl hu
      · exact Or.inr hu
  have hdisjoint : ∀ p ∈ x.1.2.nodes.drop x.1.2.head, p ∉ x.2.nodes := by
    intro p hp hret
    have hlinked : Place.In x p .linked := mem_drop_iff.mp hp
    have hretired : Place.In x p .retired := hret
    cases (hx.place (hx.below hlinked)).unique hlinked hretired
  have halive : ∀ p, p < x.1.1.fresh → x.1.1.memory p = some (x.1.1.node p) :=
    fun p hp => if_pos hp
  obtain ⟨m, hdelete, hm⟩ := DeleteChain.of_links hx.linked fun p hp =>
    halive p ((hmem p).mp (List.mem_append_left _ hp))
  obtain ⟨m', hdelete', hm'⟩ := DeleteChain.of_links (m := m) hx.2.links (by
    intro p hp
    rw [hm p, if_neg fun hp' => hdisjoint p hp' hp]
    exact halive p ((hmem p).mp (List.mem_append_right _ hp)))
  refine ⟨_, m', ⟨_, _, m, hdelete, hdelete', rfl⟩, ?_, hmem, fun p => ?_⟩
  · exact List.Nodup.append hx.linked.nodup hx.2.links.nodup hdisjoint
  · rw [hm' p, hm p]
    by_cases hret : p ∈ x.2.nodes
    · exact if_pos hret
    · rw [if_neg hret]
      by_cases hlinked : p ∈ x.1.2.nodes.drop x.1.2.head
      · exact if_pos hlinked
      · rw [if_neg hlinked]
        apply if_neg
        rw [← hmem p, List.mem_append]
        exact not_or.mpr ⟨hlinked, hret⟩

/-! ### Every node is reclaimed once -/

/-- Every allocated node is at one of the four places, and once on its chain if it is on one of the
two; and when no thread is in a call, the destructor deletes every node once. -/
structure Reclaims (c : Config ι (Shared V) (Local V)) : Prop where
  linked : ∃ l, Links c.shared.next c.shared.head l ∧ l.Nodup
  retired : ∃ l, Links c.shared.retiredNext c.shared.retired l ∧ l.Nodup
  place : ∀ p < c.shared.fresh, ∃! u : Place ι, u.Has c p
  allocated : ∀ p (u : Place ι), u.Has c p → p < c.shared.fresh
  destroys : (∀ i, c.thread i = none) → ∃ ds m, Destroys c.shared ds m ∧ ds.Nodup ∧
    (∀ p, p ∈ ds ↔ p < c.shared.fresh) ∧ ∀ p, m p = none

theorem exists_places [DecidableEq ι] (r : (machine ι V).Run n) :
  ∀ k ≤ n, ∃ a b, PlaceInv (((r.conf k).shared, a), b) ∧
    ∀ i, KnowsPlace i (((r.conf k).shared, a), b) ((r.conf k).thread i)
  := fun k hk => ⟨_, _, (placeOutline ι V).sound
    ((r.lift (ghost ι V) fun _ _ => trivial).lift (retireGhost ι V) fun _ _ => trivial) k hk⟩

/-- Wherever a run of `ValoisQueue` has come, each node has one of the four places, and if all
calls have returned then the destructor reclaims each node once. -/
theorem valoisQueue_reclaims [DecidableEq ι] (r : (machine ι V).Run n) :
  Reclaims (r.conf n)
  := by
  obtain ⟨a, b, hx, hl⟩ := exists_places r n le_rfl
  constructor
  case linked => exact ⟨_, hx.linked, hx.linked.nodup⟩
  case retired => exact ⟨_, hx.2.links, hx.2.links.nodup⟩
  case place =>
    intro p hp
    simp only [hx.has_iff hl]
    exact hx.place hp
  case allocated =>
    intro p u hu
    exact hx.below ((hx.has_iff hl u).mp hu)
  case destroys =>
    intro hidle
    simp only [hidle] at hl
    refine hx.destroys (fun p i hp => ?_) (fun p i hp => ?_)
    · cases ((hl i).owns.unlinked p).mp hp
    · cases ((hl i).owns.retiring p).mp hp

end ValoisQueue
