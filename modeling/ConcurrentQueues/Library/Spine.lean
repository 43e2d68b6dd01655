import Mathlib.Logic.Function.Basic
import ConcurrentQueues.Library.Links

/-!
# Linked lists with a lagging tail

A linked list that grows at its last node, read through two pointers: the head, which
points to a dummy in front of the first item, and the tail, which points to the last
or the last but one node. A `ListView` is what a memory shows of such a list. Its `Spine`
lists the nodes ever linked, in the order of linking, with the positions of the head
and the tail and the threads to which the nodes not linked yet belong. `ListStep`
collects the steps by which threads change the list.
-/

/-- The successors and the values of the nodes, the pointers to head and tail, and the
first address not allocated so far. -/
structure ListView (V : Type) where
  next : ℕ → Option ℕ
  value : ℕ → V
  head : Option ℕ
  tail : Option ℕ
  fresh : ℕ

/-- The nodes of a linked list, the positions of head and tail among them, and the owners
of the nodes that are not linked yet. -/
structure Spine (ι : Type) where
  nodes : List ℕ
  head : ℕ
  tail : ℕ
  owner : ℕ → Option ι

variable {ι V : Type}

namespace ListView

/-- A new node with value `x`. -/
def alloc (v : ListView V) (x : V) : ListView V :=
  { v with
    next := Function.update v.next v.fresh none
    value := Function.update v.value v.fresh x
    fresh := v.fresh + 1 }

/-- The node `p` becomes the successor of `q`. -/
def link (v : ListView V) (q p : ℕ) : ListView V :=
  { v with next := Function.update v.next q (some p) }

theorem link_next_self (v : ListView V) (q p : ℕ) :
  (v.link q p).next q = some p
  := Function.update_self ..

theorem link_next_of_ne {v : ListView V} {q x : ℕ} (h : x ≠ q) (p : ℕ) :
  (v.link q p).next x = v.next x
  := Function.update_of_ne h ..

/-- The tail points to `p`. -/
def swingTail (v : ListView V) (p : ℕ) : ListView V := { v with tail := some p }

/-- The head points to `p`. -/
def swingHead (v : ListView V) (p : ℕ) : ListView V := { v with head := some p }

end ListView

namespace Spine

/-- The spine of a list with the single node `p`. -/
def single (p : ℕ) : Spine ι := ⟨[p], 0, 0, fun _ => none⟩

/-- Thread `i` allocates the node `p`. -/
def alloc (a : Spine ι) (i : ι) (p : ℕ) : Spine ι :=
  { a with owner := Function.update a.owner p (some i) }

/-- The node `p` is linked behind the last node. -/
def link (a : Spine ι) (p : ℕ) : Spine ι :=
  { a with nodes := a.nodes ++ [p], owner := Function.update a.owner p none }

/-- The tail moves to the next node. -/
def swingTail (a : Spine ι) : Spine ι := { a with tail := a.tail + 1 }

/-- The head moves to the next node. -/
def swingHead (a : Spine ι) : Spine ι := { a with head := a.head + 1 }

/-- The items of the list: the values of the nodes behind the head. -/
def items (a : Spine ι) (v : ListView V) : List V :=
  (a.nodes.drop (a.head + 1)).map v.value

/-- The spine `a` describes the list `v`. -/
structure Fits (a : Spine ι) (v : ListView V) : Prop where
  nodup : a.nodes.Nodup
  next : ∀ k p, a.nodes[k]? = some p → v.next p = a.nodes[k + 1]?
  head : v.head = a.nodes[a.head]?
  tail : v.tail = a.nodes[a.tail]?
  head_le : a.head ≤ a.tail
  tail_lt : a.tail < a.nodes.length
  length_le : a.nodes.length ≤ a.tail + 2
  below : ∀ p ∈ a.nodes, p < v.fresh
  owned : ∀ p i, a.owner p = some i → p ∉ a.nodes ∧ p < v.fresh ∧ v.next p = none

/-- The pointer `p` points to the node at position `k`. -/
def PointsTo (a : Spine ι) (p : Option ℕ) (k : ℕ) : Prop :=
  ∃ q, p = some q ∧ a.nodes[k]? = some q

/-- If the pointer `p` is not null then it points to the node at position `k`. -/
def NullOr (a : Spine ι) (p : Option ℕ) (k : ℕ) : Prop :=
  ∀ q, p = some q → a.nodes[k]? = some q

variable {a a' : Spine ι} {v v' : ListView V} {i j : ι} {p q k m : ℕ}

theorem single_fits (hhead : v.head = some p) (htail : v.tail = some p) (hp : p < v.fresh)
    (hnext : v.next p = none) :
  (single p : Spine ι).Fits v
  := by
  constructor
  case next =>
    intro k q hq
    cases k with
    | zero =>
        obtain rfl : p = q := Option.some.inj hq
        rw [hnext]
        rfl
    | succ k => cases hq
  case below =>
    intro q hq
    rwa [List.mem_singleton.mp hq]
  case owned =>
    intro q i hq
    cases hq
  case head => apply hhead
  case tail => apply htail
  all_goals simp [single]

/-! ### Positions -/

/-- A node has one position. -/
theorem Fits.position (h : a.Fits v) (hk : a.nodes[k]? = some p) (hm : a.nodes[m]? = some p) :
  k = m
  := by
  obtain ⟨hlt, -⟩ := List.getElem?_eq_some_iff.mp hk
  apply (List.getElem?_inj hlt h.nodup).mp
  rw [hk, hm]

/-- A node without successor is the last one. -/
theorem Fits.last (h : a.Fits v) (hk : a.nodes[k]? = some p) (hp : v.next p = none) :
  k + 1 = a.nodes.length
  := by
  obtain ⟨hlt, -⟩ := List.getElem?_eq_some_iff.mp hk
  have hnone := (h.next k p hk).symm.trans hp
  have hle := List.getElem?_eq_none_iff.mp hnone
  exact le_antisymm hlt hle

theorem Fits.head_lt (h : a.Fits v) :
  a.head < a.nodes.length
  := lt_of_le_of_lt h.head_le h.tail_lt

/-- There is a node at every position up to the tail. -/
theorem Fits.exists_node (h : a.Fits v) (hk : k ≤ a.tail) :
  ∃ p, a.nodes[k]? = some p
  := ⟨_, List.getElem?_eq_getElem (lt_of_le_of_lt hk h.tail_lt)⟩

theorem Fits.tail_pointsTo (h : a.Fits v) :
  a.PointsTo v.tail a.tail
  := by
  obtain ⟨q, hq⟩ := h.exists_node le_rfl
  exact ⟨q, h.tail.trans hq, hq⟩

theorem Fits.head_pointsTo (h : a.Fits v) :
  a.PointsTo v.head a.head
  := by
  obtain ⟨q, hq⟩ := h.exists_node h.head_le
  exact ⟨q, h.head.trans hq, hq⟩

/-- Two positions of one pointer are equal. -/
theorem PointsTo.unique {x : Option ℕ} (hk : a.PointsTo x k) (h : a.Fits v)
    (hm : a.PointsTo x m) :
  k = m
  := by
  obtain ⟨q, rfl, hq⟩ := hk
  obtain ⟨q', hx, hq'⟩ := hm
  obtain rfl := Option.some.inj hx
  apply h.position hq hq'

/-- A pointer that equals the tail points to the position of the tail. -/
theorem Fits.at_tail (h : a.Fits v) (hk : a.PointsTo v.tail k) :
  k = a.tail
  := hk.unique h h.tail_pointsTo

/-- A pointer that equals the head points to the position of the head. -/
theorem Fits.at_head (h : a.Fits v) (hk : a.PointsTo v.head k) :
  k = a.head
  := hk.unique h h.head_pointsTo

/-- Two pointers to one position are equal. -/
theorem PointsTo.eq {x y : Option ℕ} (hx : a.PointsTo x k) (hy : a.PointsTo y k) :
  x = y
  := by
  obtain ⟨q, rfl, hq⟩ := hx
  obtain ⟨q', rfl, hq'⟩ := hy
  rw [← hq, ← hq']

/-- The nodes are the chain from the first node on. -/
theorem Fits.links (h : a.Fits v) (hp : a.nodes.head? = some p) :
  Links v.next (some p) a.nodes
  := by
  rw [← hp]
  apply Links.of_getElem? h.next

/-- The successor of the node at position `k` is null or the node at the next position. -/
theorem Fits.next_nullOr (h : a.Fits v) (hk : a.nodes[k]? = some q) :
  a.NullOr (v.next q) (k + 1)
  := by
  intro x hx
  rw [← h.next k q hk, hx]

theorem NullOr.pointsTo {x : Option ℕ} (h : a.NullOr x k) (hx : x ≠ none) :
  a.PointsTo x k
  := by
  obtain ⟨q, hq⟩ := Option.ne_none_iff_exists'.mp hx
  exact ⟨q, hq, h q hq⟩

theorem link_getElem? (hk : a.nodes[k]? = some q) :
  (a.link p).nodes[k]? = some q
  := by
  rw [link, List.getElem?_append_left (List.getElem?_eq_some_iff.mp hk).1, hk]

theorem link_last :
  (a.link p).nodes[a.nodes.length]? = some p
  := by
  simp [link]

/-! ### The steps of a list -/

theorem Fits.alloc (h : a.Fits v) (i : ι) (x : V) :
  (a.alloc i v.fresh).Fits (v.alloc x)
  := by
  have hfresh : v.fresh ∉ a.nodes := fun hmem => lt_irrefl _ (h.below _ hmem)
  constructor
  case next =>
    intro k p hk
    have hp : p ≠ v.fresh := by
      rintro rfl
      exact hfresh (List.mem_of_getElem? hk)
    apply Eq.trans (Function.update_of_ne hp ..)
    apply h.next k p hk
  case below =>
    intro p hp
    exact Nat.lt_succ_of_lt (h.below p hp)
  case owned =>
    intro p j hp
    by_cases hpf : p = v.fresh
    · subst hpf
      exact ⟨hfresh, Nat.lt_succ_self _, Function.update_self ..⟩
    · simp only [Spine.alloc, Function.update_of_ne hpf] at hp
      obtain ⟨hmem, hlt, hnone⟩ := h.owned p j hp
      exact ⟨hmem, Nat.lt_succ_of_lt hlt, (Function.update_of_ne hpf ..).trans hnone⟩
  case nodup => apply h.nodup
  case head => apply h.head
  case tail => apply h.tail
  case head_le => apply h.head_le
  case tail_lt => apply h.tail_lt
  case length_le => apply h.length_le

/-- Linking an owned node behind a node that has no successor and is not past the tail. -/
theorem Fits.link (h : a.Fits v) (hp : a.owner p = some i) (hk : a.nodes[k]? = some q)
    (hkt : k ≤ a.tail) (hq : v.next q = none) :
  (a.link p).Fits (v.link q p)
  := by
  obtain ⟨hmem, hlt, hnone⟩ := h.owned p i hp
  have hlast := h.last hk hq
  have hqmem : q ∈ a.nodes := List.mem_of_getElem? hk
  have hpq : p ≠ q := fun heq => hmem (heq ▸ hqmem)
  have hkeep : ∀ m < a.nodes.length, (a.link p).nodes[m]? = a.nodes[m]? := by
    intro m hm
    apply List.getElem?_append_left hm
  have hlength : (a.link p).nodes.length = a.nodes.length + 1 := by simp [Spine.link]
  have hnew := link_last (a := a) (p := p)
  constructor
  case nodup =>
    apply List.Nodup.append h.nodup (List.nodup_singleton p)
    intro x hx hx'
    rw [List.mem_singleton] at hx'
    exact hmem (hx' ▸ hx)
  case next =>
    intro m x hx
    have hm : m < a.nodes.length + 1 := by
      rw [← hlength]
      exact (List.getElem?_eq_some_iff.mp hx).1
    rcases Nat.lt_succ_iff_lt_or_eq.mp hm with hm | rfl
    · rw [hkeep m hm] at hx
      by_cases hxq : x = q
      · subst hxq
        obtain rfl := h.position hx hk
        rw [ListView.link_next_self, hlast, hnew]
      · have hmk : m ≠ k := by
          rintro rfl
          exact hxq (Option.some.inj (hx.symm.trans hk))
        have hm' : m + 1 < a.nodes.length := by omega
        rw [ListView.link_next_of_ne hxq, hkeep _ hm']
        apply h.next m x hx
    · obtain rfl := Option.some.inj (hnew.symm.trans hx)
      rw [ListView.link_next_of_ne hpq, hnone]
      symm
      apply List.getElem?_eq_none
      rw [hlength]
  case head =>
    apply h.head.trans
    symm
    apply hkeep _ h.head_lt
  case tail =>
    apply h.tail.trans
    symm
    apply hkeep _ h.tail_lt
  case head_le => apply h.head_le
  case tail_lt =>
    rw [hlength]
    exact Nat.lt_succ_of_lt h.tail_lt
  case length_le =>
    rw [hlength, ← hlast]
    exact Nat.add_le_add_right hkt 2
  case below =>
    intro x hx
    rcases List.mem_append.mp hx with hx | hx
    · apply h.below x hx
    · rw [List.mem_singleton.mp hx]
      apply hlt
  case owned =>
    intro x j hx
    by_cases hxp : x = p
    · subst hxp
      simp only [Spine.link, Function.update_self] at hx
      cases hx
    · simp only [Spine.link, Function.update_of_ne hxp] at hx
      obtain ⟨hxmem, hxlt, hxnone⟩ := h.owned x j hx
      have hxq : x ≠ q := fun heq => hxmem (heq ▸ hqmem)
      refine ⟨?_, hxlt, (ListView.link_next_of_ne hxq p).trans hxnone⟩
      simp only [Spine.link, List.mem_append, List.mem_singleton]
      rintro (hx | hx)
      · exact hxmem hx
      · exact hxp hx

theorem Fits.swingTail (h : a.Fits v) (hp : a.nodes[a.tail + 1]? = some p) :
  a.swingTail.Fits (v.swingTail p)
  := by
  have hlt := (List.getElem?_eq_some_iff.mp hp).1
  exact ⟨h.nodup, h.next, h.head, hp.symm, Nat.le_succ_of_le h.head_le, hlt,
    Nat.le_succ_of_le h.length_le, h.below, h.owned⟩

theorem Fits.swingHead (h : a.Fits v) (hlt : a.head < a.tail)
    (hp : a.nodes[a.head + 1]? = some p) :
  a.swingHead.Fits (v.swingHead p)
  := ⟨h.nodup, h.next, hp.symm, h.tail, hlt, h.tail_lt, h.length_le, h.below, h.owned⟩

/-! ### The items -/

theorem Fits.items_alloc (h : a.Fits v) (i : ι) (x : V) :
  (a.alloc i v.fresh).items (v.alloc x) = a.items v
  := by
  apply List.map_congr_left
  intro p hp
  apply Function.update_of_ne
  exact ne_of_lt (h.below p (List.mem_of_mem_drop hp))

theorem Fits.items_link (h : a.Fits v) :
  (a.link p).items (v.link q p) = a.items v ++ [v.value p]
  := by
  simp only [items, Spine.link, ListView.link, List.drop_append_of_le_length h.head_lt,
    List.map_append, List.map_cons, List.map_nil]

theorem items_swingHead (hp : a.nodes[a.head + 1]? = some p) :
  a.items v = v.value p :: a.swingHead.items (v.swingHead p)
  := by
  obtain ⟨hlt, hget⟩ := List.getElem?_eq_some_iff.mp hp
  rw [items, List.drop_eq_getElem_cons hlt, hget]
  rfl

/-- A null successor of a node not past the head means that there are no items. -/
theorem Fits.items_eq_nil (h : a.Fits v) (hk : a.nodes[k]? = some q) (hle : k ≤ a.head)
    (hq : v.next q = none) :
  a.items v = []
  := by
  have hlast := h.last hk hq
  have hlt := h.head_lt
  rw [items, List.drop_eq_nil_of_le (show a.nodes.length ≤ a.head + 1 by omega)]
  rfl

/-! ### Growth -/

/-- What thread `j` sees of the steps of others: nodes are added at the end, head and tail
move forward, `j` keeps its own nodes, and values stay. -/
structure Grows (j : ι) (x x' : ListView V × Spine ι) : Prop where
  nodes : x.2.nodes <+: x'.2.nodes
  head : x.2.head ≤ x'.2.head
  tail : x.2.tail ≤ x'.2.tail
  owner : ∀ p, x.2.owner p = some j → x'.2.owner p = some j
  value : ∀ p, p ∈ x.2.nodes ∨ x.2.owner p = some j → x'.1.value p = x.1.value p

theorem Grows.getElem? (h : Grows j (v, a) (v', a')) (hk : a.nodes[k]? = some p) :
  a'.nodes[k]? = some p
  := by
  obtain ⟨t, ht⟩ := h.nodes
  rw [← ht, List.getElem?_append_left (List.getElem?_eq_some_iff.mp hk).1, hk]

theorem PointsTo.grow {x : Option ℕ} (hk : a.PointsTo x k) (h : Grows j (v, a) (v', a')) :
  a'.PointsTo x k
  := by
  obtain ⟨q, hx, hq⟩ := hk
  exact ⟨q, hx, h.getElem? hq⟩

theorem NullOr.grow {x : Option ℕ} (hk : a.NullOr x k) (h : Grows j (v, a) (v', a')) :
  a'.NullOr x k
  := fun q hq => h.getElem? (hk q hq)

/-- The steps of thread `i` on a list. -/
inductive ListStep (i : ι) : ListView V × Spine ι → ListView V × Spine ι → Prop where
  | stay (x : ListView V × Spine ι) : ListStep i x x
  | alloc {v : ListView V} {a : Spine ι} (x : V) :
      ListStep i (v, a) (v.alloc x, a.alloc i v.fresh)
  | link {v : ListView V} {a : Spine ι} {k q p : ℕ} : a.owner p = some i →
      a.nodes[k]? = some q → k ≤ a.tail → v.next q = none →
      ListStep i (v, a) (v.link q p, a.link p)
  | swingTail {v : ListView V} {a : Spine ι} {p : ℕ} : a.nodes[a.tail + 1]? = some p →
      ListStep i (v, a) (v.swingTail p, a.swingTail)
  | swingHead {v : ListView V} {a : Spine ι} {p : ℕ} : a.head < a.tail →
      a.nodes[a.head + 1]? = some p → ListStep i (v, a) (v.swingHead p, a.swingHead)

/-- A list keeps its spine. -/
theorem ListStep.fits {x x' : ListView V × Spine ι} (h : ListStep i x x') (hx : x.2.Fits x.1) :
  x'.2.Fits x'.1
  := by
  cases h with
  | stay => apply hx
  | alloc y => apply hx.alloc
  | link hp hk hkt hq => apply hx.link hp hk hkt hq
  | swingTail hp => apply hx.swingTail hp
  | swingHead hlt hp => apply hx.swingHead hlt hp

/-- The steps of a thread let the list grow for the others. -/
theorem ListStep.grows {x x' : ListView V × Spine ι} (h : ListStep i x x') (hx : x.2.Fits x.1)
    (hij : j ≠ i) :
  Grows j x x'
  := by
  cases h with
  | stay => exact ⟨List.prefix_rfl, le_rfl, le_rfl, fun _ h => h, fun _ _ => rfl⟩
  | @alloc v a y =>
      refine ⟨List.prefix_rfl, le_rfl, le_rfl, fun p hp => ?_, fun p hp => ?_⟩
      · have hne : p ≠ v.fresh := ne_of_lt (hx.owned p j hp).2.1
        exact (Function.update_of_ne hne ..).trans hp
      · apply Function.update_of_ne
        rcases hp with hp | hp
        · exact ne_of_lt (hx.below p hp)
        · exact ne_of_lt (hx.owned p j hp).2.1
  | @link v a k q p hp hk hkt hq =>
      refine ⟨List.prefix_append _ _, le_rfl, le_rfl, fun y hy => ?_, fun _ _ => rfl⟩
      have hne : y ≠ p := by
        rintro rfl
        exact hij (Option.some.inj (hy.symm.trans hp))
      exact (Function.update_of_ne hne ..).trans hy
  | swingTail hp =>
      exact ⟨List.prefix_rfl, le_rfl, Nat.le_succ _, fun _ h => h, fun _ _ => rfl⟩
  | swingHead hlt hp =>
      exact ⟨List.prefix_rfl, Nat.le_succ _, le_rfl, fun _ h => h, fun _ _ => rfl⟩

end Spine
